/-
  TraceReplay.Proofs.Construction — tables over whole histories of building.

  A `Construction` is one of the ways to build a value. A history is a list of them, each of
  which names values that are in the table by then; any may fail.

  Proved, over every history that starts with no value (`tables_stay_sound_and_only_grow`):
  - a value refers to earlier ones only, and the pieces of a hybrid word cover each of its bits
    once;
  - whether it depends on an input, and its word if that is known, are what its node says;
  - what is built later takes nothing back: all that can be asked about a value has the same
    answer ever after, and a new value has the next id;
  - a hybrid word can be shifted either way by any count, since the moved ranges and the vacated
    bits partition the word again (`Direction.partitions_shift`).
-/

import TraceReplay.Formula.Text
import TraceReplay.Proofs.Hybrid
import TraceReplay.Solver.Term

namespace TraceReplay

/-! ## Shifted partitions -/

namespace Direction

variable {d : Direction} {n k : Nat} {r target : BitRange}

/-- A bit that is not vacated is covered by what covered the bit that it comes from. -/
theorem exists_move? (hr : r.InWord) (hk : k < 32) (hv : (d.vacated n).covers k = false) (hn : n < 32)
    (hcov : r.covers (d.origin n k) = true) : ∃ target, d.move? n r = some target ∧ target.covers k = true := by
  have hl := hr.1
  have hh := hr.2
  rw [BitRange.covers_eq_false_iff] at hv
  rw [BitRange.covers_iff] at hcov
  cases d with
  | left =>
    simp only [vacated, origin] at hv hcov
    refine ⟨⟨r.low + n, min (r.high + n) 31⟩, ?_, ?_⟩
    · rw [move?, if_neg (by omega)]
    · rw [BitRange.covers_iff]
      simp only
      omega
  | right =>
    simp only [vacated, origin] at hv hcov
    refine ⟨⟨r.low - n, r.high - n⟩, ?_, ?_⟩
    · rw [move?, if_neg (by omega)]
    · rw [BitRange.covers_iff]
      simp only
      omega

theorem vacated_covers_eq_false (h : d.move? n r = some target) (hr : r.InWord) (hn : n ≠ 0)
    (hcov : target.covers k = true) : (d.vacated n).covers k = false := by
  have hl := hr.1
  have hh := hr.2
  rw [BitRange.covers_eq_false_iff]
  rw [BitRange.covers_iff] at hcov
  cases d <;> simp only [move?] at h <;> split at h <;> cases h <;> simp only [vacated] at hcov ⊢ <;> omega

/-- The ranges of a word, moved, and the vacated bits are the ranges of a word again. -/
theorem partitions_shift {l l' : List BitRange} (h : Pieces.Partitions 0 l) (hn : n < 32) (h0 : n ≠ 0)
    (hl' : ∀ r, r ∈ l' ↔ r = d.vacated n ∨ ∃ s ∈ l, d.move? n s = some r) : Pieces.Partitions 0 l' := by
  have inWord {s : BitRange} (hs : s ∈ l) : s.InWord := (h.inWord s hs).2
  refine ⟨?_, ?_, ?_⟩
  · intro r hr
    rcases (hl' r).mp hr with rfl | ⟨s, hs, hm⟩
    · exact ⟨Nat.zero_le _, vacated_inWord hn h0⟩
    · exact ⟨Nat.zero_le _, move?_inWord hm (inWord hs)⟩
  · intro k _ hk
    by_cases hv : (d.vacated n).covers k = true
    · exact ⟨d.vacated n, (hl' _).mpr (.inl rfl), hv⟩
    · rw [Bool.not_eq_true] at hv
      have horigin : d.origin n k < 32 := by
        rw [BitRange.covers_eq_false_iff] at hv
        cases d <;> simp only [vacated, origin] at hv ⊢ <;> omega
      obtain ⟨s, hs, hcov⟩ := h.covered _ (Nat.zero_le _) horigin
      obtain ⟨target, hm, ht⟩ := exists_move? (inWord hs) hk hv hn hcov
      exact ⟨target, (hl' _).mpr (.inr ⟨s, hs, hm⟩), ht⟩
  · -- Two moved ranges with a common bit come from ranges with a common bit.
    intro r hr s hs k hrk hsk
    rcases (hl' r).mp hr with rfl | ⟨a, ha, hra⟩
    · rcases (hl' s).mp hs with rfl | ⟨b, hb, hsb⟩
      · rfl
      · rw [vacated_covers_eq_false hsb (inWord hb) h0 hsk] at hrk; cases hrk
    · rcases (hl' s).mp hs with rfl | ⟨b, hb, hsb⟩
      · rw [vacated_covers_eq_false hra (inWord ha) h0 hrk] at hsk; cases hsk
      · have hab : a = b :=
          h.once a ha b hb _ (covers_origin hra (inWord ha) hrk).1 (covers_origin hsb (inWord hb) hsk).1
        rw [hab] at hra
        exact Option.some.inj (hra.symm.trans hsb)

end Direction

/-! ## Computations that keep a table well-formed -/

namespace Build

/-- Run on the table, the computation appends to it, leaves it well-formed and gives what it is
    meant to. -/
structure Maintains {α : Type} (b : Build α) (t : Table) (post : Table → α → Prop) : Prop where
  grows : t.Grows (b t).2
  wellFormed : (b t).2.WellFormed
  post : post (b t).2 (b t).1

variable {t : Table} {d : Direction} {n : Nat}

theorem Maintains.bind {α β : Type} {b : Build α} {f : α → Build β} {P : Table → α → Prop}
    {Q : Table → β → Prop} (hb : b.Maintains t P)
    (hf : ∀ a t', t'.WellFormed → t.Grows t' → P t' a → (f a).Maintains t' Q) : (b >>= f).Maintains t Q :=
  have h := hf (b t).1 (b t).2 hb.wellFormed hb.grows hb.post
  ⟨hb.grows.trans h.grows, h.wellFormed, h.post⟩

theorem Maintains.mono {α : Type} {b : Build α} {P Q : Table → α → Prop} (hb : b.Maintains t P)
    (h : ∀ t' a, P t' a → Q t' a) : b.Maintains t Q :=
  ⟨hb.grows, hb.wellFormed, h _ _ hb.post⟩

theorem Maintains.congr {α : Type} {b b' : Build α} {P : Table → α → Prop} (h : b.Maintains t P)
    (e : b' t = b t) : b'.Maintains t P := by
  constructor <;> rw [e]
  · exact h.grows
  · exact h.wellFormed
  · exact h.post

theorem maintains_pure {α : Type} {a : α} {P : Table → α → Prop} (ht : t.WellFormed) (h : P t a) :
    Maintains (pure a) t P := ⟨.refl t, ht, h⟩

/-- A computation may look at the table. -/
theorem maintains_get {α : Type} {f : Table → Build α} {P : Table → α → Prop} (h : (f t).Maintains t P) :
    (getThe Table >>= f).Maintains t P := ⟨h.grows, h.wellFormed, h.post⟩

def Newest (t : Table) (id : Nat) : Prop := id + 1 = t.size

theorem Newest.lt {id : Nat} (h : Newest t id) : id < t.size := by
  unfold Newest at h
  omega

theorem maintains_append (ht : t.WellFormed) {v : Value} (hv : v.Consistent t t.size) :
    (append v).Maintains t Newest :=
  ⟨Table.grows_push t v, ht.push hv, (t.size_push v).symm⟩

theorem maintains_symbol (ht : t.WellFormed) (width : Nat) : (symbol width).Maintains t Newest :=
  maintains_append ht ⟨rfl, rfl⟩

theorem maintains_constantOf (ht : t.WellFormed) (width : Nat) (b : Bits) :
    (constantOf width b).Maintains t Newest :=
  maintains_append ht ⟨rfl, rfl⟩

theorem maintains_operation (ht : t.WellFormed) (opcode : Opcode) {ids : List ValueId}
    (hlt : ∀ o ∈ ids, o < t.size) (width : Nat) : (operation opcode ids width).Maintains t Newest :=
  have h := maintains_append ht (v := ⟨width, .operation opcode ids, ids.any t.isSymbolic,
    if ids.any t.isSymbolic then none else (ids.mapM t.known).bind opcode.apply⟩) ⟨hlt, rfl, rfl⟩
  ⟨h.grows, h.wellFormed, h.post⟩

theorem maintains_operationLike (ht : t.WellFormed) (opcode : Opcode) {a : ValueId} {ids : List ValueId}
    (hlt : ∀ o ∈ a :: ids, o < t.size) : (operationLike opcode a ids).Maintains t Newest :=
  have h := maintains_operation ht opcode hlt (t.width a)
  ⟨h.grows, h.wellFormed, h.post⟩

theorem maintains_hybrid (ht : t.WellFormed) {pieces : Pieces} (tiles : pieces.isPartition = true)
    (hlt : ∀ p ∈ pieces.values, p < t.size) : (hybrid pieces tiles).Maintains t Newest :=
  have h := maintains_append ht (v := ⟨32, .hybrid pieces, pieces.isSymbolic t, pieces.known t⟩)
    ⟨tiles, hlt, rfl, rfl⟩
  ⟨h.grows, h.wellFormed, h.post⟩

theorem maintains_withConstant (ht : t.WellFormed) (opcode : Opcode) {a : ValueId} (ha : a < t.size) (w : Word) :
    Maintains (constant w >>= fun k => binary opcode a k) t Newest := by
  refine (maintains_constantOf ht _ _).bind fun k t' ht' g hk => maintains_operationLike ht' _ fun o ho => ?_
  rcases List.mem_cons.mp ho with rfl | ho
  · exact g.lt ha
  · rw [List.mem_singleton.mp ho]
    exact hk.lt

theorem maintains_movePiece (ht : t.WellFormed) (range target : BitRange) {piece : Nat}
    (hp : piece < t.size) : (movePiece d n range target piece).Maintains t fun t' p => p < t'.size := by
  refine maintains_get ?_
  split
  · exact (maintains_constantOf ht _ _).mono fun _ _ h => h.lt
  · split
    · exact (maintains_withConstant ht _ hp _).mono fun _ _ h => h.lt
    · exact maintains_pure ht hp

/-- Which ranges there are after a move depends on the ranges alone. What every moved piece is given
    holds of all of them, if no later value takes it back. -/
theorem maintains_movePieces {P : Table → BitRange → ValueId → Prop}
    (hgrow : ∀ t t' r p, P t r p → t.Grows t' → P t' r p) (ht : t.WellFormed)
    (entries : List (BitRange × ValueId)) (moved : Pieces)
    (hentries : ∀ e ∈ entries, ∀ target, d.move? n e.1 = some target → ∀ t', t'.WellFormed → t.Grows t' →
      (movePiece d n e.1 target e.2).Maintains t' fun t'' p => P t'' target p)
    (hmoved : ∀ e ∈ moved.entries, P t e.1 e.2) :
    Maintains (entries.foldlM (fun moved e => do
      match d.move? n e.1 with
      | none => return moved
      | some target => return moved.insert target (← movePiece d n e.1 target e.2)) moved) t
      fun t' m => (∀ e ∈ m.entries, P t' e.1 e.2) ∧
        ∀ r, r ∈ m.keys ↔ r ∈ moved.keys ∨ ∃ e ∈ entries, d.move? n e.1 = some r := by
  induction entries generalizing t moved with
  | nil => exact maintains_pure ht ⟨hmoved, by simp⟩
  | cons a entries ih =>
    rw [List.foldlM_cons]
    have htail (t₁ : Table) (g : t.Grows t₁) : ∀ e ∈ entries, ∀ target, d.move? n e.1 = some target →
        ∀ t', t'.WellFormed → t₁.Grows t' → (movePiece d n e.1 target e.2).Maintains t' fun t'' p => P t'' target p :=
      fun e he target hm t' ht' g' => hentries e (by simp [he]) target hm t' ht' (g.trans g')
    split
    · rename_i hm
      refine (ih ht moved (htail t (.refl t)) hmoved).mono fun t' m h => ⟨h.1, fun r => ?_⟩
      rw [h.2 r]
      simp [hm]
    · rename_i target hm
      refine Maintains.bind (P := fun t' m => (∀ e ∈ m.entries, P t' e.1 e.2) ∧
        ∀ r, r ∈ m.keys ↔ r = target ∨ r ∈ moved.keys) ?_ fun m t' ht' g hm' => ?_
      · refine (hentries a (by simp) target hm t ht (.refl t)).bind fun p t' ht' g hp => ?_
        refine maintains_pure ht' ⟨fun e he => ?_, fun r => SortedMap.mem_keys_insert⟩
        rcases SortedMap.mem_insert.mp he with rfl | ⟨he, -⟩
        · exact hp
        · exact hgrow _ _ _ _ (hmoved e he) g
      · refine (ih ht' m (htail t' g) hm'.1).mono fun t'' m' h => ⟨h.1, fun r => ?_⟩
        rw [h.2 r, hm'.2 r]
        simp [hm, eq_comm, or_assoc, or_left_comm]

theorem maintains_hybrid? (ht : t.WellFormed) {pieces : Pieces} (tiles : pieces.isPartition = true)
    (hlt : ∀ e ∈ pieces.entries, e.2 < t.size) :
    (hybrid? pieces).Maintains t fun t' r => ∃ id, r = .ok id ∧ Newest t' id ∧ t'.pieces? id = some pieces := by
  have h := maintains_hybrid ht tiles (by
    intro p hp
    obtain ⟨e, he, rfl⟩ := List.mem_map.mp hp
    exact hlt e he)
  rw [hybrid?_of_isPartition tiles]
  exact ⟨h.grows, h.wellFormed, _, rfl, h.post, Table.pieces?_push_self t _⟩

theorem maintains_hybrid?_of_lt (ht : t.WellFormed) {pieces : Pieces} (hlt : ∀ e ∈ pieces.entries, e.2 < t.size) :
    (hybrid? pieces).Maintains t fun t' r => ∀ id, r = .ok id → Newest t' id := by
  by_cases tiles : pieces.isPartition = true
  · refine (maintains_hybrid? ht tiles hlt).mono fun t' r h id hid => ?_
    obtain ⟨id', rfl, hnew, -⟩ := h
    cases hid
    exact hnew
  · rw [hybrid?_of_not_isPartition tiles]
    exact maintains_pure ht nofun

theorem shiftHybrid_run_zero {id : ValueId} {pieces : Pieces} (hp : t.pieces? id = some pieces) (opcode : Opcode)
    {count : Word} (h0 : Opcode.shiftCount count = 0) : (shiftHybrid id opcode count).run t = hybrid? pieces t := by
  unfold shiftHybrid
  simp only [run_get, hp, ← run_checkedHybrid, if_pos h0]

/-- A shift by some bits succeeds whatever the pieces are: its result has the moved pieces and
    zeros at the vacated bits. -/
theorem maintains_shiftHybrid_pieces {P : Table → BitRange → ValueId → Prop}
    (hgrow : ∀ t t' r p, P t r p → t.Grows t' → P t' r p) (hlt : ∀ t r p, P t r p → p < t.size)
    (ht : t.WellFormed) {id : ValueId} {pieces : Pieces} (hp : t.pieces? id = some pieces) {opcode : Opcode}
    (hd : Direction.ofOpcode? opcode = some d) {count : Word} (hn : Opcode.shiftCount count = n) (h0 : n ≠ 0)
    (hentries : ∀ e ∈ pieces.entries, ∀ target, d.move? n e.1 = some target → ∀ t', t'.WellFormed → t.Grows t' →
      (movePiece d n e.1 target e.2).Maintains t' fun t'' p => P t'' target p)
    (hfilling : ∀ t', P (bits ⟨0, d.vacated n⟩ t').2 (d.vacated n) (bits ⟨0, d.vacated n⟩ t').1) :
    (shiftHybrid id opcode count).run.Maintains t fun t' r =>
      ∃ id' pieces', r = .ok id' ∧ Newest t' id' ∧ t'.pieces? id' = some pieces' ∧
        (∀ e ∈ pieces'.entries, P t' e.1 e.2) ∧
        ∀ r, r ∈ pieces'.keys ↔ r = d.vacated n ∨ ∃ e ∈ pieces.entries, d.move? n e.1 = some r := by
  have hrun := shiftHybrid_run hp hd count
  rw [hn, if_neg h0] at hrun
  refine Maintains.congr ?_ hrun
  refine (maintains_movePieces hgrow ht pieces.entries .empty hentries fun _ he => absurd he List.not_mem_nil).bind
    fun moved t₁ ht₁ _ hmoved => ?_
  have hfill := maintains_constantOf ht₁ (d.vacated n).width ⟨0, d.vacated n⟩
  refine Maintains.bind (P := fun t' p => P t' (d.vacated n) p ∧ t₁.Grows t')
    ⟨hfill.grows, hfill.wellFormed, hfilling t₁, hfill.grows⟩ fun filling t₂ ht₂ _ hfilling => ?_
  have hpieces : ∀ e ∈ (moved.insert (d.vacated n) filling).entries, P t₂ e.1 e.2 := by
    intro e he
    rcases SortedMap.mem_insert.mp he with rfl | ⟨he, -⟩
    · exact hfilling.1
    · exact hgrow _ _ _ _ (hmoved.1 e he) hfilling.2
  have hkeys (r : BitRange) : r ∈ (moved.insert (d.vacated n) filling).keys ↔
      r = d.vacated n ∨ ∃ e ∈ pieces.entries, d.move? n e.1 = some r := by
    rw [SortedMap.mem_keys_insert, hmoved.2 r]
    simp [SortedMap.keys]
  have htiles : Pieces.isPartition (moved.insert (d.vacated n) filling) = true := by
    rw [Pieces.isPartition_iff]
    have hn32 : n < 32 := hn ▸ Nat.mod_lt _ (by decide)
    refine Direction.partitions_shift (d := d) ((Pieces.isPartition_iff _).mp (ht.isPartition hp)) hn32 h0 fun r => ?_
    rw [hkeys r]
    simp [SortedMap.keys]
  have hhybrid := maintains_hybrid? ht₂ htiles fun e he => hlt _ _ _ (hpieces e he)
  obtain ⟨id', hid', hnew, hp'⟩ := hhybrid.post
  exact ⟨hhybrid.grows, hhybrid.wellFormed, id', _, hid', hnew, hp',
    fun e he => hgrow _ _ _ _ (hpieces e he) hhybrid.grows, hkeys⟩

/-- A shift of a hybrid word succeeds whatever its pieces and the count are. -/
theorem maintains_shiftHybrid (ht : t.WellFormed) {id : ValueId} {pieces : Pieces}
    (hp : t.pieces? id = some pieces) {opcode : Opcode} (hd : Direction.ofOpcode? opcode = some d) (count : Word) :
    (shiftHybrid id opcode count).run.Maintains t fun t' r => ∃ id, r = .ok id ∧ Newest t' id := by
  have hlt (e : BitRange × ValueId) (he : e ∈ pieces.entries) : e.2 < t.size := ht.piece_lt hp he
  by_cases h0 : Opcode.shiftCount count = 0
  · refine ((maintains_hybrid? ht (ht.isPartition hp) hlt).congr (shiftHybrid_run_zero hp opcode h0)).mono
      fun t' r h => ?_
    obtain ⟨id', hid', hnew, -⟩ := h
    exact ⟨id', hid', hnew⟩
  · refine (maintains_shiftHybrid_pieces (P := fun t _ p => p < t.size) (fun _ _ _ _ h g => g.lt h) (fun _ _ _ h => h)
      ht hp hd rfl h0 ?_ fun t' => ?_).mono fun t' r h => ?_
    · exact fun e he target _ t' ht' g => maintains_movePiece ht' e.1 target (g.lt (hlt e he))
    · exact Table.lt_size_push t' _
    · obtain ⟨id', -, hid', hnew, -⟩ := h
      exact ⟨id', hid', hnew⟩

/-- Anything but a hybrid word is not shifted, nor by any other opcode, and nothing is built. -/
theorem shiftHybrid_run_of_none {id : ValueId} {opcode : Opcode} {count : Word}
    (h : t.pieces? id = none ∨ Direction.ofOpcode? opcode = none ∧ Opcode.shiftCount count ≠ 0) :
    ∃ fault, (shiftHybrid id opcode count).run t = (.error fault, t) := by
  unfold shiftHybrid
  rw [run_get]
  cases hp : t.pieces? id with
  | none => exact ⟨_, rfl⟩
  | some pieces =>
    obtain ⟨hd, h0⟩ := h.resolve_left (by rw [hp]; nofun)
    simp only [if_neg h0, hd]
    exact ⟨_, rfl⟩

theorem maintains_shiftHybrid_of_wellFormed (ht : t.WellFormed) (id : ValueId) (opcode : Opcode) (count : Word) :
    (shiftHybrid id opcode count).run.Maintains t fun t' r => ∀ id, r = .ok id → Newest t' id := by
  have failed (h : t.pieces? id = none ∨ Direction.ofOpcode? opcode = none ∧ Opcode.shiftCount count ≠ 0) :
      (shiftHybrid id opcode count).run.Maintains t fun t' r => ∀ id, r = .ok id → Newest t' id := by
    obtain ⟨fault, hrun⟩ := shiftHybrid_run_of_none h
    exact (maintains_pure (a := .error fault) ht nofun).congr hrun
  cases hp : t.pieces? id with
  | none => exact failed (.inl hp)
  | some pieces =>
    by_cases h0 : Opcode.shiftCount count = 0
    · exact (maintains_hybrid?_of_lt ht fun e he => ht.piece_lt hp he).congr (shiftHybrid_run_zero hp opcode h0)
    · cases hd : Direction.ofOpcode? opcode with
      | none => exact failed (.inr ⟨hd, h0⟩)
      | some d =>
        refine (maintains_shiftHybrid ht hp hd count).mono fun t' r h id hid => ?_
        obtain ⟨id', rfl, hnew⟩ := h
        cases hid
        exact hnew

theorem maintains_foldMask (ht : t.WellFormed) (id : ValueId) (opcode : Opcode) (mask : Word) :
    (foldMask id opcode mask).Maintains t fun t' r => ∀ id, r = some id → Newest t' id := by
  unfold foldMask
  cases hm : (t.pieces? id).bind (maskedWord? t opcode mask) with
  | none => exact (maintains_pure (a := none) ht nofun).congr (by simp only [hm]; rfl)
  | some word =>
    have hword := maintains_constantOf ht 32 ⟨word, .lowBits 32⟩
    refine Maintains.congr (b := some <$> constant word) ⟨hword.grows, hword.wellFormed, ?_⟩ (by simp only [hm])
    intro id hid
    cases hid
    exact hword.post

end Build

/-! ## Constructions -/

inductive Construction where
  | symbol (width : Nat)
  | constant (value : Word)
  | sized (value : Word) (width : Nat)
  | bits (bits : Bits)
  | literal (text : String)
  | hybrid (pieces : Pieces)
  | unary (opcode : Opcode) (a : ValueId)
  | binary (opcode : Opcode) (a b : ValueId)
  | binarySized (opcode : Opcode) (a b : ValueId) (width : Nat)
  | ternary (opcode : Opcode) (a b c : ValueId)
  | shiftHybrid (id : ValueId) (opcode : Opcode) (count : Word)
  | foldMask (id : ValueId) (opcode : Opcode) (mask : Word)

namespace Construction

def operands : Construction → List ValueId
  | hybrid pieces => pieces.values
  | unary _ a => [a]
  | binary _ a b => [a, b]
  | binarySized _ a b _ => [a, b]
  | ternary _ a b c => [a, b, c]
  | shiftHybrid id _ _ => [id]
  | foldMask id _ _ => [id]
  | _ => []

def InScope (c : Construction) (t : Table) : Prop := ∀ o ∈ c.operands, o < t.size

instance (c : Construction) (t : Table) : Decidable (c.InScope t) :=
  inferInstanceAs (Decidable (∀ o ∈ c.operands, o < t.size))

def built (b : Build ValueId) : Build (Except Fault (Option ValueId)) := (fun id => .ok (some id)) <$> b

/-- The id of the value, or nothing where a mask does not fold, or why there is none. -/
def run : Construction → Build (Except Fault (Option ValueId))
  | symbol width => built (.symbol width)
  | constant value => built (.constant value)
  | sized value width => built (.sized value width)
  | bits b => built (.bits b)
  | literal text => match Build.literal text with
    | .ok b => built b
    | .error fault => return .error fault
  | hybrid pieces => Except.map some <$> Build.hybrid? pieces
  | unary opcode a => built (.unary opcode a)
  | binary opcode a b => built (.binary opcode a b)
  | binarySized opcode a b width => built (.binarySized opcode a b width)
  | ternary opcode a b c => built (.ternary opcode a b c)
  | shiftHybrid id opcode count => Except.map some <$> (Build.shiftHybrid id opcode count).run
  | foldMask id opcode mask => .ok <$> Build.foldMask id opcode mask

def Answers (t : Table) (r : Except Fault (Option ValueId)) : Prop :=
  ∀ id, r = .ok (some id) → Build.Newest t id

variable {t : Table}

theorem maintains_built {b : Build ValueId} (h : b.Maintains t Build.Newest) : (built b).Maintains t Answers := by
  refine ⟨h.grows, h.wellFormed, ?_⟩
  intro id hid
  cases hid
  exact h.post

theorem maintains_map {b : Build (Except Fault ValueId)}
    (h : b.Maintains t fun t' r => ∀ id, r = .ok id → Build.Newest t' id) :
    Build.Maintains (Except.map some <$> b) t Answers := by
  refine ⟨h.grows, h.wellFormed, ?_⟩
  intro id hid
  refine h.post id ?_
  replace hid : Except.map some (b t).1 = .ok (some id) := hid
  cases hb : (b t).1 with
  | error fault => rw [hb] at hid; cases hid
  | ok id' => rw [hb] at hid; cases hid; rfl

theorem maintains_run (ht : t.WellFormed) {c : Construction} (hc : c.InScope t) : c.run.Maintains t Answers := by
  cases c with
  | symbol width => exact maintains_built (Build.maintains_symbol ht width)
  | constant value => exact maintains_built (Build.maintains_constantOf ht _ _)
  | sized value width => exact maintains_built (Build.maintains_constantOf ht _ _)
  | bits b => exact maintains_built (Build.maintains_constantOf ht _ _)
  | literal text =>
    cases hw : Word.literal text with
    | ok w =>
      have hrun : (literal text).run = built (.constant w) := by simp only [run, Build.literal, hw]
      rw [hrun]
      exact maintains_built (Build.maintains_constantOf ht _ _)
    | error fault =>
      have hrun : (literal text).run = pure (.error (.badRecord fault)) := by simp only [run, Build.literal, hw]
      rw [hrun]
      exact Build.maintains_pure ht nofun
  | hybrid pieces =>
    refine maintains_map (Build.maintains_hybrid?_of_lt ht fun e he => hc e.2 ?_)
    exact List.mem_map.mpr ⟨e, he, rfl⟩
  | unary opcode a => exact maintains_built (Build.maintains_operationLike ht opcode hc)
  | binary opcode a b => exact maintains_built (Build.maintains_operationLike ht opcode hc)
  | binarySized opcode a b width => exact maintains_built (Build.maintains_operation ht opcode hc width)
  | ternary opcode a b c => exact maintains_built (Build.maintains_operationLike ht opcode hc)
  | shiftHybrid id opcode count => exact maintains_map (Build.maintains_shiftHybrid_of_wellFormed ht id opcode count)
  | foldMask id opcode mask =>
    have h := Build.maintains_foldMask ht id opcode mask
    refine ⟨h.grows, h.wellFormed, ?_⟩
    intro id hid
    exact h.post id (Except.ok.inj hid)

end Construction

/-! ## Whole histories -/

namespace Table

/-- The table after the constructions; one that fails may still have appended values. -/
def construct (t : Table) (cs : List Construction) : Table := cs.foldl (fun t c => (c.run t).2) t

def Admits (t : Table) : List Construction → Prop
  | [] => True
  | c :: cs => c.InScope t ∧ Admits (c.run t).2 cs

variable {t : Table}

theorem construct_wellFormed (ht : t.WellFormed) {cs : List Construction} (h : t.Admits cs) :
    (t.construct cs).WellFormed := by
  induction cs generalizing t with
  | nil => exact ht
  | cons c cs ih => exact ih (Construction.maintains_run ht h.1).wellFormed h.2

theorem grows_construct (ht : t.WellFormed) {cs : List Construction} (h : t.Admits cs) :
    t.Grows (t.construct cs) := by
  induction cs generalizing t with
  | nil => exact .refl t
  | cons c cs ih =>
    have hrun := Construction.maintains_run ht h.1
    exact hrun.grows.trans (ih hrun.wellFormed h.2)

/-- The value refers to earlier ones, a hybrid word covers every bit once, and the facts that the
    table has of it follow from its node. -/
structure SoundAt (t : Table) (id : ValueId) (v : Value) : Prop where
  refers_back : ∀ o ∈ v.node.operands, o < id
  partitioned : ∀ pieces, v.node = .hybrid pieces → Pieces.Partitions 0 pieces.keys
  symbolic : t.isSymbolic id = v.node.isSymbolic t
  known : t.known id = v.node.known t

theorem WellFormed.soundAt (ht : t.WellFormed) {id : ValueId} {v : Value} (hv : t.get? id = some v) :
    t.SoundAt id v where
  refers_back := ht.operands_lt hv
  partitioned pieces hn :=
    (Pieces.isPartition_iff pieces).mp (ht.isPartition (pieces?_eq_some_iff.mpr ⟨v, hv, hn⟩))
  symbolic := ht.isSymbolic_eq hv
  known := ht.known_eq hv

structure SameAt (t t' : Table) (id : ValueId) : Prop where
  value : t'.get? id = t.get? id
  symbolic : t'.isSymbolic id = t.isSymbolic id
  known : t'.known id = t.known id
  inputs : t'.inputs id = t.inputs id
  evaluate : ∀ b, t'.evaluate id b = t.evaluate id b
  text : ∀ style, (t'.formula id).text style = (t.formula id).text style
  solverText : t'.solverText id = t.solverText id

theorem Grows.sameAt {t' : Table} (g : t.Grows t') {id : ValueId} (hid : id < t.size) : t.SameAt t' id := by
  have hinputs : t'.inputs id = t.inputs id := interpret_of_grows _ g hid
  have hformula : t'.formula id = t.formula id := interpret_of_grows _ g hid
  refine ⟨g.get? hid, g.isSymbolic hid, g.known hid, hinputs, fun b => ?_, fun style => ?_, ?_⟩
  · have heval : t'.eval b.assignment id = t.eval b.assignment id := interpret_of_grows _ g hid
    rw [evaluate, evaluate, hinputs, heval]
  · rw [hformula]
  · rw [solverText, solverText, solverTerm, solverTerm, hformula]

/-- Whatever is built from nothing, every value refers to earlier ones and is what its node says,
    what is built next takes nothing back and gets the next id, and a hybrid word can be shifted
    by any count. -/
theorem tables_stay_sound_and_only_grow (cs : List Construction) (h : empty.Admits cs) :
    (∀ id v, (empty.construct cs).get? id = some v → (empty.construct cs).SoundAt id v) ∧
    (∀ more, (empty.construct cs).Admits more →
      (empty.construct cs).Grows ((empty.construct cs).construct more) ∧
      ∀ id < (empty.construct cs).size, (empty.construct cs).SameAt ((empty.construct cs).construct more) id) ∧
    (∀ c : Construction, c.InScope (empty.construct cs) → ∀ id,
      (c.run (empty.construct cs)).1 = .ok (some id) → id + 1 = (c.run (empty.construct cs)).2.size) ∧
    (∀ id opcode count, (empty.construct cs).isHybrid id = true → opcode = .shl ∨ opcode = .shr →
      ∃ id', ((Build.shiftHybrid id opcode count).run (empty.construct cs)).1 = .ok id') := by
  have ht := construct_wellFormed wellFormed_empty h
  refine ⟨fun id v hv => ht.soundAt hv, fun more hmore => ?_, fun c hc id hid => ?_, fun id opcode count hh ho => ?_⟩
  · have g := grows_construct ht hmore
    exact ⟨g, fun id hid => g.sameAt hid⟩
  · exact (Construction.maintains_run ht hc).post id hid
  · obtain ⟨pieces, hp⟩ := Option.isSome_iff_exists.mp hh
    obtain ⟨d, hd⟩ : ∃ d, Direction.ofOpcode? opcode = some d := by
      rcases ho with rfl | rfl
      · exact ⟨.left, rfl⟩
      · exact ⟨.right, rfl⟩
    obtain ⟨id', hid', -⟩ := (Build.maintains_shiftHybrid ht hp hd count).post
    exact ⟨id', hid'⟩

/-- A known word with a byte that is not, shifted right across that byte: the table is sound, and
    the shifted word can be shifted again. -/
theorem a_split_word_can_be_shifted_twice :
    empty.Admits [.symbol 8, .bits ⟨0xaabbcc08, ⟨0, 7⟩⟩, .bits ⟨0xaabbcc08, ⟨16, 31⟩⟩,
      .hybrid (.ofList [(⟨0, 7⟩, 1), (⟨8, 15⟩, 0), (⟨16, 31⟩, 2)]), .shiftHybrid 3 .shr 12] ∧
    ∃ id', ((Build.shiftHybrid 8 .shl 40).run (empty.construct [.symbol 8, .bits ⟨0xaabbcc08, ⟨0, 7⟩⟩,
      .bits ⟨0xaabbcc08, ⟨16, 31⟩⟩, .hybrid (.ofList [(⟨0, 7⟩, 1), (⟨8, 15⟩, 0), (⟨16, 31⟩, 2)]),
      .shiftHybrid 3 .shr 12])).1 = .ok id' := by
  refine ⟨?admits, (tables_stay_sound_and_only_grow _ ?admits).2.2.2 8 .shl 40 (by decide) (.inl rfl)⟩
  refine ⟨by decide, by decide, by decide, by decide, by decide, trivial⟩

end Table

end TraceReplay
