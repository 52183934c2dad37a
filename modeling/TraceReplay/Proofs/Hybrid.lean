/-
  TraceReplay.Proofs.Hybrid — hybrid words mean what their pieces say.

  A piece reads as its part of a word (`Table.Reads`) if it is aligned and has the bits that
  its range covers. The pieces of a hybrid word have its bits (`WellFormed.hasBits`), and in a
  table in order they read as its parts (`InOrder.reads`); pieces that do make a hybrid word for
  it (`ensures_hybrid`). So a shift that moves every piece to its new place is a shift of the
  word (`ensures_shiftHybrid`), wherever its result is a partition again, and a mask that folds
  is the mask of the word (`maskedWord?_eq`).
-/

import TraceReplay.Proofs.Build
import TraceReplay.Proofs.SortedMap

namespace TraceReplay

variable {R : Rules} {σ : Assignment}

namespace Table

variable {t t' : Table} {w : Word} {range : BitRange} {piece id : Nat}

def HasBits (R : Rules) (σ : Assignment) (t : Table) (w : Word) (range : BitRange) (piece : Nat) : Prop :=
  ∃ x, t.Means R σ piece x ∧ ∀ k, range.covers k = true → x.getLsbD (k - range.low) = w.getLsbD k

theorem HasBits.lt (h : t.HasBits R σ w range piece) : piece < t.size := by
  obtain ⟨x, hx, -⟩ := h
  exact hx.1

theorem HasBits.grow (h : t.HasBits R σ w range piece) (g : t.Grows t') : t'.HasBits R σ w range piece := by
  obtain ⟨x, hx, hbits⟩ := h
  exact ⟨x, hx.grow g, hbits⟩

structure Reads (R : Rules) (σ : Assignment) (t : Table) (w : Word) (range : BitRange) (piece : Nat) :
    Prop where
  aligned : t.AlignedPiece R σ range piece
  hasBits : t.HasBits R σ w range piece

theorem Reads.lt (h : t.Reads R σ w range piece) : piece < t.size := h.hasBits.lt

theorem Reads.grow (h : t.Reads R σ w range piece) (g : t.Grows t') : t'.Reads R σ w range piece :=
  ⟨h.aligned.grow h.lt g, h.hasBits.grow g⟩

/-- The word that the value means; it is of no account if there is none. -/
def meaning (R : Rules) (σ : Assignment) (t : Table) (id : Nat) : Word :=
  (t.evalWith R σ id).toOption.getD 0

theorem Means.meaning (h : t.Means R σ id w) : t.meaning R σ id = w := by
  rw [Table.meaning, h.2]
  rfl

/-- The pieces of a hybrid word have its bits, aligned or not. -/
theorem WellFormed.hasBits (h : t.WellFormed) {pieces : Pieces} (hp : t.pieces? id = some pieces)
    (hw : t.Means R σ id w) {e : BitRange × ValueId} (he : e ∈ pieces.entries) : t.HasBits R σ w e.1 e.2 := by
  have htiles := h.isPartition hp
  have hmeans (e : BitRange × ValueId) (he : e ∈ pieces.entries) : t.Means R σ e.2 (t.meaning R σ e.2) := by
    obtain ⟨x, hx⟩ := h.exists_means_piece hp hw he
    have hx : t.Means R σ e.2 x := ⟨h.piece_lt hp he, hx⟩
    rwa [hx.meaning]
  have hin {e : BitRange × ValueId} (he : e ∈ pieces.entries) : e.1.InWord :=
    (Pieces.mem_tile htiles (List.mem_map.mpr ⟨e, he, rfl⟩)).2
  refine ⟨_, hmeans e he, fun k hk => ?_⟩
  obtain ⟨v, hv, hn⟩ := pieces?_eq_some_iff.mp hp
  have hlt : ∀ e ∈ pieces.entries, e.2 < id := by
    have hc := h id v hv
    simp only [Value.Consistent, hn] at hc
    exact fun e he => hc.2.1 e.2 (List.mem_map.mpr ⟨e, he, rfl⟩)
  have hclear : ∀ e ∈ pieces.entries, ∀ k, e.1.covers k = false →
      (e.1.place (t.meaning R σ e.2)).getLsbD k = false := by
    intro e he k hk
    rw [BitRange.getLsbD_place (hin he), hk, Bool.false_and]
  rw [hw.unique (means_hybrid hv hn hlt hmeans), Pieces.assemble, Pieces.getLsbD_union htiles hclear he hk,
    BitRange.getLsbD_place (hin he), hk]
  simp

theorem InOrder.reads (h : t.InOrder R σ) {pieces : Pieces} (hp : t.pieces? id = some pieces)
    (hw : t.Means R σ id w) {e : BitRange × ValueId} (he : e ∈ pieces.entries) : t.Reads R σ w e.1 e.2 :=
  ⟨h.aligned id pieces hp e he, h.wellFormed.hasBits hp hw he⟩

/-- A piece that fills at least a byte is the field of the word that it stands for. -/
theorem Reads.means_field (h : t.Reads R σ w range piece) (hr : range.InWord) (hwidth : 8 ≤ range.width) :
    t.Means R σ piece (range.field w) := by
  obtain ⟨x, hx, hbits⟩ := h.hasBits
  have hlt : x.toNat < 2 ^ range.width := by
    have ha := h.aligned
    unfold AlignedPiece at ha
    split at ha
    · rename_i b hb
      obtain ⟨v, hv, hn⟩ := constant?_eq_some_iff.mp hb
      rw [hx.unique (means_constant hv hn), Bits.value_eq_field (by rw [ha]; exact hr), ha]
      exact BitRange.field_lt hr _
    · obtain ⟨h8, y, hy, hfit⟩ := ha
      have h8 : range.width = 8 := by omega
      rw [h8, hx.unique hy]
      exact hfit h8
  have hfield : x = range.field w := by
    rw [BitRange.toNat_lt_two_pow_iff] at hlt
    refine BitVec.eq_of_getLsbD_eq fun k _ => ?_
    rw [BitRange.getLsbD_field hr]
    by_cases hk : k < range.width
    · have hcov : range.covers (range.low + k) = true := by
        have := hr.1
        rw [BitRange.covers_iff]
        unfold BitRange.width at hk
        omega
      rw [← hbits _ hcov, Nat.add_sub_cancel_left]
      simp [hk]
    · simp [hk, hlt k (by omega)]
  exact hfield ▸ hx

/-- Pieces that have the bits of a word make up that word. -/
theorem means_of_hasBits {v : Value} {pieces : Pieces} (hv : t.get? id = some v) (hn : v.node = .hybrid pieces)
    (tiles : pieces.isPartition = true) (hlt : ∀ e ∈ pieces.entries, e.2 < id)
    (h : ∀ e ∈ pieces.entries, t.HasBits R σ w e.1 e.2) : t.Means R σ id w := by
  have hmeans (e : BitRange × ValueId) (he : e ∈ pieces.entries) : t.Means R σ e.2 (t.meaning R σ e.2) := by
    obtain ⟨x, hx, -⟩ := h e he
    rwa [hx.meaning]
  have hw : Pieces.assemble (t.meaning R σ) pieces.entries 0 = w := by
    refine Pieces.union_eq tiles fun e he k => ?_
    obtain ⟨x, hx, hbits⟩ := h e he
    rw [BitRange.getLsbD_place (Pieces.mem_tile tiles (List.mem_map.mpr ⟨e, he, rfl⟩)).2, hx.meaning]
    cases hk : e.1.covers k with
    | false => simp
    | true => rw [hbits k hk]
  rw [← hw]
  exact means_hybrid hv hn hlt hmeans

/-- Known bits are those of every word that has these bits at their place. -/
theorem hasBits_constant {b : Bits} (hb : t.constant? piece = some b) (hr : b.range.InWord)
    (hw : ∀ k, b.range.covers k = true → b.word.getLsbD k = w.getLsbD k) : t.HasBits R σ w b.range piece := by
  obtain ⟨v, hv, hnode⟩ := constant?_eq_some_iff.mp hb
  refine ⟨b.value, means_constant hv hnode, fun k hk => ?_⟩
  have hcov := BitRange.covers_iff.mp hk
  rw [Bits.value_eq_field hr, BitRange.getLsbD_field hr, ← hw k hk, Nat.add_sub_cancel' hcov.1]
  simp only [BitRange.width, show k - b.range.low < b.range.high - b.range.low + 1 by omega, decide_true,
    Bool.true_and]

/-- Known bits at their place are those of the word that they are a part of. -/
theorem HasBits.known_bits (h : t.HasBits R σ w range piece) (hr : range.InWord) {b : Bits}
    (hb : t.constant? piece = some b) (hrange : b.range = range) {k : Nat} (hk : range.covers k = true) :
    b.word.getLsbD k = w.getLsbD k := by
  subst hrange
  obtain ⟨x, hx, hbits⟩ := h
  obtain ⟨v, hv, hnode⟩ := constant?_eq_some_iff.mp hb
  have hle := BitRange.covers_iff.mp hk
  rw [← hbits k hk, hx.unique (means_constant hv hnode), Bits.value_eq_field hr, BitRange.getLsbD_field hr,
    Nat.add_sub_cancel' hle.1]
  simp only [BitRange.width, show k - b.range.low < b.range.high - b.range.low + 1 by omega, decide_true,
    Bool.true_and]

end Table

/-! ## Hybrid words -/

namespace Build

variable {t : Table} {w : Word}

theorem ensures_hybrid {pieces : Pieces} (tiles : pieces.isPartition = true)
    (h : ∀ e ∈ pieces.entries, t.Reads R σ w e.1 e.2) : (hybrid pieces tiles).Gives R σ t w := by
  have hlt : ∀ e ∈ pieces.entries, e.2 < t.size := fun e he => (h e he).lt
  refine ⟨Table.grows_push t _, fun ht => ht.push ⟨tiles, ?_, rfl, rfl⟩ ?_, ?_⟩
  · intro p hp
    obtain ⟨e, he, rfl⟩ := List.mem_map.mp hp
    exact hlt e he
  · rintro _ ⟨rfl⟩ e he
    exact (h e he).aligned
  · exact Table.means_of_hasBits (Table.get?_push_self t _) rfl tiles hlt
      fun e he => (h e he).hasBits.grow (Table.grows_push t _)

/-- Known bits read as their part of a word that has these bits. -/
theorem ensures_bits {b : Bits} (hr : b.range.InWord)
    (hw : ∀ k, b.range.covers k = true → b.word.getLsbD k = w.getLsbD k) :
    (Build.bits b).Ensures R σ t fun t' p => t'.Reads R σ w b.range p := by
  have gives : (Build.bits b).Gives R σ t b.value := gives_bits b t
  refine ⟨gives.grows, gives.inOrder, ?_, Table.hasBits_constant (Table.constant?_push_self t _) hr hw⟩
  show Table.AlignedPiece R σ (t.push _) b.range t.size
  unfold Table.AlignedPiece
  rw [Table.constant?_push_self]
  rfl

end Build

/-! ## Shifts -/

namespace Direction

def origin (n k : Nat) : Direction → Nat
  | left => k - n
  | right => k + n

variable {d : Direction} {n k : Nat} {r target : BitRange}

theorem move?_inWord (h : d.move? n r = some target) (hr : r.InWord) : target.InWord := by
  have hl := hr.1
  have hh := hr.2
  cases d <;> simp only [move?] at h <;> split at h <;> cases h <;>
    simp only [BitRange.InWord] <;> omega

/-- Bits of the moved range come from the range. -/
theorem covers_origin (h : d.move? n r = some target) (hr : r.InWord) (hk : target.covers k = true) :
    r.covers (d.origin n k) = true ∧ ∀ x : Word, (d.shift n x).getLsbD k = x.getLsbD (d.origin n k) := by
  have hl := hr.1
  have hh := hr.2
  rw [BitRange.covers_iff] at hk ⊢
  cases d <;> simp only [move?] at h <;> split at h <;> cases h <;> simp only [origin, shift] at hk ⊢
  · refine ⟨by omega, fun x => ?_⟩
    rw [BitVec.getLsbD_shiftLeft]
    simp [show k < 32 by omega, show ¬ k < n by omega]
  · refine ⟨by omega, fun x => ?_⟩
    rw [BitVec.getLsbD_ushiftRight, Nat.add_comm]

/-- A range gets no wider by a shift, and as many bits narrower as leave it. -/
theorem move?_width (h : d.move? n r = some target) (hr : r.InWord) : target.width ≤ r.width := by
  have hl := hr.1
  have hh := hr.2
  cases d <;> simp only [move?] at h <;> split at h <;> cases h <;>
    simp only [BitRange.width] <;> omega

theorem shift_vacated (hn : n < 32) (hn0 : n ≠ 0) (hk : (d.vacated n).covers k = true) (x : Word) :
    (d.shift n x).getLsbD k = false := by
  rw [BitRange.covers_iff] at hk
  cases d <;> simp only [vacated] at hk
  · rw [shift, BitVec.getLsbD_shiftLeft]
    simp [show k < n by omega]
  · rw [shift, BitVec.getLsbD_ushiftRight]
    exact BitVec.getLsbD_of_ge _ _ (by omega)

theorem vacated_inWord (hn : n < 32) (hn0 : n ≠ 0) : (d.vacated n).InWord := by
  cases d <;> simp only [vacated, BitRange.InWord] <;> omega

@[simp] theorem shift_zero (w : Word) : d.shift 0 w = w := by
  cases d <;> simp [shift]

/-- The rules of the two opcodes that shift are the shifts. -/
theorem apply_eq {opcode : Opcode} (hd : ofOpcode? opcode = some d) (w count : Word) :
    opcode.apply [w, count] = some (d.shift (Opcode.shiftCount count) w) := by
  cases opcode <;> cases hd <;> rfl

end Direction

namespace Build

variable {t : Table} {w : Word} {d : Direction} {n : Nat} {range target : BitRange} {piece : ValueId}

/-- A piece that loses its low bits to the right is shifted down by as many. -/
theorem gives_lostBits (range : BitRange) {x : Word} (hx : t.Means R σ piece x) (hn : n < 32) :
    (do
      let lost ← constant (BitVec.ofNat 32 (n - range.low))
      binary .shr piece lost : Build ValueId).Gives R σ t (x >>> (n - range.low)) := by
  refine gives_withConstant hx (R.extends_apply ?_)
  rw [Opcode.apply, shiftCount_ofNat (by omega)]

theorem hasBits_lostBits (h : t.HasBits R σ w range piece) (hr : range.InWord) (hn : n < 32)
    (hm : Direction.right.move? n range = some target) (hlow : range.low < n) :
    (do
      let lost ← constant (BitVec.ofNat 32 (n - range.low))
      binary .shr piece lost : Build ValueId).Ensures R σ t
        fun t' p => t'.HasBits R σ (Direction.right.shift n w) target p := by
  obtain ⟨x, hx, hbits⟩ := h
  have gives := gives_lostBits range hx hn
  refine ⟨gives.grows, gives.inOrder, _, gives.post, fun k hk => ?_⟩
  obtain ⟨hcov, hshift⟩ := Direction.covers_origin hm hr hk
  simp only [Direction.move?] at hm
  split at hm <;> cases hm
  have hle := BitRange.covers_iff.mp hk
  rw [hshift, ← hbits _ hcov, BitVec.getLsbD_ushiftRight]
  simp only [Direction.origin] at hle ⊢
  congr 1
  omega

/-- It has less than a byte left. -/
theorem ensures_lostBits (h : t.Reads R σ w range piece) (hr : range.InWord) (hn : n < 32)
    (hm : Direction.right.move? n range = some target) (hc : t.constant? piece = none) (hlow : range.low < n) :
    (do
      let lost ← constant (BitVec.ofNat 32 (n - range.low))
      binary .shr piece lost : Build ValueId).Ensures R σ t
        fun t' p => t'.Reads R σ (Direction.right.shift n w) target p := by
  have hbits := hasBits_lostBits h.hasBits hr hn hm hlow
  obtain ⟨x, hx, -⟩ := h.hasBits
  have halign := h.aligned
  rw [Table.AlignedPiece, hc] at halign
  refine ⟨hbits.grows, hbits.inOrder, ?_, hbits.post⟩
  simp only [Direction.move?] at hm
  split at hm <;> cases hm
  show Table.AlignedPiece R σ (Table.push _ _) _ (Table.size _)
  rw [Table.AlignedPiece, Table.constant?_push_self]
  have h8 := halign.1
  have := hr.1
  simp only [BitRange.width] at h8
  refine ⟨by simp only [BitRange.width]; omega, _, (gives_lostBits _ hx hn).post, fun h8' => ?_⟩
  simp only [BitRange.width] at h8'
  omega

/-- Any other piece is the same one at its new place. -/
theorem hasBits_moved (h : t.HasBits R σ w range piece) (hr : range.InWord) (hm : d.move? n range = some target)
    (hkept : ¬ (d = .right ∧ range.low < n)) : t.HasBits R σ (d.shift n w) target piece := by
  obtain ⟨x, hx, hbits⟩ := h
  refine ⟨x, hx, fun k hk => ?_⟩
  obtain ⟨hcov, hshift⟩ := Direction.covers_origin hm hr hk
  have hle := BitRange.covers_iff.mp hk
  rw [hshift, ← hbits _ hcov]
  cases d <;> simp only [Direction.move?] at hm <;> split at hm <;> cases hm <;>
    simp only [Direction.origin, not_and, forall_const] at hle hkept ⊢ <;> congr 1 <;> omega

theorem reads_moved (h : t.Reads R σ w range piece) (hr : range.InWord) (hm : d.move? n range = some target)
    (hc : t.constant? piece = none) (hkept : ¬ (d = .right ∧ range.low < n)) :
    t.Reads R σ (d.shift n w) target piece := by
  have halign := h.aligned
  have hwidth := Direction.move?_width hm hr
  rw [Table.AlignedPiece, hc] at halign
  obtain ⟨h8, y, hy, hfit⟩ := halign
  refine ⟨?_, hasBits_moved h.hasBits hr hm hkept⟩
  rw [Table.AlignedPiece, hc]
  exact ⟨by omega, y, hy, fun h8' => hfit (by omega)⟩

theorem ensures_movePiece (h : t.Reads R σ w range piece) (hr : range.InWord) (hn : n < 32)
    (hm : d.move? n range = some target) :
    (movePiece d n range target piece).Ensures R σ t fun t' p => t'.Reads R σ (d.shift n w) target p := by
  refine ensures_get ?_
  split <;> rename_i hc
  · rename_i b
    have hrange := h.aligned
    rw [Table.AlignedPiece, hc] at hrange
    refine ensures_bits (b := ⟨_, target⟩) (Direction.move?_inWord hm hr) fun k hk => ?_
    obtain ⟨hcov, hshift⟩ := Direction.covers_origin hm hr hk
    rw [hshift, hshift, h.hasBits.known_bits hr hc hrange hcov]
  · split
    · rename_i hlost
      obtain ⟨rfl, hlow⟩ := hlost
      exact ensures_lostBits h hr hn hm hc hlow
    · exact ensures_pure (reads_moved h hr hm hc ‹_›)

/-- Pieces that are moved one after the other read as parts of the shifted word. -/
theorem ensures_movePieces (hn : n < 32) (entries : List (BitRange × ValueId)) (moved : Pieces)
    (hentries : ∀ e ∈ entries, e.1.InWord ∧ t.Reads R σ w e.1 e.2)
    (hmoved : ∀ e ∈ moved.entries, t.Reads R σ (d.shift n w) e.1 e.2) :
    Ensures R σ (entries.foldlM (fun moved e => do
      match d.move? n e.1 with
      | none => return moved
      | some target => return moved.insert target (← movePiece d n e.1 target e.2)) moved) t
      fun t' moved => ∀ e ∈ moved.entries, t'.Reads R σ (d.shift n w) e.1 e.2 := by
  induction entries generalizing t moved with
  | nil => exact ensures_pure hmoved
  | cons a entries ih =>
    rw [List.foldlM_cons]
    obtain ⟨hr, hreads⟩ := hentries a (by simp)
    have htail (t' : Table) (g : t.Grows t') : ∀ e ∈ entries, e.1.InWord ∧ t'.Reads R σ w e.1 e.2 :=
      fun e he => ⟨(hentries e (by simp [he])).1, (hentries e (by simp [he])).2.grow g⟩
    split
    · exact ensures_pure (P := fun t' m => t' = t ∧ m = moved) ⟨rfl, rfl⟩ |>.bind
        fun _ _ g hm => ih _ (htail _ g) fun e he => (hmoved e (hm.2 ▸ he)).grow g
    · rename_i target hm
      refine Ensures.bind (P := fun t' m => ∀ e ∈ m.entries, t'.Reads R σ (d.shift n w) e.1 e.2) ?_
        fun _ _ g hm' => ih _ (htail _ g) hm'
      refine (ensures_movePiece hreads hr hn hm).bind fun p t' g hp => ensures_pure ?_
      intro e he
      rcases SortedMap.mem_insert.mp he with rfl | ⟨he, -⟩
      · exact hp
      · exact (hmoved e he).grow g

def hybrid? (pieces : Pieces) : Build (Except Fault ValueId) :=
  match checkedHybrid pieces with
  | .ok b => .ok <$> b
  | .error fault => return .error fault

theorem checkedHybrid_of_isPartition {pieces : Pieces} (tiles : pieces.isPartition = true) :
    checkedHybrid pieces = .ok (hybrid pieces tiles) := dif_pos tiles

theorem checkedHybrid_of_not_isPartition {pieces : Pieces} (broken : ¬ pieces.isPartition = true) :
    checkedHybrid pieces = .error .brokenPartition := dif_neg broken

theorem hybrid?_of_isPartition {pieces : Pieces} (tiles : pieces.isPartition = true) :
    hybrid? pieces = .ok <$> hybrid pieces tiles := by
  rw [hybrid?, checkedHybrid_of_isPartition tiles]

theorem hybrid?_of_not_isPartition {pieces : Pieces} (broken : ¬ pieces.isPartition = true) :
    hybrid? pieces = pure (.error .brokenPartition) := by
  rw [hybrid?, checkedHybrid_of_not_isPartition broken]

theorem ensures_hybrid? {pieces : Pieces} (h : ∀ e ∈ pieces.entries, t.Reads R σ w e.1 e.2) :
    (hybrid? pieces).Ensures R σ t fun t' r => ∀ v, r = .ok v → t'.Means R σ v w := by
  by_cases tiles : pieces.isPartition = true
  · have gives := ensures_hybrid tiles h
    rw [hybrid?_of_isPartition tiles]
    refine ⟨gives.grows, gives.inOrder, ?_⟩
    intro v hv
    cases hv
    exact gives.post
  · rw [hybrid?_of_not_isPartition tiles]
    exact ensures_pure nofun

theorem run_checkedHybrid (pieces : Pieces) :
    (do liftM (← checkedHybrid pieces) : ExceptT Fault Build ValueId).run = hybrid? pieces := by
  unfold hybrid?
  cases checkedHybrid pieces <;> rfl

theorem run_get (f : Table → ExceptT Fault Build ValueId) (t : Table) :
    (getThe Table >>= f : ExceptT Fault Build ValueId).run t = (f t).run t := rfl

/-- A shift as one computation on the table. -/
theorem shiftHybrid_run {id : ValueId} {pieces : Pieces} (hp : t.pieces? id = some pieces) {opcode : Opcode}
    (hd : Direction.ofOpcode? opcode = some d) (count : Word) :
    (shiftHybrid id opcode count).run t =
      if Opcode.shiftCount count = 0 then hybrid? pieces t
      else (do
        let moved ← movePieces d (Opcode.shiftCount count) pieces.entries
        let filling ← bits ⟨0, d.vacated (Opcode.shiftCount count)⟩
        hybrid? (moved.insert (d.vacated (Opcode.shiftCount count)) filling) : Build _) t := by
  unfold shiftHybrid
  simp only [run_get, hp, hd, ← run_checkedHybrid]
  split <;> rfl

theorem ensures_filling (w : Word) (hn : n < 32) (h0 : n ≠ 0) :
    (bits ⟨0, d.vacated n⟩).Ensures R σ t fun t' p => t'.Reads R σ (d.shift n w) (d.vacated n) p := by
  refine ensures_bits (b := ⟨0, d.vacated n⟩) (Direction.vacated_inWord hn h0) fun k hk => ?_
  rw [Direction.shift_vacated hn h0 hk]
  exact BitVec.getLsbD_zero

/-- Where a shift of a hybrid word by a constant succeeds, it is a shift of the word. -/
theorem ensures_shiftHybrid {id : ValueId} {opcode : Opcode} (count : Word) (ht : t.InOrder R σ)
    (hw : t.Means R σ id w) (hhybrid : t.isHybrid id = true) (hd : Direction.ofOpcode? opcode = some d) :
    (shiftHybrid id opcode count).run.Ensures R σ t
      fun t' r => ∀ v, r = .ok v → t'.Means R σ v (d.shift (Opcode.shiftCount count) w) := by
  obtain ⟨pieces, hp⟩ := Option.isSome_iff_exists.mp hhybrid
  have hn : Opcode.shiftCount count < 32 := Nat.mod_lt _ (by decide)
  have htiles := ht.wellFormed.isPartition hp
  have hreads (e : BitRange × ValueId) (he : e ∈ pieces.entries) : e.1.InWord ∧ t.Reads R σ w e.1 e.2 :=
    ⟨(Pieces.mem_tile htiles (List.mem_map.mpr ⟨e, he, rfl⟩)).2, ht.reads hp hw he⟩
  have hrun := shiftHybrid_run hp hd count
  split at hrun
  · rename_i h0
    rw [h0, Direction.shift_zero]
    exact (ensures_hybrid? fun e he => (hreads e he).2).congr hrun
  · rename_i h0
    refine Ensures.congr ?_ hrun
    refine (ensures_movePieces hn pieces.entries .empty hreads fun _ he => absurd he List.not_mem_nil).bind
      fun moved t₁ _ hmoved => ?_
    refine (ensures_filling w hn h0).bind fun filling t₂ g₂ hfilling => ensures_hybrid? fun e he => ?_
    rcases SortedMap.mem_insert.mp he with rfl | ⟨he, -⟩
    · exact hfilling
    · exact (hmoved e he).grow g₂

/-! ## Masks -/

/-- What a masked piece contributes is its part of the masked word. -/
theorem getLsbD_maskedPiece? (ht : t.WellFormed) {opcode : Opcode} {mask c masked : Word}
    (h : t.HasBits R σ w range piece) (hr : range.InWord) (hc : maskedPiece? t opcode mask range piece = some c)
    (hm : opcode.apply [w, mask] = some masked) (k : Nat) :
    c.getLsbD k = (range.covers k && masked.getLsbD k) := by
  have hmask := BitRange.getLsbD_mask hr k
  obtain ⟨x, hx, hbits⟩ := h
  unfold maskedPiece? at hc
  split at hc
  · -- the mask decides all bits of an unknown piece
    split at hc
    · split at hc <;> cases hc
      rename_i hzero
      cases hm
      have := congrArg (·.getLsbD k) hzero
      simp only [BitVec.getLsbD_and, hmask] at this ⊢
      cases hk : range.covers k <;> simp_all
    · split at hc <;> cases hc
      rename_i hones
      cases hm
      have := congrArg (·.getLsbD k) hones
      simp only [BitVec.getLsbD_and, BitVec.getLsbD_or, hmask] at this ⊢
      cases hk : range.covers k <;> simp_all
    · cases hc
  · -- a known piece is put at its place and masked there
    split at hc
    · rename_i v hv
      cases hc
      cases hm
      rw [hx.unique (ht.means_of_known hv)] at hbits
      rw [BitVec.getLsbD_and, BitVec.getLsbD_and, BitRange.getLsbD_place hr]
      cases hk : range.covers k with
      | false => simp
      | true => simp [hbits k hk]
    · rename_i v hv
      cases hc
      cases hm
      rw [hx.unique (ht.means_of_known hv)] at hbits
      rw [BitVec.getLsbD_and, BitVec.getLsbD_or, BitVec.getLsbD_or, BitRange.getLsbD_place hr, hmask]
      cases hk : range.covers k with
      | false => simp
      | true => simp [hbits k hk]
    · cases hc

theorem foldlM_eq_union {f : BitRange × ValueId → Option Word} {l : List (BitRange × ValueId)} {acc word : Word}
    (h : l.foldlM (fun word e => (f e).map (word ||| ·)) acc = some word) :
    word = Pieces.union (fun e => (f e).getD 0) l acc ∧ ∀ e ∈ l, f e = some ((f e).getD 0) := by
  induction l generalizing acc with
  | nil => cases h; exact ⟨rfl, nofun⟩
  | cons a l ih =>
    rw [List.foldlM_cons] at h
    cases ha : f a with
    | none => rw [ha] at h; cases h
    | some c =>
      rw [ha] at h
      obtain ⟨hword, hl⟩ := ih h
      refine ⟨by rw [hword, Pieces.union, Pieces.union, List.foldl_cons, ha]; rfl, fun e he => ?_⟩
      rcases List.mem_cons.mp he with rfl | he
      · rw [ha]; rfl
      · exact hl e he

/-- A mask that folds a hybrid word to a constant gives the masked word. -/
theorem maskedWord?_eq (ht : t.WellFormed) {id : ValueId} {pieces : Pieces} {opcode : Opcode}
    {mask word masked : Word} (hp : t.pieces? id = some pieces) (hw : t.Means R σ id w)
    (h : maskedWord? t opcode mask pieces = some word) (hm : opcode.apply [w, mask] = some masked) :
    word = masked := by
  have htiles := ht.isPartition hp
  obtain ⟨hword, hpieces⟩ := foldlM_eq_union (f := fun e => maskedPiece? t opcode mask e.1 e.2) h
  rw [hword]
  refine Pieces.union_eq htiles fun e he k => ?_
  have hr := (Pieces.mem_tile htiles (List.mem_map.mpr ⟨e, he, rfl⟩)).2
  exact getLsbD_maskedPiece? ht (ht.hasBits hp hw he) hr (hpieces e he) hm k

/-! ## What is appended -/

theorem adds_movePiece (d : Direction) (n : Nat) (range target : BitRange) (piece : ValueId) :
    (movePiece d n range target piece).Adds Node.Computed := by
  refine adds_get fun t => ?_
  split
  · exact (makes_bits _).adds
  · split
    · exact (makes_withConstant _ _ _).adds
    · exact adds_pure _

theorem adds_movePieces (d : Direction) (n : Nat) (entries : List (BitRange × ValueId)) :
    (movePieces d n entries).Adds Node.Computed := by
  unfold movePieces
  generalize (SortedMap.empty : Pieces) = moved
  induction entries generalizing moved with
  | nil => exact adds_pure _
  | cons e entries ih =>
    rw [List.foldlM_cons]
    refine .bind ?_ ih
    split
    · exact adds_pure _
    · exact (adds_movePiece _ _ _ _ _).bind fun _ => adds_pure _

theorem makes_hybrid (pieces : Pieces) (tiles : pieces.isPartition = true) :
    (hybrid pieces tiles).Makes Node.Derived :=
  ⟨fun t => t.adds_push nofun, fun t => Nat.le_refl t.size⟩

theorem adds_checkedHybrid (pieces : Pieces) :
    (do liftM (← checkedHybrid pieces) : ExceptT Fault Build ValueId).run.Adds Node.Derived := by
  rw [run_checkedHybrid]
  unfold hybrid? checkedHybrid
  split
  · rename_i h
    split at h <;> cases h
    rename_i tiles
    exact fun t => (makes_hybrid pieces tiles).adds t
  · exact adds_pure _

theorem adds_shiftHybrid (id : ValueId) (opcode : Opcode) (count : Word) :
    (shiftHybrid id opcode count).run.Adds Node.Derived := by
  refine .exceptBind (fun t => .refl t) fun t => ?_
  split
  · simp only
    split
    · exact adds_checkedHybrid _
    · split
      · refine .exceptBind ((adds_movePieces _ _ _).derived.bind fun _ => adds_pure _) fun moved => ?_
        exact .exceptBind ((makes_bits _).adds.derived.bind fun _ => adds_pure _) fun _ => adds_checkedHybrid _
      · exact adds_pure _
  · exact adds_pure _

end Build

end TraceReplay
