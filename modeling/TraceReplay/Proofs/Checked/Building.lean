/-
  TraceReplay.Proofs.Checked.Building — values are built without a failing operation.

  A checked builder (`Checked.Builder`) appends values as a builder does, but with checked
  arithmetic, looks values up in the table only if they are there, and finds no room for a value
  whose id would not have 32 bits. For every way to build a value there is one, and on a proper
  table (`Table.Proper`), well-formed and with constants that lie in a word, it does what the
  builder does if the result fits (`Checked.Runs`).
-/

import TraceReplay.Proofs.Checked.Arithmetic
import TraceReplay.Proofs.Replay.Soundness

namespace TraceReplay

namespace Checked

/-- A computation on a table that stops at the first operation that fails. -/
abbrev Builder := StateT Table Option

/-! ## Builders -/

def fetch (id : ValueId) : Builder Value := fun t => (t.get? id).map (·, t)

/-- Ids have 32 bits. -/
def append (v : Value) : Builder ValueId := fun t => if t.size < 2 ^ 32 then some (Build.append v t) else none

def symbol (width : Nat) : Builder ValueId := append { width, node := .symbol, symbolic := true, known := none }

def constantOf (width : Nat) (b : Bits) : Builder ValueId := do
  let word ← value b
  append { width, node := .constant b, symbolic := false, known := some word }

def constant (w : Word) : Builder ValueId := do constantOf 32 ⟨w, ← lowBits 32⟩

def bits (b : Bits) : Builder ValueId := do constantOf (← width b.range) b

def operation (opcode : Opcode) (ids : List ValueId) (width : Nat) : Builder ValueId := do
  let operands ← ids.mapM fetch
  let symbolic := operands.any (·.symbolic)
  let known := if symbolic then none else (operands.mapM Value.known).bind opcode.apply
  append { width, node := .operation opcode ids, symbolic, known }

def operationLike (opcode : Opcode) (first : ValueId) (rest : List ValueId) : Builder ValueId := do
  operation opcode (first :: rest) (← fetch first).width

def unary (opcode : Opcode) (a : ValueId) : Builder ValueId := operationLike opcode a []

def binary (opcode : Opcode) (a b : ValueId) : Builder ValueId := operationLike opcode a [b]

def withConstant (opcode : Opcode) (a : ValueId) (w : Word) : Builder ValueId := do
  binary opcode a (← constant w)

def maskDown (stored : ValueId) (mask count : Word) (width : Nat) : Builder ValueId := do
  let masked ← withConstant .and stored mask
  operation .shr [masked, ← constant count] width

def mergeUp (stored value : ValueId) (mask count : Word) : Builder ValueId := do
  let kept ← withConstant .and stored mask
  let moved ← withConstant .shl value count
  binary .or kept moved

def gather (part : BitRange → Value → Option (Option Word)) :
    List (BitRange × ValueId) → Word → Builder (Option Word)
  | [], word => return some word
  | (range, piece) :: rest, word => do
    match ← part range (← fetch piece) with
    | none => return none
    | some bits => gather part rest (word ||| bits)

def knownPart (range : BitRange) (v : Value) : Option (Option Word) :=
  match v.known with
  | none => some none
  | some w => (place range w).map some

def hybrid (pieces : Pieces) : Builder ValueId := do
  let values ← pieces.values.mapM fetch
  let known ← gather knownPart pieces.entries 0
  append { width := 32, node := .hybrid pieces, symbolic := values.any (·.symbolic), known }

def hybrid? (pieces : Pieces) : Builder (Except Fault ValueId) := do
  if pieces.isPartition then return .ok (← hybrid pieces) else return .error .brokenPartition

def movePiece (d : Direction) (n : Nat) (range target : BitRange) (piece : ValueId) : Builder ValueId := do
  match (← fetch piece).constant? with
  | some b => bits ⟨← shift n b.word d, target⟩
  | none =>
    if d = .right ∧ range.low < n then withConstant .shr piece (BitVec.ofNat 32 (← sub n range.low))
    else return piece

def movePieces (d : Direction) (n : Nat) : List (BitRange × ValueId) → Pieces → Builder Pieces
  | [], moved => return moved
  | (range, piece) :: rest, moved => do
    match ← move n range d with
    | none => movePieces d n rest moved
    | some target => movePieces d n rest (moved.insert target (← movePiece d n range target piece))

def shiftHybrid (id : ValueId) (opcode : Opcode) (count : Word) : Builder (Except Fault ValueId) := do
  match (← fetch id).pieces? with
  | none => return .error .brokenPartition
  | some pieces =>
    if Opcode.shiftCount count = 0 then hybrid? pieces
    else
      match Direction.ofOpcode? opcode with
      | none => return .error (.unknownOperation opcode.name)
      | some d =>
        let moved ← movePieces d (Opcode.shiftCount count) pieces.entries .empty
        let filled ← vacated (Opcode.shiftCount count) d
        hybrid? (moved.insert filled (← bits ⟨0, filled⟩))

def maskedPart (opcode : Opcode) (word : Word) (range : BitRange) (v : Value) : Option (Option Word) := do
  let ones ← mask range
  if v.symbolic then
    match opcode with
    | .and => return if word &&& ones = 0 then some 0 else none
    | .or => return if word &&& ones = ones then some ones else none
    | _ => return none
  else
    match opcode, v.known with
    | .and, some w => return some ((← place range w) &&& word)
    | .or, some w => return some (((← place range w) ||| word) &&& ones)
    | _, _ => return none

def foldMask (id : ValueId) (opcode : Opcode) (word : Word) : Builder (Option ValueId) := do
  match (← fetch id).pieces? with
  | none => return none
  | some pieces =>
    match ← gather (maskedPart opcode word) pieces.entries 0 with
    | none => return none
    | some folded => return some (← constant folded)

def maskValue (opcode : Opcode) (value : ValueId) (word : Word) : Builder ValueId := do
  match ← foldMask value opcode word with
  | some folded => return folded
  | none => withConstant opcode value word

/-! ### Views of a word -/

def extractLow (span : BitRange) (owner : ValueId) : Builder ValueId := do
  match (← fetch owner).pieces?.bind (·.get? span) with
  | some piece => return piece
  | none => operation .and [owner, ← constant (← mask span)] (← width span)

def extractHigh (span : BitRange) (owner : ValueId) : Builder ValueId := do
  match (← fetch owner).pieces?.bind (·.get? span) with
  | some piece => return piece
  | none => maskDown owner (← mask span) (BitVec.ofNat 32 span.low) (← width span)

def extract (owner : ValueId) (view : RegisterView) : Builder ValueId := do
  let span ← range view.span.low view.span.high
  match view with
  | .full _ => return owner
  | .high8 _ => extractHigh span owner
  | _ => extractLow span owner

def splitAround (word : Word) (value : ValueId) : Builder ValueId := do
  let below ← bits ⟨word, ← range 0 7⟩
  let above ← bits ⟨word, ← range 16 31⟩
  hybrid (.ofList [(⟨0, 7⟩, below), (⟨8, 15⟩, value), (⟨16, 31⟩, above)])

def mergeLow (span : BitRange) (owner value : ValueId) : Builder ValueId := do
  let kept ← withConstant .and owner (~~~(← mask span))
  binary .or kept value

def mergeHigh (span : BitRange) (owner value : ValueId) : Builder ValueId := do
  let old ← fetch owner
  let new ← fetch value
  let ones ← mask span
  match if old.kind = .concrete then old.known else none with
  | some word =>
    if new.kind = .symbol then splitAround word value
    else mergeUp owner value (~~~ones) (BitVec.ofNat 32 span.low)
  | none => mergeUp owner value (~~~ones) (BitVec.ofNat 32 span.low)

def merge (owner value : ValueId) (view : RegisterView) : Builder ValueId := do
  let span ← range view.span.low view.span.high
  match view with
  | .full _ => return value
  | .high8 _ => mergeHigh span owner value
  | _ => mergeLow span owner value

end Checked

/-! ## Proper tables -/

structure Table.Proper (t : Table) : Prop where
  wellFormed : t.WellFormed
  inWord : ∀ id b, t.constant? id = some b → b.range.InWord

namespace Checked

variable {α β : Type} {t : Table}

/-- Run on the table, the builder leaves a proper table and gives what it is meant to; so does the
    checked builder, if there is room for what is built. -/
structure Runs (c : Builder α) (b : Build α) (t : Table) (post : Table → α → Prop) : Prop where
  grows : t.Grows (b t).2
  proper : (b t).2.Proper
  post : post (b t).2 (b t).1
  run : (b t).2.size ≤ 2 ^ 32 → c t = some (b t)

theorem Runs.bind {c : Builder α} {b : Build α} {k : α → Builder β} {f : α → Build β} {P : Table → α → Prop}
    {Q : Table → β → Prop} (h : Runs c b t P)
    (hk : ∀ a t', t'.Proper → t.Grows t' → P t' a → Runs (k a) (f a) t' Q) : Runs (c >>= k) (b >>= f) t Q := by
  have h' := hk (b t).1 (b t).2 h.proper h.grows h.post
  refine ⟨h.grows.trans h'.grows, h'.proper, h'.post, fun hroom => ?_⟩
  have hc : c t = some (b t) := h.run (Nat.le_trans h'.grows.size_le hroom)
  have hbind : (c >>= k) t = (c t).bind fun p => k p.1 p.2 := rfl
  rw [hbind, hc]
  exact h'.run hroom

theorem runs_pure {a : α} {P : Table → α → Prop} (ht : t.Proper) (h : P t a) : Runs (pure a) (pure a) t P :=
  ⟨.refl t, ht, h, fun _ => rfl⟩

/-- Other computations that do the same on the table. -/
theorem Runs.congr {c c' : Builder α} {b b' : Build α} {P : Table → α → Prop} (h : Runs c b t P) (hc : c' t = c t)
    (hb : b' t = b t) : Runs c' b' t P := by
  constructor <;> rw [hb]
  · exact h.grows
  · exact h.proper
  · exact h.post
  · rw [hc]
    exact h.run

/-- A computation that does not fail gives what it is known to give. -/
theorem runs_lift {o : Option α} {a : α} {k : α → Builder β} {b : Build β} {Q : Table → β → Prop} (ho : o = some a)
    (h : Runs (k a) b t Q) : Runs (liftM o >>= k) b t Q := by
  subst ho
  exact h.congr rfl rfl

theorem runs_fetch {id : Nat} {k : Value → Builder β} {b : Build β} {Q : Table → β → Prop} (hid : id < t.size)
    (h : ∀ v, t.get? id = some v → Runs (k v) b t Q) : Runs (fetch id >>= k) b t Q := by
  obtain ⟨v, hv⟩ := Table.get?_of_lt hid
  refine (h v hv).congr ?_ rfl
  have hbind : (fetch id >>= k) t = (fetch id t).bind fun p => k p.1 p.2 := rfl
  rw [hbind, fetch, hv]
  rfl

theorem runs_get {f : Table → Build β} {c : Builder β} {Q : Table → β → Prop} (h : Runs c (f t) t Q) :
    Runs c (getThe Table >>= f) t Q :=
  h.congr rfl rfl

/-! ## What the builders do -/

open Build (Inside)

theorem runs_append (ht : t.Proper) {v : Value} (hv : v.Consistent t t.size)
    (hin : ∀ b, v.constant? = some b → b.range.InWord) : Runs (append v) (Build.append v) t Inside := by
  have h := Build.maintains_append ht.wellFormed hv
  refine ⟨h.grows, ⟨h.wellFormed, fun id b hb => ?_⟩, h.post.lt, fun hroom => if_pos ?_⟩
  · obtain ⟨w, hw, hn⟩ := Table.constant?_eq_some_iff.mp hb
    rcases Table.get?_push_cases hw with hw | ⟨rfl, rfl⟩
    · exact ht.inWord id b (Table.constant?_eq_some_iff.mpr ⟨w, hw, hn⟩)
    · exact hin b (by rw [Value.constant?, hn])
  · have hsize : (Build.append v t).2.size = t.size + 1 := Table.size_push t v
    omega

theorem runs_symbol (ht : t.Proper) (width : Nat) : Runs (symbol width) (Build.symbol width) t Inside :=
  runs_append ht ⟨rfl, rfl⟩ nofun

theorem runs_constantOf (ht : t.Proper) (width : Nat) {b : Bits} (hb : b.range.InWord) :
    Runs (constantOf width b) (Build.constantOf width b) t Inside := by
  refine runs_lift (value_eq hb) (runs_append ht ⟨rfl, rfl⟩ fun b' hb' => ?_)
  cases hb'
  exact hb

theorem runs_constant (ht : t.Proper) (w : Word) : Runs (constant w) (Build.constant w) t Inside :=
  runs_lift (lowBits_eq 32) (runs_constantOf ht 32 (BitRange.lowBits_inWord 32))

theorem runs_bits (ht : t.Proper) {b : Bits} (hb : b.range.InWord) : Runs (bits b) (Build.bits b) t Inside :=
  runs_lift (width_eq hb) (runs_constantOf ht _ hb)

theorem mapM_fetch {ids : List ValueId} (h : ∀ id ∈ ids, id < t.size) :
    ∃ vs, ids.mapM fetch t = some (vs, t) ∧ ids.map t.get? = vs.map some := by
  induction ids with
  | nil => exact ⟨[], rfl, rfl⟩
  | cons id ids ih =>
    obtain ⟨v, hv⟩ := Table.get?_of_lt (h id (by simp))
    obtain ⟨vs, hvs, hmap⟩ := ih fun o ho => h o (by simp [ho])
    refine ⟨v :: vs, ?_, by simp [hv, hmap]⟩
    have hfetch : fetch id t = some (v, t) := by rw [fetch, hv]; rfl
    have hcons : (id :: ids).mapM fetch t =
        (fetch id t).bind fun p => (ids.mapM fetch p.2).bind fun q => some (p.1 :: q.1, q.2) := by
      rw [List.mapM_cons]
      rfl
    rw [hcons, hfetch, Option.bind_some, hvs]
    rfl

/-- The facts of several values, from the values. -/
theorem facts_of_fetched {ids : List ValueId} {vs : List Value} (h : ids.map t.get? = vs.map some) :
    vs.any (·.symbolic) = ids.any t.isSymbolic ∧ vs.mapM Value.known = ids.mapM t.known := by
  induction ids generalizing vs with
  | nil =>
    cases List.map_eq_nil_iff.mp h.symm
    exact ⟨rfl, rfl⟩
  | cons id ids ih =>
    obtain _ | ⟨v, vs⟩ := vs
    · cases h
    · obtain ⟨hv, hvs⟩ := List.cons.inj h
      obtain ⟨hany, hknown⟩ := ih hvs
      rw [List.any_cons, List.any_cons, List.mapM_cons, List.mapM_cons, hany, hknown,
        Table.isSymbolic_of_get? hv, Table.known_of_get? hv]
      exact ⟨rfl, rfl⟩

theorem runs_fetchAll {ids : List ValueId} {k : List Value → Builder β} {b : Build β} {Q : Table → β → Prop}
    (hids : ∀ id ∈ ids, id < t.size) (h : ∀ vs, ids.map t.get? = vs.map some → Runs (k vs) b t Q) :
    Runs (ids.mapM fetch >>= k) b t Q := by
  obtain ⟨vs, hvs, hmap⟩ := mapM_fetch hids
  refine (h vs hmap).congr ?_ rfl
  have hbind : (ids.mapM fetch >>= k) t = (ids.mapM fetch t).bind fun p => k p.1 p.2 := rfl
  rw [hbind, hvs]
  rfl

theorem runs_operation (ht : t.Proper) (opcode : Opcode) {ids : List ValueId} (hids : ∀ o ∈ ids, o < t.size)
    (width : Nat) : Runs (operation opcode ids width) (Build.operation opcode ids width) t Inside := by
  refine runs_fetchAll hids fun vs hvs => ?_
  obtain ⟨hany, hknown⟩ := facts_of_fetched hvs
  simp only [hany, hknown]
  exact (runs_append ht (v := ⟨width, .operation opcode ids, _, _⟩) ⟨hids, rfl, rfl⟩ nofun).congr rfl rfl

theorem runs_operationLike (ht : t.Proper) (opcode : Opcode) {a : ValueId} {ids : List ValueId}
    (hids : ∀ o ∈ a :: ids, o < t.size) :
    Runs (operationLike opcode a ids) (Build.operationLike opcode a ids) t Inside := by
  refine runs_fetch (hids a (by simp)) fun v hv => ?_
  refine (runs_operation ht opcode hids v.width).congr rfl ?_
  rw [Build.operationLike, Table.width, hv]
  rfl

theorem runs_unary (ht : t.Proper) (opcode : Opcode) {a : Nat} (ha : a < t.size) :
    Runs (unary opcode a) (Build.unary opcode a) t Inside :=
  runs_operationLike ht opcode (by simpa using ha)

theorem runs_binary (ht : t.Proper) (opcode : Opcode) {a b : Nat} (ha : a < t.size) (hb : b < t.size) :
    Runs (binary opcode a b) (Build.binary opcode a b) t Inside :=
  runs_operationLike ht opcode (by simpa using ⟨ha, hb⟩)

theorem runs_withConstant (ht : t.Proper) (opcode : Opcode) {a : Nat} (ha : a < t.size) (w : Word) :
    Runs (withConstant opcode a w) (Replay.withConstant opcode a w) t Inside :=
  (runs_constant ht w).bind fun _ _ ht₁ g₁ hw => runs_binary ht₁ opcode (g₁.lt ha) hw

theorem runs_maskDown (ht : t.Proper) {stored : Nat} (hs : stored < t.size) (lane : BitRange) (width : Nat) :
    Runs (maskDown stored lane.mask (BitVec.ofNat 32 lane.low) width) (Memory.readLane stored lane width) t
      Inside := by
  have hread : Memory.readLane stored lane width = (do
      let masked ← Replay.withConstant .and stored lane.mask
      let count ← Build.constant (BitVec.ofNat 32 lane.low)
      Build.binarySized .shr masked count width) := rfl
  rw [maskDown, hread]
  refine (runs_withConstant ht .and hs _).bind fun masked t₁ ht₁ _ hmasked => ?_
  refine (runs_constant ht₁ _).bind fun count t₂ ht₂ g₂ hcount => ?_
  exact runs_operation ht₂ _ (by simpa using ⟨g₂.lt hmasked, hcount⟩) _

theorem runs_mergeUp (ht : t.Proper) {stored value : Nat} (hs : stored < t.size) (hv : value < t.size)
    (lane : BitRange) :
    Runs (mergeUp stored value (~~~lane.mask) (BitVec.ofNat 32 lane.low)) (Memory.writeLane stored value lane) t
      Inside := by
  have hwrite : Memory.writeLane stored value lane = (do
      let kept ← Replay.withConstant .and stored (~~~lane.mask)
      let moved ← Replay.withConstant .shl value (BitVec.ofNat 32 lane.low)
      Build.binary .or kept moved) := rfl
  rw [mergeUp, hwrite]
  refine (runs_withConstant ht .and hs _).bind fun kept t₁ ht₁ g₁ hkept => ?_
  refine (runs_withConstant ht₁ .shl (g₁.lt hv) _).bind fun moved t₂ ht₂ g₂ hmoved => ?_
  exact runs_binary ht₂ _ (g₂.lt hkept) hmoved

/-! ### Hybrid words -/

theorem gather_eq {part : BitRange → Value → Option (Option Word)} {contribution : BitRange → ValueId → Option Word}
    {entries : List (BitRange × ValueId)} (hlt : ∀ e ∈ entries, e.2 < t.size)
    (hpart : ∀ e ∈ entries, ∀ v, t.get? e.2 = some v → part e.1 v = some (contribution e.1 e.2)) (word : Word) :
    gather part entries word t =
      some (entries.foldlM (fun word e => (contribution e.1 e.2).map (word ||| ·)) word, t) := by
  induction entries generalizing word with
  | nil => rfl
  | cons e entries ih =>
    obtain ⟨v, hv⟩ := Table.get?_of_lt (hlt e (by simp))
    have hfetch : fetch e.2 t = some (v, t) := by rw [fetch, hv]; rfl
    have hstep : gather part (e :: entries) word t =
        (fetch e.2 t).bind fun p => (part e.1 p.1).bind fun r =>
          (match r with
            | none => pure none
            | some bits => gather part entries (word ||| bits) : Builder (Option Word)) p.2 := by
      rw [gather]
      show ((fetch e.2 t).bind fun p => ((liftM (part e.1 p.1) : Builder (Option Word)) p.2).bind fun q => _) = _
      congr 1
      funext p
      cases part e.1 p.1 <;> rfl
    rw [hstep, hfetch, Option.bind_some, hpart e (by simp) v hv, Option.bind_some, List.foldlM_cons]
    cases contribution e.1 e.2 with
    | none => rfl
    | some bits => exact ih (fun e he => hlt e (by simp [he])) (fun e he => hpart e (by simp [he])) _

theorem runs_gather {part : BitRange → Value → Option (Option Word)}
    (contribution : BitRange → ValueId → Option Word) {entries : List (BitRange × ValueId)}
    (hlt : ∀ e ∈ entries, e.2 < t.size)
    (hpart : ∀ e ∈ entries, ∀ v, t.get? e.2 = some v → part e.1 v = some (contribution e.1 e.2))
    {k : Option Word → Builder β} {b : Build β} {Q : Table → β → Prop}
    (h : Runs (k (entries.foldlM (fun word e => (contribution e.1 e.2).map (word ||| ·)) 0)) b t Q) :
    Runs (gather part entries 0 >>= k) b t Q := by
  refine h.congr ?_ rfl
  have hbind : (gather part entries 0 >>= k) t = (gather part entries 0 t).bind fun p => k p.1 p.2 := rfl
  rw [hbind, gather_eq hlt hpart]
  rfl

theorem inWord_of_isPartition {pieces : Pieces} (tiles : pieces.isPartition = true) {e : BitRange × ValueId}
    (he : e ∈ pieces.entries) : e.1.InWord :=
  (((Pieces.isPartition_iff pieces).mp tiles).inWord e.1 (List.mem_map.mpr ⟨e, he, rfl⟩)).2

theorem runs_hybrid (ht : t.Proper) {pieces : Pieces} (tiles : pieces.isPartition = true)
    (hlt : ∀ e ∈ pieces.entries, e.2 < t.size) : Runs (hybrid pieces) (Build.hybrid pieces tiles) t Inside := by
  have hvalues : ∀ id ∈ pieces.values, id < t.size := by
    intro id hid
    obtain ⟨e, he, rfl⟩ := List.mem_map.mp hid
    exact hlt e he
  refine runs_fetchAll hvalues fun vs hvs => ?_
  refine runs_gather (fun range id => (t.known id).map range.place) hlt (fun e he v hv => ?_) ?_
  · rw [knownPart, Table.known_of_get? hv]
    cases v.known with
    | none => rfl
    | some w => simp only [place_eq (inWord_of_isPartition tiles he), Option.map_some]
  · simp only [(facts_of_fetched hvs).1, Option.map_map]
    exact (runs_append ht (v := ⟨32, .hybrid pieces, pieces.isSymbolic t, pieces.known t⟩)
      ⟨tiles, hvalues, rfl, rfl⟩ (by simp [Value.constant?])).congr rfl rfl

theorem runs_hybrid? (ht : t.Proper) {pieces : Pieces} (hlt : ∀ e ∈ pieces.entries, e.2 < t.size) :
    Runs (hybrid? pieces) (Build.hybrid? pieces) t fun t' r => ∀ id, r = .ok id → Inside t' id := by
  by_cases tiles : pieces.isPartition = true
  · have hrun : Build.hybrid? pieces = (do return .ok (← Build.hybrid pieces tiles)) :=
      Build.hybrid?_of_isPartition tiles
    rw [hrun, hybrid?, if_pos tiles]
    refine (runs_hybrid ht tiles hlt).bind fun id t' ht' _ hid => runs_pure ht' ?_
    rintro id' ⟨rfl⟩
    exact hid
  · rw [Build.hybrid?_of_not_isPartition tiles, hybrid?, if_neg tiles]
    exact runs_pure ht (by simp)

variable {d : Direction} {n : Nat}

theorem runs_movePiece (ht : t.Proper) (hn : n < 32) {range target : BitRange} (htarget : target.InWord) {piece : Nat}
    (hp : piece < t.size) :
    Runs (movePiece d n range target piece) (Build.movePiece d n range target piece) t Inside := by
  refine runs_fetch hp fun v hv => runs_get ?_
  rw [Table.constant?_of_get? hv]
  cases v.constant? with
  | some b => exact runs_lift (shift_eq hn b.word d) (runs_bits ht htarget)
  | none =>
    simp only
    split
    · rename_i hlost
      exact runs_lift (sub_eq (Nat.le_of_lt hlost.2)) (runs_withConstant ht .shr hp _)
    · exact runs_pure ht hp

theorem runs_movePieces (ht : t.Proper) (hn : n < 32) (entries : List (BitRange × ValueId)) (moved : Pieces)
    (hentries : ∀ e ∈ entries, e.1.InWord ∧ e.2 < t.size) (hmoved : ∀ e ∈ moved.entries, e.2 < t.size) :
    Runs (movePieces d n entries moved) (entries.foldlM (fun moved e => do
      match d.move? n e.1 with
      | none => return moved
      | some target => return moved.insert target (← Build.movePiece d n e.1 target e.2)) moved) t
      fun t' m => ∀ e ∈ m.entries, e.2 < t'.size := by
  induction entries generalizing t moved with
  | nil => exact runs_pure ht hmoved
  | cons a entries ih =>
    have htail (t' : Table) (g : t.Grows t') : ∀ e ∈ entries, e.1.InWord ∧ e.2 < t'.size := fun e he =>
      have h := hentries e (by simp [he])
      ⟨h.1, g.lt h.2⟩
    obtain ⟨hin, hlt⟩ := hentries a (by simp)
    rw [List.foldlM_cons, movePieces]
    refine runs_lift (move_eq hin hn d) ?_
    cases hm : d.move? n a.1 with
    | none => exact (ih ht moved (htail t (.refl t)) hmoved).congr rfl rfl
    | some target =>
      simp only [bind_assoc, pure_bind]
      refine (runs_movePiece ht hn (Direction.move?_inWord hm hin) hlt).bind fun p t' ht' g hp => ?_
      refine ih ht' _ (htail t' g) fun e he => ?_
      rcases SortedMap.mem_insert.mp he with rfl | ⟨he, -⟩
      · exact hp
      · exact g.lt (hmoved e he)

theorem runs_shiftHybrid (ht : t.Proper) {id : Nat} (hid : id < t.size) (opcode : Opcode) (count : Word) :
    Runs (shiftHybrid id opcode count) (Build.shiftHybrid id opcode count).run t
      fun t' r => ∀ id, r = .ok id → Inside t' id := by
  refine runs_fetch hid fun v hv => ?_
  have hp : t.pieces? id = v.pieces? := Table.pieces?_of_get? hv
  cases hv : v.pieces? with
  | none =>
    rw [hv] at hp
    refine (runs_pure (a := .error .brokenPartition) ht (by simp)).congr rfl ?_
    simp only [Build.shiftHybrid, Build.run_get, hp]
    rfl
  | some pieces =>
    rw [hv] at hp
    have hlt (e : BitRange × ValueId) (he : e ∈ pieces.entries) : e.2 < t.size := ht.wellFormed.piece_lt hp he
    have hin (e : BitRange × ValueId) (he : e ∈ pieces.entries) : e.1.InWord :=
      inWord_of_isPartition (ht.wellFormed.isPartition hp) he
    by_cases h0 : Opcode.shiftCount count = 0
    · simp only [h0, if_true]
      exact (runs_hybrid? ht hlt).congr rfl (Build.shiftHybrid_run_zero hp opcode h0)
    · have hn : Opcode.shiftCount count < 32 := Nat.mod_lt _ (by decide)
      simp only [if_neg h0]
      cases hd : Direction.ofOpcode? opcode with
      | none =>
        refine (runs_pure (a := .error (.unknownOperation opcode.name)) ht (by simp)).congr rfl ?_
        simp only [Build.shiftHybrid, Build.run_get, hp, if_neg h0, hd]
        rfl
      | some d =>
        have hrun := Build.shiftHybrid_run hp hd count
        rw [if_neg h0] at hrun
        refine Runs.congr ?_ rfl hrun
        refine (runs_movePieces ht hn pieces.entries .empty (fun e he => ⟨hin e he, hlt e he⟩)
          fun _ he => absurd he List.not_mem_nil).bind fun moved t₁ ht₁ _ hmoved => ?_
        refine runs_lift (vacated_eq hn h0 d) ?_
        refine (runs_bits ht₁ (Direction.vacated_inWord hn h0)).bind fun filling t₂ ht₂ g₂ hfilling => ?_
        refine runs_hybrid? ht₂ fun e he => ?_
        rcases SortedMap.mem_insert.mp he with rfl | ⟨he, -⟩
        · exact hfilling
        · exact g₂.lt (hmoved e he)

/-! ### Masks -/

theorem maskedPart_eq {range : BitRange} (hr : range.InWord) {piece : Nat} {v : Value} (hv : t.get? piece = some v)
    (opcode : Opcode) (word : Word) :
    maskedPart opcode word range v = some (Build.maskedPiece? t opcode word range piece) := by
  unfold maskedPart Build.maskedPiece?
  rw [mask_eq hr, Option.bind_eq_bind, Option.bind_some, Table.isSymbolic_of_get? hv, Table.known_of_get? hv]
  split
  · cases opcode <;> rfl
  · cases v.known with
    | none => cases opcode <;> rfl
    | some w => cases opcode <;> simp only [place_eq hr] <;> rfl

theorem runs_foldMask (ht : t.Proper) {id : Nat} (hid : id < t.size) (opcode : Opcode) (word : Word) :
    Runs (foldMask id opcode word) (Build.foldMask id opcode word) t fun t' r => ∀ id, r = some id → Inside t' id := by
  refine runs_fetch hid fun v hv => ?_
  have hp : t.pieces? id = v.pieces? := Table.pieces?_of_get? hv
  cases hv : v.pieces? with
  | none =>
    rw [hv] at hp
    refine (runs_pure (a := none) ht (by simp)).congr rfl ?_
    rw [Build.foldMask, hp]
    rfl
  | some pieces =>
    rw [hv] at hp
    refine runs_gather _ (fun e he => ht.wellFormed.piece_lt hp he) (fun e he v hv => maskedPart_eq
      (inWord_of_isPartition (ht.wellFormed.isPartition hp) he) hv opcode word) ?_
    have hfold : Build.foldMask id opcode word t = (match Build.maskedWord? t opcode word pieces with
        | some folded => (do return some (← Build.constant folded) : Build (Option ValueId)) t
        | none => (none, t)) := by
      rw [Build.foldMask, hp]
      rfl
    cases hw : Build.maskedWord? t opcode word pieces with
    | none =>
      rw [hw] at hfold
      rw [Build.maskedWord?] at hw
      simp only [hw]
      exact (runs_pure (a := none) ht (by simp)).congr rfl hfold
    | some folded =>
      rw [hw] at hfold
      rw [Build.maskedWord?] at hw
      simp only [hw]
      refine Runs.congr (b := do return some (← Build.constant folded)) ?_ rfl hfold
      refine (runs_constant ht folded).bind fun id t' ht' _ hid => runs_pure ht' ?_
      rintro id' ⟨rfl⟩
      exact hid

theorem runs_maskValue (ht : t.Proper) (opcode : Opcode) {value : Nat} (hv : value < t.size) (word : Word) :
    Runs (maskValue opcode value word) (Replay.maskValue opcode value word) t Inside := by
  refine (runs_foldMask ht hv opcode word).bind fun folded t₁ ht₁ g₁ hfolded => ?_
  cases folded with
  | some id => exact runs_pure ht₁ (hfolded id rfl)
  | none => exact runs_withConstant ht₁ opcode (g₁.lt hv) word

/-! ### Views of a word -/

variable {owner value : Nat}

theorem runs_extractLow (ht : t.Proper) (ho : owner < t.size) {span : BitRange} (hs : span.InWord) :
    Runs (extractLow span owner) (RegisterView.extractLow span owner) t Inside := by
  refine runs_fetch ho fun v hv => runs_get ?_
  have hp : t.piece? owner span = v.pieces?.bind (·.get? span) := by rw [Table.piece?, Table.pieces?, hv]; rfl
  rw [← hp]
  cases hpiece : t.piece? owner span with
  | some piece => exact runs_pure ht (RegisterView.piece?_lt ht.wellFormed hpiece)
  | none =>
    refine runs_lift (mask_eq hs) ?_
    refine (runs_constant ht _).bind fun mask t₁ ht₁ g₁ hmask => ?_
    exact runs_lift (width_eq hs) (runs_operation ht₁ _ (by simpa using ⟨g₁.lt ho, hmask⟩) _)

theorem runs_extractHigh (ht : t.Proper) (ho : owner < t.size) {span : BitRange} (hs : span.InWord) :
    Runs (extractHigh span owner) (RegisterView.extractHigh span owner) t Inside := by
  refine runs_fetch ho fun v hv => runs_get ?_
  have hp : t.piece? owner span = v.pieces?.bind (·.get? span) := by rw [Table.piece?, Table.pieces?, hv]; rfl
  rw [← hp]
  cases hpiece : t.piece? owner span with
  | some piece => exact runs_pure ht (RegisterView.piece?_lt ht.wellFormed hpiece)
  | none => exact runs_lift (mask_eq hs) (runs_lift (width_eq hs) (runs_maskDown ht ho span _))

theorem runs_extract (ht : t.Proper) (ho : owner < t.size) (view : RegisterView) :
    Runs (extract owner view) (view.extract owner) t Inside := by
  refine runs_lift (range_eq view.span_inWord) ?_
  cases view with
  | full r => exact runs_pure ht ho
  | low16 r | low8 r => exact runs_extractLow ht ho (RegisterView.span_inWord _)
  | high8 r => exact runs_extractHigh ht ho (RegisterView.span_inWord _)

theorem runs_splitAround (ht : t.Proper) (hv : value < t.size) (word : Word) :
    Runs (splitAround word value) (RegisterView.splitAround word value) t Inside := by
  have hlow : BitRange.InWord ⟨0, 7⟩ := by decide
  have hhigh : BitRange.InWord ⟨16, 31⟩ := by decide
  refine runs_lift (range_eq hlow) ((runs_bits ht hlow).bind fun below t₁ ht₁ g₁ hbelow => ?_)
  refine runs_lift (range_eq hhigh) ((runs_bits ht₁ hhigh).bind fun above t₂ ht₂ g₂ habove => ?_)
  refine runs_hybrid ht₂ rfl fun e he => ?_
  rw [RegisterView.entries_splitAround] at he
  simp only [List.mem_cons, List.not_mem_nil, or_false] at he
  rcases he with rfl | rfl | rfl
  · exact g₂.lt hbelow
  · exact (g₁.trans g₂).lt hv
  · exact habove

theorem runs_mergeLow (ht : t.Proper) (ho : owner < t.size) (hv : value < t.size) {span : BitRange}
    (hs : span.InWord) : Runs (mergeLow span owner value) (RegisterView.mergeLow span owner value) t Inside := by
  have hmerge : RegisterView.mergeLow span owner value = (do
      let kept ← Replay.withConstant .and owner (~~~span.mask)
      Build.binary .or kept value) := rfl
  rw [mergeLow, hmerge]
  refine runs_lift (mask_eq hs) ?_
  exact (runs_withConstant ht .and ho _).bind fun kept t₁ ht₁ g₁ hkept => runs_binary ht₁ _ hkept (g₁.lt hv)

theorem runs_mergeHigh (ht : t.Proper) (ho : owner < t.size) (hv : value < t.size) {span : BitRange}
    (hs : span.InWord) : Runs (mergeHigh span owner value) (RegisterView.mergeHigh span owner value) t Inside := by
  have masked : Runs (mergeUp owner value (~~~span.mask) (BitVec.ofNat 32 span.low))
      (RegisterView.mergeHigh.mask span owner value) t Inside := runs_mergeUp ht ho hv span
  refine runs_fetch ho fun old hold => runs_fetch hv fun new hnew => ?_
  refine runs_lift (mask_eq hs) (runs_get ?_)
  have hc : t.concrete? owner = if old.kind = .concrete then old.known else none := by rw [Table.concrete?, hold]; rfl
  have hsym : t.isSymbol value = decide (new.kind = .symbol) := by rw [Table.isSymbol, hnew]; rfl
  rw [← hc]
  cases t.concrete? owner with
  | none => exact masked
  | some word =>
    simp only [hsym, decide_eq_true_eq]
    split
    · exact runs_splitAround ht hv _
    · exact masked

theorem runs_merge (ht : t.Proper) (ho : owner < t.size) (hv : value < t.size) (view : RegisterView) :
    Runs (merge owner value view) (view.merge owner value) t Inside := by
  refine runs_lift (range_eq view.span_inWord) ?_
  cases view with
  | full r => exact runs_pure ht hv
  | low16 r | low8 r => exact runs_mergeLow ht ho hv (RegisterView.span_inWord _)
  | high8 r => exact runs_mergeHigh ht ho hv (RegisterView.span_inWord _)

end Checked

end TraceReplay
