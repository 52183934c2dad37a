/-
  TraceReplay.Proofs.Replay.Soundness — sessions that refer to values of their table.

  A session is sound (`Session.Sound`) if its table is well-formed, registers, cells and inputs
  hold values of the table, cells are apart, and no cell is longer than an access can be. What
  the machine builds to read and write registers and memory keeps a table well-formed and gives
  one of its values (`maintains_extract`, `maintains_merge`, `maintains_readLane`,
  `maintains_writeLane`). That every replay keeps a session sound follows with the shape of
  replays, which looks at every operation anyway.
-/

import TraceReplay.Proofs.Construction
import TraceReplay.Proofs.Replay.Simulation

namespace TraceReplay

variable {t : Table}

/-! ## What the machine builds -/

namespace Build

def Inside (t : Table) (id : ValueId) : Prop := id < t.size

theorem maintains_inside {b : Build ValueId} (h : b.Maintains t Newest) : b.Maintains t Inside :=
  h.mono fun _ _ hnew => hnew.lt

theorem maintains_constant (ht : t.WellFormed) (w : Word) : (constant w).Maintains t Inside :=
  maintains_inside (maintains_constantOf ht _ _)

theorem maintains_unary (ht : t.WellFormed) (opcode : Opcode) {a : Nat} (ha : a < t.size) :
    (unary opcode a).Maintains t Inside :=
  maintains_inside (maintains_operationLike ht opcode (by simpa using ha))

theorem maintains_binary (ht : t.WellFormed) (opcode : Opcode) {a b : Nat} (ha : a < t.size) (hb : b < t.size) :
    (binary opcode a b).Maintains t Inside :=
  maintains_inside (maintains_operationLike ht opcode (by simpa using ⟨ha, hb⟩))

theorem maintains_binarySized (ht : t.WellFormed) (opcode : Opcode) {a b : Nat} (ha : a < t.size)
    (hb : b < t.size) (width : Nat) : (binarySized opcode a b width).Maintains t Inside :=
  maintains_inside (maintains_operation ht opcode (by simpa using ⟨ha, hb⟩) width)

theorem maintains_field {a : Nat} (ht : t.WellFormed) (ha : a < t.size) (r : BitRange) (width : Nat) :
    Maintains (do
      let mask ← constant r.mask
      let masked ← binary .and a mask
      let count ← constant (BitVec.ofNat 32 r.low)
      binarySized .shr masked count width) t Inside := by
  refine (maintains_constant ht _).bind fun mask t₁ ht₁ g₁ hmask => ?_
  refine (maintains_binary ht₁ _ (g₁.lt ha) hmask).bind fun masked t₂ ht₂ _ hmasked => ?_
  refine (maintains_constant ht₂ _).bind fun count t₃ ht₃ g₃ hcount => ?_
  exact maintains_binarySized ht₃ _ (g₃.lt hmasked) hcount _

end Build

open Build (Inside)

namespace RegisterView

variable {owner value : Nat}

theorem piece?_lt (ht : t.WellFormed) {range : BitRange} {piece : ValueId}
    (hp : t.piece? owner range = some piece) : Inside t piece := by
  obtain ⟨pieces, hpieces, hget⟩ := Option.bind_eq_some_iff.mp hp
  exact ht.piece_lt hpieces (SortedMap.get?_eq_some_iff.mp hget)

theorem maintains_extractLow (ht : t.WellFormed) (ho : owner < t.size) (range : BitRange) :
    (extractLow range owner).Maintains t Inside := by
  refine Build.maintains_get ?_
  split
  · exact Build.maintains_pure ht (piece?_lt ht ‹_›)
  · refine (Build.maintains_constant ht _).bind fun mask t₁ ht₁ g₁ hmask => ?_
    exact Build.maintains_binarySized ht₁ _ (g₁.lt ho) hmask _

theorem maintains_extractHigh (ht : t.WellFormed) (ho : owner < t.size) (range : BitRange) :
    (extractHigh range owner).Maintains t Inside := by
  refine Build.maintains_get ?_
  split
  · exact Build.maintains_pure ht (piece?_lt ht ‹_›)
  · exact Build.maintains_field ht ho range range.width

theorem maintains_extract (ht : t.WellFormed) (ho : owner < t.size) (view : RegisterView) :
    (view.extract owner).Maintains t Inside := by
  cases view with
  | full r => exact Build.maintains_pure ht ho
  | low16 r | low8 r => exact maintains_extractLow ht ho _
  | high8 r => exact maintains_extractHigh ht ho _

theorem maintains_splitAround (ht : t.WellFormed) (hv : value < t.size) (word : Word) :
    (splitAround word value).Maintains t Inside := by
  refine (Build.maintains_constantOf ht _ _).bind fun below t₁ ht₁ g₁ hbelow => ?_
  refine (Build.maintains_constantOf ht₁ _ _).bind fun above t₂ ht₂ g₂ habove => ?_
  refine Build.maintains_inside (Build.maintains_hybrid ht₂ rfl fun p hp => ?_)
  obtain ⟨e, he, rfl⟩ := List.mem_map.mp hp
  rw [entries_splitAround] at he
  simp only [List.mem_cons, List.not_mem_nil, or_false] at he
  rcases he with rfl | rfl | rfl
  · exact g₂.lt hbelow.lt
  · exact (g₁.trans g₂).lt hv
  · exact habove.lt

end RegisterView

/-- A word with a value moved into it under a mask: how bytes of cells and high bytes of
    registers are written. -/
theorem Memory.maintains_writeLane {stored value : Nat} (ht : t.WellFormed) (hs : stored < t.size)
    (hv : value < t.size) (lane : BitRange) : (writeLane stored value lane).Maintains t Inside := by
  refine (Build.maintains_constant ht _).bind fun mask t₁ ht₁ g₁ hmask => ?_
  refine (Build.maintains_binary ht₁ _ (g₁.lt hs) hmask).bind fun kept t₂ ht₂ g₂ hkept => ?_
  refine (Build.maintains_constant ht₂ _).bind fun count t₃ ht₃ g₃ hcount => ?_
  refine (Build.maintains_binary ht₃ _ ((g₁.trans (g₂.trans g₃)).lt hv) hcount).bind fun moved t₄ ht₄ g₄ hmoved => ?_
  exact Build.maintains_binary ht₄ _ ((g₃.trans g₄).lt hkept) hmoved

theorem Memory.maintains_readLane {stored : Nat} (ht : t.WellFormed) (hs : stored < t.size) (lane : BitRange)
    (width : Nat) : (readLane stored lane width).Maintains t Inside :=
  Build.maintains_field ht hs lane width

theorem RegisterView.maintains_merge {owner value : Nat} (ht : t.WellFormed) (ho : owner < t.size)
    (hv : value < t.size) (view : RegisterView) : (view.merge owner value).Maintains t Inside := by
  have low (range : BitRange) : (mergeLow range owner value).Maintains t Inside := by
    refine (Build.maintains_constant ht _).bind fun mask t₁ ht₁ g₁ hmask => ?_
    refine (Build.maintains_binary ht₁ _ (g₁.lt ho) hmask).bind fun kept t₂ ht₂ g₂ hkept => ?_
    exact Build.maintains_binary ht₂ _ hkept ((g₁.trans g₂).lt hv)
  cases view with
  | full r => exact Build.maintains_pure ht hv
  | low16 r | low8 r => exact low _
  | high8 r =>
    have masked := Memory.maintains_writeLane ht ho hv (RegisterView.high8 r).span
    refine Build.maintains_get ?_
    split
    · split
      · exact maintains_splitAround ht hv _
      · exact masked
    · exact masked

namespace Replay

variable {value : Nat}

theorem maintains_withConstant (ht : t.WellFormed) (opcode : Opcode) (hv : value < t.size) (word : Word) :
    (withConstant opcode value word).Maintains t Inside :=
  Build.maintains_inside (Build.maintains_withConstant ht opcode hv word)

theorem maintains_maskValue (ht : t.WellFormed) (opcode : Opcode) (hv : value < t.size) (mask : Word) :
    (maskValue opcode value mask).Maintains t Inside := by
  refine (Build.maintains_foldMask ht value opcode mask).bind fun folded t₁ ht₁ g₁ hfolded => ?_
  cases folded with
  | some id => exact Build.maintains_pure ht₁ (hfolded id rfl).lt
  | none => exact maintains_withConstant ht₁ opcode (g₁.lt hv) mask

end Replay

/-! ## Sound sessions -/

namespace AddressRange

/-- An access has fewer bytes than a 32-bit number has bits to count them by. -/
def Short (r : AddressRange) : Prop := r.last.toNat < r.first.toNat + 2 ^ 29

theorem short_of_access {r : AddressRange} {address : Word} {bytes : Nat} (hb : bytes < 2 ^ 29)
    (h : ofAccess? address bytes = some r) : r.Short := by
  obtain ⟨rfl, hl⟩ := ofAccess?_eq_some_iff.mp h
  unfold Short
  omega

theorem Short.small {cell : AddressRange} (h : cell.Short) (hle : cell.first ≤ cell.last) (hsize : cell.size ≤ 4) : cell.Small := by
  refine ⟨hle, ?_⟩
  have hle := BitVec.le_def.mp hle
  have hfirst := cell.first.isLt
  unfold Short at h
  have one : (1 : Word).toNat = 1 := rfl
  simp only [AddressRange.size, BitVec.toNat_add, BitVec.toNat_sub, one] at hsize
  omega

end AddressRange

namespace Session

structure Sound (s : Session) : Prop extends s.Tidy where
  wellFormed : s.table.WellFormed
  registers_lt : ∀ r id, s.registers.get? r = some id → id < s.table.size
  cells_lt : ∀ e ∈ s.memory.cells.entries, e.2 < s.table.size
  cells_short : ∀ e ∈ s.memory.cells.entries, e.1.Short

variable {s : Session}

theorem Sound.build {α : Type} (h : s.Sound) {b : Build α} {post : Table → α → Prop}
    (hb : b.Maintains s.table post) : { s with table := (b s.table).2 }.Sound :=
  ⟨⟨h.separated, fun e he => hb.grows.lt (h.inputs_lt e he)⟩, hb.wellFormed,
    fun r id hid => hb.grows.lt (h.registers_lt r id hid), fun e he => hb.grows.lt (h.cells_lt e he), h.cells_short⟩

theorem Sound.set (h : s.Sound) (r : Register) {id : Nat} (hid : id < s.table.size) : (s.set r id).Sound := by
  refine ⟨⟨h.separated, h.inputs_lt⟩, h.wellFormed, fun r' id' hget => ?_, h.cells_lt, h.cells_short⟩
  rw [Session.set, get?_set] at hget
  split at hget
  · cases hget
    exact hid
  · exact h.registers_lt r' id' hget

/-- A cell that takes the place of those that it meets leaves the session sound. -/
theorem Sound.store (h : s.Sound) {range : AddressRange} {id : Nat} {m : Memory} (hle : range.first ≤ range.last)
    (hshort : range.Short) (hid : id < s.table.size) (hm : s.memory.Replaces range id m)
    (hin : ∀ e ∈ m.inputs.entries, e.1 < s.table.size) : { s with memory := m }.Sound := by
  refine ⟨⟨hm.separated h.separated hle, hin⟩, h.wellFormed, h.registers_lt, fun e he => ?_, fun e he => ?_⟩
  · rcases (hm.mem_iff e).mp he with rfl | ⟨he, -⟩
    · exact hid
    · exact h.cells_lt e he
  · rcases (hm.mem_iff e).mp he with rfl | ⟨he, -⟩
    · exact hshort
    · exact h.cells_short e he

theorem Sound.count (h : s.Sound) (n : Nat) : { s with executed := n }.Sound :=
  ⟨⟨h.separated, h.inputs_lt⟩, h.wellFormed, h.registers_lt, h.cells_lt, h.cells_short⟩

end Session

end TraceReplay
