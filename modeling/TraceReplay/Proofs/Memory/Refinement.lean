/-
  TraceReplay.Proofs.Memory.Refinement — memory refines a store of bytes.

  A memory holds the bytes of a byte store (`Memory.Holds`) if every cell has at most four
  bytes and its value means the number that these spell. What a read gives is then the number
  at its access, and a write puts the bytes of its value there and changes no other byte,
  provided that what the value spills is set already (`Holds.write`). A number that fits the
  access spills nothing.

  `Store.image` is the byte store that a memory stands for. Over every history of calls on an
  empty memory in which values fit where they are written, writes update the image and reads
  report it (`memory_refines_a_byte_store`).
-/

import TraceReplay.Proofs.Memory.Histories

namespace TraceReplay

variable {R : Rules} {σ : Assignment}

namespace Memory

/-! ## Memories that hold bytes -/

/-- Every cell is at most four bytes wide, and its value means the number of its bytes. -/
structure Holds (R : Rules) (σ : Assignment) (t : Table) (m : Memory) (mem : ByteStore) : Prop where
  separated : m.Separated
  small : ∀ e ∈ m.cells.entries, e.1.Small
  means : ∀ e ∈ m.cells.entries, t.Means R σ e.2 (mem.word e.1)

variable {t t' : Table} {m m' : Memory} {mem mem' : ByteStore} {access : AddressRange}

theorem holds_empty (t : Table) (mem : ByteStore) : Memory.empty.Holds R σ t mem :=
  ⟨separated_empty, nofun, nofun⟩

theorem Holds.grow (h : m.Holds R σ t mem) (g : t.Grows t') : m.Holds R σ t' mem :=
  ⟨h.separated, h.small, fun e he => (h.means e he).grow g⟩

/-- Bytes that no cell covers are of no account. -/
theorem Holds.congr (h : m.Holds R σ t mem) (hmem : ∀ a, m.Covers a → mem a = mem' a) :
    m.Holds R σ t mem' := by
  refine ⟨h.separated, h.small, fun e he => ?_⟩
  rw [← ByteStore.word_congr (h.small e he) fun a ha => hmem a ⟨e, he, ha⟩]
  exact h.means e he

/-- When one cell replaces others, the new value decides whether the bytes are right. -/
theorem Replaces.holds_iff {cell : AddressRange} {v : ValueId} (h : m.Replaces cell v m')
    (hm : m.Holds R σ t mem) (g : t.Grows t') (hc : cell.Small)
    (hmem : ∀ a, ¬ cell.Has a → mem' a = mem a) :
    m'.Holds R σ t' mem' ↔ t'.Means R σ v (mem'.word cell) := by
  have hself := (h.mem_iff (cell, v)).mpr (.inl rfl)
  refine ⟨fun hm' => hm'.means _ hself, fun hv => ⟨h.separated hm.separated hc.1, ?_, ?_⟩⟩
  · intro e he
    rcases (h.mem_iff e).mp he with rfl | ⟨he, -⟩
    · exact hc
    · exact hm.small e he
  · intro e he
    rcases (h.mem_iff e).mp he with rfl | ⟨he, hi⟩
    · exact hv
    · have hword : mem'.word e.1 = mem.word e.1 := by
        refine ByteStore.word_congr (hm.small e he) fun a ha => hmem a fun hca => ?_
        have := (AddressRange.intersects_iff (hm.small e he).1 hc.1).mpr ⟨a, ha, hca⟩
        rw [hi] at this
        cases this
      rw [hword]
      exact (hm.means e he).grow g

/-- A read gives the number at its access. Where it makes an input, the input has to be that
    number. -/
theorem Holds.read (h : m.Holds R σ t mem) {bytes : Nat} {v : ValueId} (hr : access.Small)
    (hstep : ReadStep t m bytes access v t' m')
    (hinput : (∀ a, access.Has a → ¬ m.Covers a) → m'.inputs = m.inputs.insert t.size access →
      σ t.size &&& (BitRange.lowBits (bytes * 8)).mask = mem.word access) :
    m'.Holds R σ t' mem ∧ t'.Means R σ v (mem.word access) := by
  cases hstep with
  | exact hin => exact ⟨h, h.means _ hin⟩
  | fresh hfresh hrep hinputs =>
    have gives : (Build.symbol (bytes * 8)).Gives R σ t (mem.word access) := by
      rw [← hinput (fun _ => h.separated.not_covers hr.1 hfresh) hinputs]
      exact Build.gives_symbol _ t
    exact ⟨(hrep.holds_iff h gives.grows hr fun _ _ => rfl).mpr gives.post, gives.post⟩
  | within hin hcontains =>
    have hc := h.small _ hin
    have gives := Build.gives_field (h.means _ hin) (AddressRange.lane_inWord hc hcontains hr.1) (bytes * 8)
    rw [← ByteStore.word_within mem hc hcontains hr.1] at gives
    exact ⟨h.grow gives.grows, gives.post⟩

/-- A write puts the bytes of the value at its access, and changes no other, exactly if all
    that the value spills within the cell is set already. -/
theorem Holds.write (h : m.Holds R σ t mem) {value : ValueId} {w : Word} (hr : access.Small)
    (hw : t.Means R σ value w) (hstep : WriteStep t m access value t' m') :
    ∃ cell v, (cell, v) ∈ m'.cells.entries ∧ cell.contains access = true ∧ cell.Small ∧
      (m'.Holds R σ t' (mem.put access w) ↔ (lane cell access).spill w &&& ~~~mem.word cell = 0) := by
  have outside {cell : AddressRange} (hcontains : cell.contains access = true) {a : Word}
      (ha : ¬ cell.Has a) : mem.put access w a = mem a := by
    rw [ByteStore.put_apply _ _ hr, if_neg fun h => ha (AddressRange.has_of_contains hcontains h)]
  cases hstep with
  | whole hrep =>
    have hself := access.contains_self
    refine ⟨access, value, (hrep.mem_iff _).mpr (.inl rfl), hself, hr, ?_⟩
    have hlane := AddressRange.lane_inWord hr hself hr.1
    -- the new value takes up the whole cell, so nothing of the old one is left to merge with
    have hmerge : (lane access access).merge (mem.word access) w = w := by
      have hfit := BitRange.spill_eq_zero_of_lt hlane
        (by rw [AddressRange.lane_width hr]; exact mem.word_lt access)
      rw [BitRange.spill, AddressRange.lane_self_low, BitVec.shiftLeft_zero] at hfit
      rw [BitRange.merge, hfit, AddressRange.lane_self_low, BitVec.shiftLeft_zero]
      exact BitVec.zero_or
    rw [hrep.holds_iff h (.refl t) hr fun a => outside hself, ← BitRange.merge_eq_replace_iff hlane,
      ← ByteStore.word_put_within mem w hr hself hr.1, hmerge]
    exact ⟨hw.unique, fun heq => heq ▸ hw⟩
  | @within cell stored _ hin hcontains _ hrep =>
    have hc := h.small _ hin
    have hlane := AddressRange.lane_inWord hc hcontains hr.1
    refine ⟨cell, _, (hrep.mem_iff _).mpr (.inl rfl), hcontains, hc, ?_⟩
    have gives : (writeLane stored value (lane cell access)).Gives R σ t _ :=
      Build.gives_merge (h.means _ hin) hw hlane
    rw [hrep.holds_iff h gives.grows hc fun a => outside hcontains, ← BitRange.merge_eq_replace_iff hlane,
      ← ByteStore.word_put_within mem w hc hcontains hr.1]
    exact ⟨gives.post.unique, fun heq => heq ▸ gives.post⟩

theorem ReadStep.inOrder (h : m.Holds R σ t mem) (ht : t.InOrder R σ) {bytes : Nat} {v : ValueId}
    (hr : access.Small) (hstep : ReadStep t m bytes access v t' m') : t'.InOrder R σ := by
  cases hstep with
  | exact => exact ht
  | fresh => exact (Build.gives_symbol (bytes * 8) t).inOrder ht
  | within hin hcontains =>
    have hlane := AddressRange.lane_inWord (h.small _ hin) hcontains hr.1
    exact (Build.gives_field (h.means _ hin) hlane (bytes * 8)).inOrder ht

theorem WriteStep.inOrder (h : m.Holds R σ t mem) (ht : t.InOrder R σ) {value : ValueId} {w : Word}
    (hr : access.Small) (hw : t.Means R σ value w) (hstep : WriteStep t m access value t' m') :
    t'.InOrder R σ := by
  cases hstep with
  | whole => exact ht
  | within hin hcontains =>
    exact (Build.gives_merge (h.means _ hin) hw (AddressRange.lane_inWord (h.small _ hin) hcontains hr.1)).inOrder ht

theorem WriteStep.small (h : ∀ e ∈ m.cells.entries, e.1.Small) {value : ValueId} (hr : access.Small)
    (hstep : WriteStep t m access value t' m') : ∀ e ∈ m'.cells.entries, e.1.Small := by
  have replaced {cell : AddressRange} {v : ValueId} (hc : cell.Small) (hrep : m.Replaces cell v m') :
      ∀ e ∈ m'.cells.entries, e.1.Small := by
    intro e he
    rcases (hrep.mem_iff e).mp he with rfl | ⟨he, -⟩
    · exact hc
    · exact h e he
  cases hstep with
  | whole hrep => exact replaced hr hrep
  | within hin _ _ hrep => exact replaced (h _ hin) hrep

/-- A number that fits the access is written as it is. -/
theorem Holds.write_of_lt (h : m.Holds R σ t mem) {value : ValueId} {w : Word} (hr : access.Small)
    (hw : t.Means R σ value w) (hlt : w.toNat < 2 ^ (8 * access.size))
    (hstep : WriteStep t m access value t' m') :
    m'.Holds R σ t' (mem.put access w) := by
  obtain ⟨cell, v, -, hcontains, hc, hiff⟩ := h.write hr hw hstep
  rw [hiff, BitRange.spill_eq_zero_of_lt (AddressRange.lane_inWord hc hcontains hr.1)
    (by rw [AddressRange.lane_width hr]; exact hlt)]
  exact BitVec.zero_and

end Memory

namespace Store

/-! ## The image of a store -/

/-- The byte at the address, if a cell covers it: that byte of the cell's value. -/
def image (σ : Assignment) (s : Store) (a : Word) : Option (BitVec 8) :=
  (s.memory.cells.entries.find? fun e => e.1.Has a).bind fun e =>
    (s.table.eval σ e.2).toOption.map fun w => ByteStore.byteAt w (a - e.1.first).toNat

def Holds (σ : Assignment) (s : Store) (mem : ByteStore) : Prop := s.memory.Holds .standard σ s.table mem

variable {s s' : Store} {mem mem' : ByteStore} {a : Word}

theorem Holds.image_of_covers (h : s.Holds σ mem) (ha : s.memory.Covers a) : s.image σ a = some (mem a) := by
  obtain ⟨e, he, hea⟩ := ha
  cases hf : s.memory.cells.entries.find? (fun e => e.1.Has a) with
  | none => exact absurd hea (by simpa using List.find?_eq_none.mp hf e he)
  | some e' =>
    have he' := List.mem_of_find?_eq_some hf
    have hea' : e'.1.Has a := by simpa using List.find?_some hf
    have heval : s.table.eval σ e'.2 = .ok (mem.word e'.1) := (h.means e' he').2
    rw [image, hf, Option.bind_some, heval]
    exact congrArg some (mem.byteAt_word (h.small e' he') hea')

theorem image_of_not_covers (ha : ¬ s.memory.Covers a) : s.image σ a = none := by
  have hf : s.memory.cells.entries.find? (fun e => e.1.Has a) = none := by
    refine List.find?_eq_none.mpr fun e he hea => ha ⟨e, he, by simpa using hea⟩
  rw [image, hf, Option.bind_none]

/-- Stores that cover the same bytes and hold the same ones there look the same. -/
theorem Holds.image_congr (h : s.Holds σ mem) (h' : s'.Holds σ mem')
    (hcov : s'.memory.Covers a ↔ s.memory.Covers a) (hmem : s.memory.Covers a → mem' a = mem a) :
    s'.image σ a = s.image σ a := by
  by_cases ha : s.memory.Covers a
  · rw [h.image_of_covers ha, h'.image_of_covers (hcov.mpr ha), hmem ha]
  · rw [image_of_not_covers ha, image_of_not_covers (mt hcov.mp ha)]

/-! ## One call -/

/-- What can be asked of a call: one to four bytes, and a written value that fits them. -/
def Admissible (σ : Assignment) (s : Store) : Call → Prop
  | .read _ bytes => 1 ≤ bytes ∧ bytes ≤ 4
  | .write _ bytes value => 1 ≤ bytes ∧ bytes ≤ 4 ∧ value < s.table.size ∧
      ∃ w, s.table.eval σ value = .ok w ∧ w.toNat < 2 ^ (8 * bytes)
  | .build _ => True

theorem write_holds (h : s.Holds σ mem) {address : Word} {bytes : Nat} {value : ValueId} {w : Word}
    {access : AddressRange} (hr : access.Small) (ha : AddressRange.ofAccess? address bytes = some access)
    (hw : s.table.Means .standard σ value w) (hlt : w.toNat < 2 ^ (8 * access.size))
    (hwrite : s.write address bytes value = .ok s') : s'.Holds σ (mem.put access w) := by
  obtain ⟨_, ha', hstep⟩ := write_step h.separated hwrite
  obtain rfl := Option.some.inj (ha.symm.trans ha')
  exact Memory.Holds.write_of_lt h hr hw hlt hstep

/-- A read reports the bytes that the store holds afterwards, and if it defines any, then none
    of those at its access was defined. -/
theorem read_holds (h : s.Holds σ mem) {address : Word} {bytes : Nat} {v : ValueId} {access : AddressRange}
    (h1 : 1 ≤ bytes) (h4 : bytes ≤ 4) (ha : AddressRange.ofAccess? address bytes = some access)
    (hread : s.read address bytes = .ok (v, s')) :
    ∃ mem', s'.Holds σ mem' ∧ s'.table.Means .standard σ v (mem'.word access) ∧
      (∀ a, ¬ access.Has a → mem' a = mem a) ∧
      ((mem' = mem ∧ s'.memory = s.memory) ∨ ∀ a, access.Has a → ¬ s.memory.Covers a) := by
  obtain ⟨_, ha', hstep⟩ := read_step hread
  obtain rfl := Option.some.inj (ha.symm.trans ha')
  have hr := AddressRange.small_of_access h4 ha
  by_cases hnew : ∀ a, access.Has a → ¬ s.memory.Covers a
  · -- the bytes of the input that the read makes are put where there were none
    obtain ⟨w, hw⟩ : ∃ w, w = σ s.table.size &&& (BitRange.lowBits (bytes * 8)).mask := ⟨_, rfl⟩
    have hlt : w.toNat < 2 ^ (8 * access.size) := by
      rw [hw, AddressRange.size_of_access h1 h4 ha, Nat.mul_comm]
      exact BitRange.and_lowBits_mask_lt (by omega) _
    have hput (a : Word) (hna : ¬ access.Has a) : mem.put access w a = mem a := by
      rw [ByteStore.put_apply _ _ hr, if_neg hna]
    have hmem := Memory.Holds.congr h fun a hc => (hput a fun hacc => hnew a hacc hc).symm
    have hinput := hw.symm.trans (ByteStore.word_put_self mem w hlt).symm
    obtain ⟨hholds, hmeans⟩ := hmem.read hr hstep fun _ _ => hinput
    exact ⟨_, hholds, hmeans, hput, .inr hnew⟩
  · obtain ⟨hholds, hmeans⟩ := Memory.Holds.read h hr hstep fun hnew' => absurd hnew' hnew
    refine ⟨mem, hholds, hmeans, fun _ _ => rfl, .inl ⟨rfl, ?_⟩⟩
    simp only [Classical.not_forall, Classical.not_not] at hnew
    obtain ⟨a, hacc, hcov⟩ := hnew
    exact hstep.memory_eq h.separated hr.1 hacc hcov

theorem build_holds (h : s.Holds σ mem) (values : List Value) : (s.build values).Holds σ mem :=
  Memory.Holds.grow h (s.grows_build values)

theorem call_holds (h : s.Holds σ mem) {c : Call} (hc : s.Admissible σ c) :
    ∃ mem', (s.call c).Holds σ mem' := by
  cases c with
  | read address bytes =>
    simp only [call]
    split
    · rename_i v s' hread
      obtain ⟨access, ha, -⟩ := read_step hread
      obtain ⟨mem', hholds, -⟩ := read_holds h hc.1 hc.2 ha hread
      exact ⟨mem', hholds⟩
    · exact ⟨mem, h⟩
  | write address bytes value =>
    obtain ⟨h1, h4, hlt, w, hw, hfit⟩ := hc
    simp only [call]
    split
    · rename_i s' hwrite
      obtain ⟨access, ha, -⟩ := write_step h.separated hwrite
      rw [← AddressRange.size_of_access h1 h4 ha] at hfit
      exact ⟨_, write_holds h (AddressRange.small_of_access h4 ha) ha ⟨hlt, hw⟩ hfit hwrite⟩
    · exact ⟨mem, h⟩
  | build values => exact ⟨mem, build_holds h values⟩

/-! ## What the image says -/

/-- The calls on the store and its image agree: a write puts its bytes there and leaves all
    others, a read gives the number that its bytes spell afterwards and defines bytes only if
    none of its access was defined, and other values do not matter. -/
structure ByteAccurate (σ : Assignment) (s : Store) : Prop where
  cells_fit : ∀ e ∈ s.memory.cells.entries, ∃ w,
    s.table.eval σ e.2 = .ok w ∧ w.toNat < 2 ^ (8 * e.1.size)
  write : ∀ address bytes value w s', 1 ≤ bytes → bytes ≤ 4 → value < s.table.size →
    s.table.eval σ value = .ok w → w.toNat < 2 ^ (8 * bytes) → s.write address bytes value = .ok s' →
    ∀ a, s'.image σ a = if (a - address).toNat < bytes then some (ByteStore.byteAt w (a - address).toNat)
      else s.image σ a
  read : ∀ address bytes v s', 1 ≤ bytes → bytes ≤ 4 → s.read address bytes = .ok (v, s') →
    (∃ w bs, s'.table.eval σ v = .ok w ∧ w.toNat = ByteStore.littleEndian bs ∧
      (List.range bytes).map (fun i => s'.image σ (address + BitVec.ofNat 32 i)) = bs.map some) ∧
    (∀ a, ¬ (a - address).toNat < bytes → s'.image σ a = s.image σ a) ∧
    (s'.image σ = s.image σ ∨ ∀ a, (a - address).toNat < bytes → s.image σ a = none)
  build : ∀ values, (s.build values).image σ = s.image σ

theorem Holds.image_write (h : s.Holds σ mem) {address : Word} {bytes : Nat} {value : ValueId} {w : Word}
    (h1 : 1 ≤ bytes) (h4 : bytes ≤ 4) (hw : s.table.Means .standard σ value w)
    (hfit : w.toNat < 2 ^ (8 * bytes)) (hwrite : s.write address bytes value = .ok s') (a : Word) :
    s'.image σ a = if (a - address).toNat < bytes then some (ByteStore.byteAt w (a - address).toNat)
      else s.image σ a := by
  obtain ⟨access, ha, -⟩ := write_step h.separated hwrite
  have hr := AddressRange.small_of_access h4 ha
  have hsize := AddressRange.size_of_access h1 h4 ha
  obtain ⟨rfl, -⟩ := AddressRange.ofAccess?_eq_some_iff.mp ha
  rw [← hsize] at hfit ⊢
  have h' := write_holds h hr ha hw hfit hwrite
  have hcov := (write_effect h.separated hwrite).covers_iff a
  rw [touches_write hwrite ha] at hcov
  split
  · rename_i hlt
    rw [← hr.has_iff] at hlt
    rw [h'.image_of_covers (hcov.mpr (.inr hlt)), ByteStore.put_apply _ _ hr, if_pos hlt]
  · rename_i hlt
    rw [← hr.has_iff] at hlt
    refine h.image_congr h' (hcov.trans (or_iff_left hlt)) fun _ => ?_
    rw [ByteStore.put_apply _ _ hr, if_neg hlt]

theorem Holds.image_read (h : s.Holds σ mem) {address : Word} {bytes : Nat} {v : ValueId}
    (h1 : 1 ≤ bytes) (h4 : bytes ≤ 4) (hread : s.read address bytes = .ok (v, s')) :
    (∃ w bs, s'.table.eval σ v = .ok w ∧ w.toNat = ByteStore.littleEndian bs ∧
      (List.range bytes).map (fun i => s'.image σ (address + BitVec.ofNat 32 i)) = bs.map some) ∧
    (∀ a, ¬ (a - address).toNat < bytes → s'.image σ a = s.image σ a) ∧
    (s'.image σ = s.image σ ∨ ∀ a, (a - address).toNat < bytes → s.image σ a = none) := by
  obtain ⟨access, ha, -⟩ := read_step hread
  have hr := AddressRange.small_of_access h4 ha
  have hsize := AddressRange.size_of_access h1 h4 ha
  obtain ⟨mem', h', hmeans, houtside, hnew⟩ := read_holds h h1 h4 ha hread
  obtain ⟨rfl, -⟩ := AddressRange.ofAccess?_eq_some_iff.mp ha
  have hcov (a : Word) := (read_effect h.separated hread).covers_iff a
  simp only [touches_read hread ha] at hcov
  have hhas (a : Word) : (a - access.first).toNat < bytes ↔ access.Has a := by rw [hr.has_iff, hsize]
  refine ⟨⟨_, mem'.bytesAt access.first bytes, hmeans.2, ?_, ?_⟩, fun a hna => ?_, ?_⟩
  · rw [ByteStore.word, hsize]
    exact ByteStore.toNat_load mem' _ h4
  · rw [ByteStore.bytesAt, List.map_map]
    refine List.map_congr_left fun i hi => h'.image_of_covers ((hcov _).mpr (.inr ((hhas _).mp ?_)))
    rw [BitVec.add_comm, BitVec.add_sub_cancel, BitVec.toNat_ofNat]
    exact Nat.lt_of_le_of_lt (Nat.mod_le _ _) (List.mem_range.mp hi)
  · rw [hhas] at hna
    exact h.image_congr h' ((hcov a).trans (or_iff_left hna)) fun _ => houtside a hna
  · rcases hnew with ⟨rfl, hm⟩ | hnew
    · exact .inl (funext fun a => h.image_congr h' (by rw [hm]) fun _ => rfl)
    · exact .inr fun a ha => image_of_not_covers (hnew a ((hhas a).mp ha))

theorem Holds.byteAccurate (h : s.Holds σ mem) : s.ByteAccurate σ where
  cells_fit e he := ⟨_, (h.means e he).2, mem.word_lt e.1⟩
  write _ _ _ _ _ h1 h4 hlt hw hfit hwrite := h.image_write h1 h4 ⟨hlt, hw⟩ hfit hwrite
  read _ _ _ _ h1 h4 hread := h.image_read h1 h4 hread
  build values := funext fun _ => h.image_congr (build_holds h values) Iff.rfl fun _ => rfl

/-! ## Whole histories -/

def Admits (σ : Assignment) (s : Store) : List Call → Prop
  | [] => True
  | c :: calls => s.Admissible σ c ∧ Admits σ (s.call c) calls

theorem run_holds {calls : List Call} (h : s.Holds σ mem) (hc : s.Admits σ calls) :
    ∃ mem', (s.run calls).Holds σ mem' := by
  induction calls generalizing s mem with
  | nil => exact ⟨mem, h⟩
  | cons c calls ih =>
    obtain ⟨mem', h'⟩ := call_holds h hc.1
    exact ih h' hc.2

/-- Over every history of admissible calls on an empty memory, the memory is a store of
    bytes. -/
theorem memory_refines_a_byte_store (σ : Assignment) (t : Table) (calls : List Call)
    (h : Admits σ ⟨t, .empty⟩ calls) : ByteAccurate σ (run ⟨t, .empty⟩ calls) := by
  have hempty : Holds σ ⟨t, .empty⟩ fun _ => 0 := Memory.holds_empty t _
  obtain ⟨mem, hmem⟩ := run_holds hempty h
  exact hmem.byteAccurate

/-- A word, a byte merged into it, a refused read across its end and one inside it. -/
theorem a_merged_byte_is_accurate :
    Admits (fun _ => 0) ⟨.empty, .empty⟩
      [.build [⟨32, .constant ⟨0x11223344, .word⟩, false, some 0x11223344⟩,
        ⟨8, .constant ⟨0xab, .lowBits 8⟩, false, some 0xab⟩],
       .write 0x100 4 0, .write 0x101 1 1, .read 0x102 4, .read 0x101 2] ∧
    ByteAccurate (fun _ => 0) (run ⟨.empty, .empty⟩
      [.build [⟨32, .constant ⟨0x11223344, .word⟩, false, some 0x11223344⟩,
        ⟨8, .constant ⟨0xab, .lowBits 8⟩, false, some 0xab⟩],
       .write 0x100 4 0, .write 0x101 1 1, .read 0x102 4, .read 0x101 2]) := by
  refine ⟨?admits, memory_refines_a_byte_store _ _ _ ?admits⟩
  refine ⟨trivial, ⟨by decide, by decide, by decide, 0x11223344, rfl, by decide⟩,
    ⟨by decide, by decide, by decide, 0xab, rfl, by decide⟩, ⟨by decide, by decide⟩,
    ⟨by decide, by decide⟩, trivial⟩

end Store

end TraceReplay
