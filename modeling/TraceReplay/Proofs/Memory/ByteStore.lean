/-
  TraceReplay.Proofs.Memory.ByteStore — memory as bytes.

  A byte store has a byte at every address. Loads and stores are little-endian, and a store
  changes the bytes of its access only. Read through bits (`getLsbD_load`), a load inside a
  range of at most four bytes is a lane of the load of that range (`load_within`), and a store
  there replaces that lane and no other bit (`load_store_within`).
-/

import TraceReplay.Machine.Memory
import TraceReplay.Proofs.BitFields

namespace TraceReplay

/-! ## Ranges of addresses -/

namespace AddressRange

def Has (r : AddressRange) (a : Word) : Prop := r.first ≤ a ∧ a ≤ r.last

instance (r : AddressRange) (a : Word) : Decidable (r.Has a) := inferInstanceAs (Decidable (_ ∧ _))

/-- A range of one to four bytes, so that its bytes fit in a word. -/
def Small (r : AddressRange) : Prop := r.first ≤ r.last ∧ r.last.toNat < r.first.toNat + 4

variable {r s : AddressRange} {a : Word}

theorem has_first (h : r.first ≤ r.last) : r.Has r.first := ⟨BitVec.le_refl _, h⟩

theorem contains_iff : r.contains s = true ↔ r.first ≤ s.first ∧ s.last ≤ r.last := by
  simp [contains]

theorem has_of_contains (h : r.contains s = true) (ha : s.Has a) : r.Has a := by
  rw [contains_iff] at h
  exact ⟨BitVec.le_trans h.1 ha.1, BitVec.le_trans ha.2 h.2⟩

theorem contains_self (r : AddressRange) : r.contains r = true := by
  simp [contains]

theorem intersects_of_contains (h : r.contains s = true) (hs : s.first ≤ s.last) : r.intersects s = true := by
  rw [contains_iff] at h
  simp only [intersects, Bool.and_eq_true, decide_eq_true_eq]
  exact ⟨BitVec.le_trans h.1 hs, BitVec.le_trans hs h.2⟩

theorem intersects_self (h : r.first ≤ r.last) : r.intersects r = true := intersects_of_contains r.contains_self h

/-- Ranges that are not empty intersect exactly if they share an address. -/
theorem intersects_iff (hr : r.first ≤ r.last) (hs : s.first ≤ s.last) :
    r.intersects s = true ↔ ∃ a, r.Has a ∧ s.Has a := by
  simp only [intersects, Bool.and_eq_true, decide_eq_true_eq, Has]
  constructor
  · intro ⟨h, h'⟩
    by_cases hle : r.first ≤ s.first
    · exact ⟨s.first, ⟨hle, h'⟩, BitVec.le_refl _, hs⟩
    · have hle := BitVec.le_of_lt (BitVec.not_le.mp hle)
      exact ⟨r.first, ⟨BitVec.le_refl _, hr⟩, hle, h⟩
  · intro ⟨a, ⟨h₁, h₂⟩, h₃, h₄⟩
    exact ⟨BitVec.le_trans h₁ h₄, BitVec.le_trans h₃ h₂⟩

theorem ofAccess?_eq_some_iff {address : Word} {bytes : Nat} :
    ofAccess? address bytes = some r ↔
      r.first = address ∧ r.last.toNat = address.toNat + (max bytes 1 - 1) := by
  simp only [ofAccess?, Word.ofNat?, Option.map_eq_some_iff]
  constructor
  · rintro ⟨last, hl, rfl⟩
    split at hl
    · rename_i hlt
      cases hl
      exact ⟨rfl, Nat.mod_eq_of_lt hlt⟩
    · cases hl
  · rintro ⟨rfl, hl⟩
    refine ⟨r.last, ?_, rfl⟩
    rw [← hl, if_pos r.last.isLt, BitVec.ofNat_toNat, BitVec.setWidth_eq]

theorem first_le_last_of_access {address : Word} {bytes : Nat} (h : ofAccess? address bytes = some r) :
    r.first ≤ r.last := by
  obtain ⟨rfl, hl⟩ := ofAccess?_eq_some_iff.mp h
  rw [BitVec.le_def]
  omega

theorem small_of_access {address : Word} {bytes : Nat} (hb : bytes ≤ 4)
    (h : ofAccess? address bytes = some r) : r.Small := by
  refine ⟨first_le_last_of_access h, ?_⟩
  obtain ⟨rfl, hl⟩ := ofAccess?_eq_some_iff.mp h
  omega

theorem Small.size (h : r.Small) : r.size = r.last.toNat - r.first.toNat + 1 := by
  obtain ⟨hle, hlt⟩ := h
  rw [BitVec.le_def] at hle
  have := r.last.isLt
  have one : (1 : Word).toNat = 1 := rfl
  simp only [AddressRange.size, BitVec.toNat_add, BitVec.toNat_sub, one]
  omega

theorem Small.size_pos (h : r.Small) : 1 ≤ r.size := by rw [h.size]; omega

theorem Small.size_le (h : r.Small) : r.size ≤ 4 := by
  have := h.2
  have := BitVec.le_def.mp h.1
  rw [h.size]
  omega

theorem size_of_access {address : Word} {bytes : Nat} (h1 : 1 ≤ bytes) (h4 : bytes ≤ 4)
    (h : ofAccess? address bytes = some r) : r.size = bytes := by
  have hs := (small_of_access h4 h).size
  obtain ⟨rfl, hl⟩ := ofAccess?_eq_some_iff.mp h
  omega

/-- The addresses of a small range are its first one and those shortly behind it. -/
theorem Small.has_iff (h : r.Small) : r.Has a ↔ (a - r.first).toNat < r.size := by
  have hle := BitVec.le_def.mp h.1
  have hlt := h.2
  rw [h.size]
  simp only [Has, BitVec.le_def, BitVec.toNat_sub]
  have := r.last.isLt
  have := a.isLt
  omega

end AddressRange

/-! ## Loads and stores -/

abbrev ByteStore := Word → BitVec 8

namespace ByteStore

def littleEndian : List (BitVec 8) → Nat
  | [] => 0
  | b :: rest => b.toNat + 2 ^ 8 * littleEndian rest

def byteAt (w : Word) (i : Nat) : BitVec 8 := w.extractLsb' (8 * i) 8

def bytesAt (mem : ByteStore) (address : Word) (n : Nat) : List (BitVec 8) :=
  (List.range n).map fun i => mem (address + BitVec.ofNat 32 i)

def load (mem : ByteStore) (address : Word) (n : Nat) : Word :=
  BitVec.ofNat 32 (littleEndian (mem.bytesAt address n))

def store (mem : ByteStore) (address : Word) (n : Nat) (w : Word) : ByteStore := fun a =>
  if (a - address).toNat < n then byteAt w (a - address).toNat else mem a

theorem testBit_littleEndian (l : List (BitVec 8)) (k : Nat) :
    (littleEndian l).testBit k = (l[k / 8]?.map (·.getLsbD (k % 8))).getD false := by
  induction l generalizing k with
  | nil => simp [littleEndian]
  | cons b rest ih =>
    rw [littleEndian, Nat.add_comm, Nat.testBit_two_pow_mul_add _ b.isLt]
    by_cases hk : k < 8
    · rw [if_pos hk, Nat.div_eq_of_lt hk, Nat.mod_eq_of_lt hk]
      rfl
    · have hdiv : k / 8 = (k - 8) / 8 + 1 := by omega
      rw [if_neg hk, ih, hdiv, List.getElem?_cons_succ, show k % 8 = (k - 8) % 8 by omega]

theorem getLsbD_load (mem : ByteStore) (address : Word) {n k : Nat} (hk : k < 32) :
    (mem.load address n).getLsbD k =
      (decide (k / 8 < n) && (mem (address + BitVec.ofNat 32 (k / 8))).getLsbD (k % 8)) := by
  rw [load, BitVec.getLsbD_ofNat, testBit_littleEndian, bytesAt]
  by_cases h : k / 8 < n
  · simp [hk, h]
  · simp [h]

theorem littleEndian_lt (l : List (BitVec 8)) : littleEndian l < 2 ^ (8 * l.length) := by
  induction l with
  | nil => simp [littleEndian]
  | cons b rest ih =>
    have hb := b.isLt
    rw [littleEndian, List.length_cons, Nat.mul_succ, Nat.pow_add, Nat.mul_comm]
    omega

theorem toNat_load (mem : ByteStore) (address : Word) {n : Nat} (hn : n ≤ 4) :
    (mem.load address n).toNat = littleEndian (mem.bytesAt address n) := by
  have hlt := littleEndian_lt (mem.bytesAt address n)
  have hle : 2 ^ (8 * n) ≤ 2 ^ 32 := Nat.pow_le_pow_right (by decide) (by omega)
  rw [bytesAt, List.length_map, List.length_range] at hlt
  exact Nat.mod_eq_of_lt (Nat.lt_of_lt_of_le hlt hle)

theorem getLsbD_byteAt (w : Word) (i k : Nat) :
    (byteAt w i).getLsbD k = (decide (k < 8) && w.getLsbD (8 * i + k)) := by
  simp [byteAt, BitVec.getLsbD_extractLsb']

theorem load_lt (mem : ByteStore) (address : Word) (n : Nat) :
    (mem.load address n).toNat < 2 ^ (8 * n) := by
  rw [BitRange.toNat_lt_two_pow_iff]
  intro k hk
  by_cases hk' : k < 32
  · rw [getLsbD_load _ _ hk']
    simp [show ¬ k / 8 < n by omega]
  · exact BitVec.getLsbD_of_ge _ _ (by omega)

/-- A byte of a load is the byte of memory at its address. -/
theorem byteAt_load (mem : ByteStore) {address a : Word} {n : Nat} (hn : n ≤ 4)
    (ha : (a - address).toNat < n) : byteAt (mem.load address n) (a - address).toNat = mem a := by
  have hsum : address + BitVec.ofNat 32 (a - address).toNat = a := by
    rw [BitVec.ofNat_toNat, BitVec.setWidth_eq, BitVec.add_comm, BitVec.sub_add_cancel]
  refine BitVec.eq_of_getLsbD_eq fun k hk => ?_
  rw [getLsbD_byteAt, getLsbD_load _ _ (by omega)]
  generalize (a - address).toNat = i at ha hsum
  rw [show (8 * i + k) / 8 = i by omega, show (8 * i + k) % 8 = k by omega, hsum]
  simp [hk, ha]

/-- A load depends on the bytes of its access only. -/
theorem load_congr {mem mem' : ByteStore} {address : Word} {n : Nat}
    (h : ∀ a, (a - address).toNat < n → mem a = mem' a) : mem.load address n = mem'.load address n := by
  refine BitVec.eq_of_getLsbD_eq fun k hk => ?_
  rw [getLsbD_load _ _ hk, getLsbD_load _ _ hk]
  by_cases hlt : k / 8 < n
  · rw [h]
    rw [BitVec.add_comm, BitVec.add_sub_cancel, BitVec.toNat_ofNat]
    omega
  · simp [hlt]

theorem load_store_self (mem : ByteStore) (address : Word) {n : Nat} {w : Word}
    (hw : w.toNat < 2 ^ (8 * n)) : (mem.store address n w).load address n = w := by
  rw [BitRange.toNat_lt_two_pow_iff] at hw
  refine BitVec.eq_of_getLsbD_eq fun k hk => ?_
  rw [getLsbD_load _ _ hk, store, BitVec.add_comm, BitVec.add_sub_cancel, BitVec.toNat_ofNat,
    Nat.mod_eq_of_lt (by omega)]
  by_cases hlt : k / 8 < n
  · rw [if_pos hlt, getLsbD_byteAt, show 8 * (k / 8) + k % 8 = k by omega]
    simp [hlt, show k % 8 < 8 by omega]
  · simp [hlt, hw k (by omega)]

/-! ## Lanes -/

def word (mem : ByteStore) (r : AddressRange) : Word := mem.load r.first r.size

def put (mem : ByteStore) (r : AddressRange) (w : Word) : ByteStore := mem.store r.first r.size w

variable {cell access : AddressRange} (mem : ByteStore) (w : Word)

theorem put_apply (h : access.Small) (a : Word) :
    mem.put access w a = if access.Has a then byteAt w (a - access.first).toNat else mem a := by
  simp only [put, store, h.has_iff]

theorem word_lt (r : AddressRange) : (mem.word r).toNat < 2 ^ (8 * r.size) := mem.load_lt _ _

theorem byteAt_word (h : access.Small) {a : Word} (ha : access.Has a) :
    byteAt (mem.word access) (a - access.first).toNat = mem a :=
  mem.byteAt_load h.size_le (h.has_iff.mp ha)

theorem word_congr {mem mem' : ByteStore} (hr : access.Small) (h : ∀ a, access.Has a → mem a = mem' a) :
    mem.word access = mem'.word access :=
  load_congr fun a ha => h a (hr.has_iff.mpr ha)

theorem word_put_self (hw : w.toNat < 2 ^ (8 * access.size)) : (mem.put access w).word access = w :=
  mem.load_store_self _ hw

end ByteStore

namespace AddressRange

variable {cell access : AddressRange}

theorem Small.of_contains (hc : cell.Small) (h : cell.contains access = true)
    (ha : access.first ≤ access.last) : access.Small := by
  refine ⟨ha, ?_⟩
  have hlt := hc.2
  rw [contains_iff] at h
  simp only [BitVec.le_def] at h ha
  omega

/-- Where an access starts within a cell and ends within it, in bytes. -/
theorem Small.offset (hc : cell.Small) (h : cell.contains access = true)
    (ha : access.first ≤ access.last) :
    (access.first - cell.first).toNat = access.first.toNat - cell.first.toNat ∧
      access.first.toNat - cell.first.toNat + access.size ≤ cell.size := by
  have hs := (hc.of_contains h ha).size
  have hcs := hc.size
  rw [contains_iff] at h
  simp only [BitVec.le_def] at h ha
  have := access.first.isLt
  have := cell.first.isLt
  rw [BitVec.toNat_sub]
  omega

theorem lane_inWord (hc : cell.Small) (h : cell.contains access = true)
    (ha : access.first ≤ access.last) : (Memory.lane cell access).InWord := by
  obtain ⟨ho, hle⟩ := hc.offset h ha
  have := hc.size_le
  have := (hc.of_contains h ha).size_pos
  simp only [BitRange.InWord, Memory.lane, ho]
  omega

theorem lane_width (ha : access.Small) : (Memory.lane cell access).width = 8 * access.size := by
  have := ha.size_pos
  simp only [BitRange.width, Memory.lane]
  omega

theorem lane_self_low (r : AddressRange) : (Memory.lane r r).low = 0 := by simp [Memory.lane]

end AddressRange

namespace ByteStore

variable {cell access : AddressRange} (mem : ByteStore)

theorem getLsbD_word (r : AddressRange) {k : Nat} (hk : k < 32) :
    (mem.word r).getLsbD k =
      (decide (k / 8 < r.size) && (mem (r.first + BitVec.ofNat 32 (k / 8))).getLsbD (k % 8)) :=
  mem.getLsbD_load _ hk

/-- A load inside a cell is a lane of the load of the cell. -/
theorem word_within (hc : cell.Small) (h : cell.contains access = true) (ha : access.first ≤ access.last) :
    mem.word access = (Memory.lane cell access).field (mem.word cell) := by
  have hr := hc.of_contains h ha
  have hin := AddressRange.lane_inWord hc h ha
  obtain ⟨ho, hle⟩ := hc.offset h ha
  have h4 := hc.size_le
  refine BitVec.eq_of_getLsbD_eq fun k hk => ?_
  rw [BitRange.getLsbD_field hin, AddressRange.lane_width hr, getLsbD_word _ _ hk]
  by_cases hlt : k / 8 < access.size
  · have hlow : (Memory.lane cell access).low = 8 * (access.first.toNat - cell.first.toNat) := by
      simp only [Memory.lane, ho]; omega
    have hfirst := BitVec.le_def.mp (AddressRange.contains_iff.mp h).1
    have haddr : cell.first + BitVec.ofNat 32 (((Memory.lane cell access).low + k) / 8) =
        access.first + BitVec.ofNat 32 (k / 8) := by
      apply BitVec.eq_of_toNat_eq
      simp only [BitVec.toNat_add, BitVec.toNat_ofNat, hlow]
      omega
    rw [getLsbD_word _ _ (by omega), haddr]
    simp only [hlow, hlt, show k < 8 * access.size by omega, decide_true, Bool.true_and,
      show (8 * (access.first.toNat - cell.first.toNat) + k) % 8 = k % 8 by omega,
      show (8 * (access.first.toNat - cell.first.toNat) + k) / 8 < cell.size by omega]
  · simp [hlt, show ¬ k < 8 * access.size by omega]

/-- A store inside a cell replaces a lane of the load of the cell. -/
theorem word_put_within (w : Word) (hc : cell.Small) (h : cell.contains access = true)
    (ha : access.first ≤ access.last) :
    (mem.put access w).word cell = (Memory.lane cell access).replace (mem.word cell) w := by
  have hr := hc.of_contains h ha
  have hin := AddressRange.lane_inWord hc h ha
  obtain ⟨ho, hle⟩ := hc.offset h ha
  have h4 := hc.size_le
  have hpos := hr.size_pos
  have hfirst := BitVec.le_def.mp (AddressRange.contains_iff.mp h).1
  have hlast := access.first.isLt
  refine BitVec.eq_of_getLsbD_eq fun k hk => ?_
  rw [BitRange.getLsbD_replace hin _ _ hk, getLsbD_word _ _ hk, getLsbD_word _ _ hk, put, store]
  have hdist : (cell.first + BitVec.ofNat 32 (k / 8) - access.first).toNat =
      if access.first.toNat - cell.first.toNat ≤ k / 8 then k / 8 - (access.first.toNat - cell.first.toNat)
      else 2 ^ 32 + k / 8 - (access.first.toNat - cell.first.toNat) := by
    simp only [BitVec.toNat_sub, BitVec.toNat_add, BitVec.toNat_ofNat]
    split <;> omega
  by_cases hcov : (Memory.lane cell access).covers k = true
  · rw [if_pos hcov]
    simp only [BitRange.covers, Memory.lane, ho, Bool.and_eq_true, decide_eq_true_eq] at hcov
    rw [if_pos (by omega)] at hdist
    rw [if_pos (by omega), getLsbD_byteAt, hdist]
    simp only [Memory.lane, ho, show k / 8 < cell.size by omega, show k % 8 < 8 by omega, decide_true,
      Bool.true_and]
    congr 1
    omega
  · rw [if_neg hcov]
    simp only [BitRange.covers, Memory.lane, ho, Bool.and_eq_true, decide_eq_true_eq] at hcov
    rw [if_neg]
    split at hdist <;> omega

end ByteStore

end TraceReplay
