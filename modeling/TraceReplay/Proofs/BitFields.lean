/-
  TraceReplay.Proofs.BitFields — parts of a word, bit by bit.

  A range that lies in the word (`BitRange.InWord`) has a field (`field`), which is those bits
  moved down to position 0, and can be replaced (`replace`), which leaves all other bits as
  they were. Masks, placed numbers and known bits are all read bit by bit (`getLsbD_mask`,
  `getLsbD_place`, `Bits.value_eq_field`).

  Merging a number into a word under a mask replaces the field only if the number sets no
  other bit that was clear before (`merge_eq_replace_iff`); what it would set there is its
  `spill`.
-/

import Mathlib
import TraceReplay.Bits

namespace TraceReplay

namespace BitRange

def InWord (r : BitRange) : Prop := r.low ≤ r.high ∧ r.high < 32

instance (r : BitRange) : Decidable r.InWord := inferInstanceAs (Decidable (_ ∧ _))

def covers (r : BitRange) (k : Nat) : Bool := r.low ≤ k && k ≤ r.high

def field (r : BitRange) (w : Word) : Word := (w.extractLsb' r.low r.width).setWidth 32

/-- The word with the bits of the range replaced by a number, and no other. -/
def replace (r : BitRange) (w v : Word) : Word := (w &&& ~~~r.mask) ||| r.place v

/-- The word with the bits of the range cleared and the number moved there unmasked. -/
def merge (r : BitRange) (w v : Word) : Word := (w &&& ~~~r.mask) ||| (v <<< r.low)

/-- The bits outside the range that are set when the number is moved there unmasked. -/
def spill (r : BitRange) (v : Word) : Word := (v <<< r.low) &&& ~~~r.mask

theorem covers_iff {r : BitRange} {k : Nat} : r.covers k = true ↔ r.low ≤ k ∧ k ≤ r.high := by
  simp [covers]

theorem covers_eq_false_iff {r : BitRange} {k : Nat} : r.covers k = false ↔ k < r.low ∨ r.high < k := by
  rw [← Bool.not_eq_true, covers_iff]
  omega

theorem getLsbD_mask {r : BitRange} (h : r.InWord) (k : Nat) : r.mask.getLsbD k = r.covers k := by
  obtain ⟨hl, hh⟩ := h
  simp only [mask, width, covers, BitVec.getLsbD_shiftLeft, BitVec.getLsbD_ushiftRight,
    BitVec.getLsbD_allOnes]
  rw [Bool.eq_iff_iff]
  simp only [Bool.and_eq_true, decide_eq_true_eq, Bool.not_eq_true', decide_eq_false_iff_not]
  omega

theorem getLsbD_place {r : BitRange} (h : r.InWord) (v : Word) (k : Nat) :
    (r.place v).getLsbD k = (r.covers k && v.getLsbD (k - r.low)) := by
  have hh := h.2
  simp only [place, BitVec.getLsbD_and, BitVec.getLsbD_shiftLeft, getLsbD_mask h]
  by_cases hk : r.covers k = true
  · have hk' := hk
    rw [covers_iff] at hk'
    simp [hk, show k < 32 by omega, show ¬ k < r.low by omega]
  · simp [hk]

theorem getLsbD_field {r : BitRange} (h : r.InWord) (w : Word) (k : Nat) :
    (r.field w).getLsbD k = (decide (k < r.width) && w.getLsbD (r.low + k)) := by
  have hw : r.width ≤ 32 := by have := h.1; have := h.2; unfold width; omega
  simp only [field, BitVec.getLsbD_setWidth, BitVec.getLsbD_extractLsb']
  by_cases hk : k < r.width
  · simp [hk, show k < 32 by omega]
  · simp [hk]

theorem getLsbD_replace {r : BitRange} (h : r.InWord) (w v : Word) {k : Nat} (hk : k < 32) :
    (r.replace w v).getLsbD k = if r.covers k then v.getLsbD (k - r.low) else w.getLsbD k := by
  simp only [replace, BitVec.getLsbD_or, BitVec.getLsbD_and, BitVec.getLsbD_not, getLsbD_mask h,
    getLsbD_place h, hk, decide_true, Bool.true_and]
  by_cases hc : r.covers k = true <;> simp [hc]

/-- A number merged under a mask replaces the field exactly if whatever it spills is set in
    the word already. -/
theorem merge_eq_replace_iff {r : BitRange} (h : r.InWord) (w v : Word) :
    r.merge w v = r.replace w v ↔ r.spill v &&& ~~~w = 0 := by
  simp only [merge, BitVec.eq_of_getLsbD_eq_iff, BitVec.getLsbD_or, BitVec.getLsbD_and, BitVec.getLsbD_not,
    BitVec.getLsbD_shiftLeft, getLsbD_mask h, spill, replace, getLsbD_place h]
  refine forall_congr' fun k => forall_congr' fun hk => ?_
  simp only [hk, decide_true, Bool.true_and]
  by_cases hc : r.covers k = true
  · have hc' := hc
    rw [covers_iff] at hc'
    simp [hc, show ¬ k < r.low by omega]
  · simp only [hc]
    cases w.getLsbD k <;> simp

/-- Outside the range, a merge sets what the number spills and leaves the rest. -/
theorem getLsbD_merge {r : BitRange} (h : r.InWord) (w v : Word) {k : Nat} (hk : k < 32)
    (hout : r.covers k = false) : (r.merge w v).getLsbD k = (w.getLsbD k || (r.spill v).getLsbD k) := by
  simp only [merge, spill, BitVec.getLsbD_or, BitVec.getLsbD_and, BitVec.getLsbD_not, getLsbD_mask h, hout, hk]
  simp

/-! ## Numbers of few bits -/

theorem toNat_lt_two_pow_iff (w : Word) (n : Nat) :
    w.toNat < 2 ^ n ↔ ∀ k, n ≤ k → w.getLsbD k = false := by
  constructor
  · intro h k hk
    exact Nat.testBit_lt_two_pow (Nat.lt_of_lt_of_le h (Nat.pow_le_pow_right (by decide) hk))
  · intro h
    exact Nat.lt_pow_two_of_testBit _ fun k hk => h k hk

theorem field_lt {r : BitRange} (h : r.InWord) (w : Word) : (r.field w).toNat < 2 ^ r.width := by
  rw [toNat_lt_two_pow_iff]
  intro k hk
  rw [getLsbD_field h]
  simp [show ¬ k < r.width by omega]

/-- A number that is as wide as the range at most spills nothing. -/
theorem spill_eq_zero_of_lt {r : BitRange} (h : r.InWord) {v : Word} (hv : v.toNat < 2 ^ r.width) :
    r.spill v = 0 := by
  rw [toNat_lt_two_pow_iff] at hv
  have hl := h.1
  refine BitVec.eq_of_getLsbD_eq fun k hk => ?_
  simp only [spill, BitVec.getLsbD_and, BitVec.getLsbD_not, BitVec.getLsbD_shiftLeft, getLsbD_mask h,
    hk, decide_true, Bool.true_and]
  by_cases hc : r.covers k = true
  · simp [hc]
  · rw [covers_iff] at hc
    by_cases hlow : k < r.low
    · simp [hlow]
    · simp [hv (k - r.low) (by unfold width; omega)]

/-- Such a number is merged by replacing the bits of the range. -/
theorem merge_eq_replace {r : BitRange} (h : r.InWord) {v : Word} (hv : v.toNat < 2 ^ r.width) (w : Word) :
    r.merge w v = r.replace w v := by
  rw [merge_eq_replace_iff h, spill_eq_zero_of_lt h hv]
  exact BitVec.zero_and

theorem toNat_field {r : BitRange} (h : r.InWord) (w : Word) :
    (r.field w).toNat = (w.toNat >>> r.low) % 2 ^ r.width := by
  have hw : r.width ≤ 32 := by have := h.1; have := h.2; unfold width; omega
  rw [field, BitVec.toNat_setWidth, BitVec.extractLsb'_toNat]
  exact Nat.mod_eq_of_lt (Nat.lt_of_lt_of_le (Nat.mod_lt _ (Nat.two_pow_pos _)) (Nat.pow_le_pow_right (by decide) hw))

/-- A number with the bits of a range of a word is the field, modulo the width. -/
theorem mod_eq_field {r : BitRange} (h : r.InWord) {x w : Word}
    (hx : ∀ k, r.covers k = true → x.getLsbD (k - r.low) = w.getLsbD k) :
    x.toNat % 2 ^ r.width = (r.field w).toNat := by
  refine Nat.eq_of_testBit_eq fun k => ?_
  have hbit : (r.field w).toNat.testBit k = (decide (k < r.width) && w.getLsbD (r.low + k)) := getLsbD_field h w k
  rw [hbit, Nat.testBit_mod_two_pow]
  by_cases hk : k < r.width
  · have hcov : r.covers (r.low + k) = true := by
      rw [covers_iff]
      have := h.1
      unfold width at hk
      omega
    rw [← hx _ hcov, Nat.add_sub_cancel_left]
    rfl
  · simp [hk]

theorem replace_word (w v : Word) : word.replace w v = v := by
  refine BitVec.eq_of_getLsbD_eq fun k hk => ?_
  rw [getLsbD_replace (by decide) _ _ hk]
  simp [covers, word, show k ≤ 31 by omega]

theorem field_word (w : Word) : word.field w = w := by
  refine BitVec.eq_of_getLsbD_eq fun k hk => ?_
  rw [getLsbD_field (by decide)]
  simp [width, word, hk]

/-! ## The lowest bits -/

theorem lowBits_inWord (n : Nat) : (lowBits n).InWord := by
  simp only [InWord, lowBits]; omega

theorem getLsbD_lowBits_mask {n : Nat} (h : 1 ≤ n) {k : Nat} (hk : k < 32) :
    (lowBits n).mask.getLsbD k = decide (k < n) := by
  rw [getLsbD_mask (lowBits_inWord n)]
  simp only [covers, lowBits, Nat.zero_le, decide_true, Bool.true_and]
  congr 1
  rw [eq_iff_iff]; omega

theorem and_lowBits_mask_of_lt {n : Nat} (h : 1 ≤ n) {w : Word} (hw : w.toNat < 2 ^ n) :
    w &&& (lowBits n).mask = w := by
  rw [toNat_lt_two_pow_iff] at hw
  refine BitVec.eq_of_getLsbD_eq fun k hk => ?_
  rw [BitVec.getLsbD_and, getLsbD_lowBits_mask h hk]
  by_cases hkn : k < n
  · simp [hkn]
  · simp [hw k (by omega)]

theorem and_lowBits_mask_lt {n : Nat} (h : 1 ≤ n) (w : Word) :
    (w &&& (lowBits n).mask).toNat < 2 ^ n := by
  rw [toNat_lt_two_pow_iff]
  intro k hk
  rw [BitVec.getLsbD_and]
  by_cases hk' : k < 32
  · simp [getLsbD_lowBits_mask h hk', show ¬ k < n by omega]
  · simp [BitVec.getLsbD_of_ge _ _ (show 32 ≤ k by omega)]

end BitRange

/-! ## Known bits -/

namespace Bits

theorem value_eq_field {b : Bits} (h : b.range.InWord) : b.value = b.range.field b.word := by
  have hl := h.1
  have hh := h.2
  refine BitVec.eq_of_getLsbD_eq fun k hk => ?_
  rw [BitRange.getLsbD_field h, value, BitVec.getLsbD_ushiftRight, BitVec.getLsbD_and,
    BitRange.getLsbD_mask h, Bool.and_comm]
  congr 1
  rw [Bool.eq_iff_iff, BitRange.covers_iff, decide_eq_true_eq]
  unfold BitRange.width
  omega

/-- A whole word as known bits. -/
theorem value_word (w : Word) : Bits.value ⟨w, BitRange.lowBits 32⟩ = w := by
  rw [value_eq_field (BitRange.lowBits_inWord 32)]
  exact BitRange.field_word w

end Bits

end TraceReplay
