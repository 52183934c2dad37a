/-
  TraceReplay.Proofs.PieceMaps — which maps of pieces make up a word.

  Pieces are checked in one pass over their ranges in ascending order, which knows no more than
  where the next range has to start. The ranges may be any pairs of positions: inverted, beyond
  the word, nested, with the same start.

  Proved, of every map of pieces (`pieces_make_a_word_iff_each_bit_has_one_range`):
  - the pass accepts the map exactly if every range is in order, none has a position above 31, and
    every bit of the word is in exactly one range (`EachBitOnce`);
  - a hybrid word with these pieces is built exactly then, as the one new value;
  - it is refused exactly if it has one of four defects: an inverted range, a position above the
    word, a bit in no range, or a bit in two (`Defect`).
-/

import TraceReplay.Proofs.Hybrid

namespace TraceReplay

namespace Pieces

structure EachBitOnce (ranges : List BitRange) : Prop where
  ordered : ∀ r ∈ ranges, r.low ≤ r.high
  within : ∀ r ∈ ranges, ∀ k, r.covers k = true → k ≤ 31
  one : ∀ k ≤ 31, ∃! r, r ∈ ranges ∧ r.covers k = true

inductive Defect (ranges : List BitRange) : Prop
  | inverted (r : BitRange) : r ∈ ranges → r.high < r.low → Defect ranges
  | outside (r : BitRange) (k : Nat) : r ∈ ranges → r.covers k = true → 31 < k → Defect ranges
  | gap (k : Nat) : k ≤ 31 → (∀ r ∈ ranges, r.covers k = false) → Defect ranges
  | overlap (r s : BitRange) (k : Nat) : r ∈ ranges → s ∈ ranges → r ≠ s → r.covers k = true →
      s.covers k = true → Defect ranges

variable {l : List BitRange} {pieces : Pieces}

theorem EachBitOnce.inWord (h : EachBitOnce l) {r : BitRange} (hr : r ∈ l) : r.InWord := by
  have hle := h.ordered r hr
  have hhigh : r.high ≤ 31 := h.within r hr r.high (BitRange.covers_iff.mpr ⟨hle, Nat.le_refl _⟩)
  exact ⟨hle, by omega⟩

theorem EachBitOnce.eq_of_covers (h : EachBitOnce l) {r s : BitRange} (hr : r ∈ l) (hs : s ∈ l) {k : Nat}
    (hrk : r.covers k = true) (hsk : s.covers k = true) : r = s :=
  (h.one k (h.within r hr k hrk)).unique ⟨hr, hrk⟩ ⟨hs, hsk⟩

theorem partitions_zero_iff : Partitions 0 l ↔ EachBitOnce l := by
  constructor
  · intro h
    refine ⟨fun r hr => (h.inWord r hr).2.1, fun r hr k hk => ?_, fun k hk => ?_⟩
    · have hhigh := (h.inWord r hr).2.2
      rw [BitRange.covers_iff] at hk
      omega
    · obtain ⟨r, hr, hcov⟩ := h.covered k (Nat.zero_le k) (by omega)
      exact ⟨r, ⟨hr, hcov⟩, fun s hs => h.once s hs.1 r hr k hs.2 hcov⟩
  · intro h
    refine ⟨fun r hr => ⟨Nat.zero_le _, h.inWord hr⟩, fun k _ hk => ?_, ?_⟩
    · obtain ⟨r, ⟨hr, hcov⟩, -⟩ := h.one k (by omega)
      exact ⟨r, hr, hcov⟩
    · intro r hr s hs k hrk hsk
      exact h.eq_of_covers hr hs hrk hsk

theorem isPartition_iff_eachBitOnce : pieces.isPartition = true ↔ EachBitOnce pieces.keys :=
  (isPartition_iff pieces).trans partitions_zero_iff

/-- There is no other defect than the four. -/
theorem defect_iff : Defect l ↔ ¬ EachBitOnce l := by
  constructor
  · intro hdefect h
    cases hdefect with
    | inverted r hr hlt =>
      have hle := h.ordered r hr
      omega
    | outside r k hr hcov hk =>
      have hle := h.within r hr k hcov
      omega
    | gap k hk hnone =>
      obtain ⟨r, ⟨hr, hcov⟩, -⟩ := h.one k hk
      rw [hnone r hr] at hcov
      cases hcov
    | overlap r s k hr hs hne hrk hsk => exact hne (h.eq_of_covers hr hs hrk hsk)
  · intro h
    by_contra hsound
    refine h ⟨fun r hr => ?_, fun r hr k hcov => ?_, fun k hk => ?_⟩
    · by_contra hlt
      exact hsound (.inverted r hr (by omega))
    · by_contra hk
      exact hsound (.outside r k hr hcov (by omega))
    · have hcovered : ∃ r ∈ l, r.covers k = true := by
        by_contra hnone
        refine hsound (.gap k hk fun r hr => ?_)
        rw [← Bool.not_eq_true]
        exact fun hcov => hnone ⟨r, hr, hcov⟩
      obtain ⟨r, hr, hcov⟩ := hcovered
      refine ⟨r, ⟨hr, hcov⟩, fun s hs => ?_⟩
      by_contra hne
      exact hsound (.overlap s r k hs.1 hr hne hs.2 hcov)

/-- Pieces are accepted exactly if every bit of the word is in one range, and then one hybrid word is
    built that has them; they are refused exactly if their ranges have a defect. -/
theorem pieces_make_a_word_iff_each_bit_has_one_range (pieces : Pieces) (t : Table) :
    (pieces.isPartition = true ↔ EachBitOnce pieces.keys) ∧
    ((∃ build, Build.checkedHybrid pieces = .ok build) ↔ EachBitOnce pieces.keys) ∧
    ((Build.checkedHybrid pieces).map (· t) =
      .ok (t.size, t.push ⟨32, .hybrid pieces, pieces.isSymbolic t, pieces.known t⟩) ↔ EachBitOnce pieces.keys) ∧
    (Build.checkedHybrid pieces = .error .brokenPartition ↔ Defect pieces.keys) := by
  refine ⟨isPartition_iff_eachBitOnce, ?_⟩
  rw [defect_iff, ← isPartition_iff_eachBitOnce]
  by_cases tiles : pieces.isPartition = true
  · have hbuild : Build.hybrid pieces tiles t =
        (t.size, t.push ⟨32, .hybrid pieces, pieces.isSymbolic t, pieces.known t⟩) := rfl
    simp [Build.checkedHybrid_of_isPartition tiles, Except.map, hbuild, tiles]
  · simp [Build.checkedHybrid_of_not_isPartition tiles, Except.map, tiles]

-- Two ranges with the same start are told apart by their ends, and one of them is too many.
example : isPartition (.ofList [(⟨8, 31⟩, 0), (⟨0, 7⟩, 1)]) = true ∧
    isPartition (.ofList [(⟨8, 31⟩, 0), (⟨0, 7⟩, 1), (⟨0, 31⟩, 2)]) = false := by decide

end Pieces

end TraceReplay
