/-
  TraceReplay.Proofs.Partition — ranges that tile a word.

  Ranges that tile the bits from some position on lie in the word, each behind the one before
  it (`mem_tile`), and cover every bit from there (`exists_covers`), no bit twice. So if each
  of them contributes bits of its own only, a bit of the union of all contributions is that of
  the one range that covers it (`getLsbD_union`).

  Pieces tile the word exactly if every bit of it is covered by one range and no other
  (`isPartition_iff`), whatever the order in which they were put together.
-/

import TraceReplay.Proofs.BitFields
import TraceReplay.Proofs.SortedMap
import TraceReplay.Value.Hybrid

namespace TraceReplay

theorem BitRange.low_le_of_compare_lt {r s : BitRange} (h : compare r s = .lt) : r.low ≤ s.low := by
  have h : (compare r.low s.low).then (compare r.high s.high) = .lt := h
  cases hlow : compare r.low s.low with
  | lt => exact Nat.le_of_lt (Nat.compare_eq_lt.mp hlow)
  | eq => exact Nat.le_of_eq (Nat.compare_eq_eq.mp hlow)
  | gt => rw [hlow] at h; cases h

namespace Pieces

theorem tile_le {l : List BitRange} {next : Nat} (h : tile next l = true) : next ≤ 32 := by
  induction l generalizing next with
  | nil => simp only [tile, beq_iff_eq] at h; omega
  | cons a l ih =>
    simp only [tile, Bool.and_eq_true, beq_iff_eq, decide_eq_true_eq] at h
    have := ih h.2
    omega

theorem mem_tile {l : List BitRange} {next : Nat} (h : tile next l = true) {r : BitRange} (hr : r ∈ l) :
    next ≤ r.low ∧ r.InWord := by
  induction l generalizing next with
  | nil => cases hr
  | cons a l ih =>
    simp only [tile, Bool.and_eq_true, beq_iff_eq, decide_eq_true_eq] at h
    obtain ⟨⟨hlow, hle⟩, hrest⟩ := h
    rcases List.mem_cons.mp hr with rfl | hr
    · have := tile_le hrest
      exact ⟨by omega, hle, by omega⟩
    · have := ih hrest hr
      exact ⟨by omega, this.2⟩

theorem exists_covers {l : List BitRange} {next : Nat} (h : tile next l = true) {k : Nat}
    (hk : next ≤ k) (hk' : k < 32) : ∃ r ∈ l, r.covers k = true := by
  induction l generalizing next with
  | nil => simp only [tile, beq_iff_eq] at h; omega
  | cons a l ih =>
    simp only [tile, Bool.and_eq_true, beq_iff_eq, decide_eq_true_eq] at h
    obtain ⟨⟨hlow, -⟩, hrest⟩ := h
    by_cases hka : k ≤ a.high
    · exact ⟨a, by simp, by simp [BitRange.covers, hka, show a.low ≤ k by omega]⟩
    · obtain ⟨r, hr, hc⟩ := ih hrest (by omega)
      exact ⟨r, by simp [hr], hc⟩

def union (c : BitRange × ValueId → Word) (l : List (BitRange × ValueId)) (acc : Word) : Word :=
  l.foldl (fun word e => word ||| c e) acc

variable {c : BitRange × ValueId → Word} {l : List (BitRange × ValueId)}

theorem getLsbD_union_of_clear {k : Nat} (h : ∀ e ∈ l, (c e).getLsbD k = false) (acc : Word) :
    (union c l acc).getLsbD k = acc.getLsbD k := by
  induction l generalizing acc with
  | nil => rfl
  | cons a l ih =>
    rw [union, List.foldl_cons]
    refine (ih (fun e he => h e (by simp [he])) _).trans ?_
    rw [BitVec.getLsbD_or, h a (by simp), Bool.or_false]

theorem getLsbD_union {next : Nat} (ht : tile next (l.map (·.1)) = true)
    (hc : ∀ e ∈ l, ∀ k, e.1.covers k = false → (c e).getLsbD k = false) {e : BitRange × ValueId}
    (he : e ∈ l) {k : Nat} (hk : e.1.covers k = true) (acc : Word) :
    (union c l acc).getLsbD k = (acc.getLsbD k || (c e).getLsbD k) := by
  induction l generalizing next acc with
  | nil => cases he
  | cons a l ih =>
    simp only [List.map_cons, tile, Bool.and_eq_true, beq_iff_eq, decide_eq_true_eq] at ht
    obtain ⟨⟨hlow, hle⟩, hrest⟩ := ht
    rw [union, List.foldl_cons]
    have hk' := hk
    rw [BitRange.covers_iff] at hk'
    rcases List.mem_cons.mp he with rfl | he
    · -- the ranges behind this one start above bit `k`
      refine (getLsbD_union_of_clear (fun e' he' => hc e' (by simp [he']) k ?_) _).trans (BitVec.getLsbD_or ..)
      have := (mem_tile hrest (List.mem_map.mpr ⟨e', he', rfl⟩)).1
      simp only [BitRange.covers, Bool.and_eq_false_iff, decide_eq_false_iff_not]
      omega
    · refine (ih hrest (fun e' he' => hc e' (by simp [he'])) he _).trans ?_
      have := (mem_tile hrest (List.mem_map.mpr ⟨e, he, rfl⟩)).1
      have ha : a.1.covers k = false := by
        simp only [BitRange.covers, Bool.and_eq_false_iff, decide_eq_false_iff_not]
        omega
      rw [BitVec.getLsbD_or, hc a (by simp) k ha, Bool.or_false]

/-- Contributions that are parts of one word make up that word. -/
theorem union_eq {pieces : Pieces} (ht : pieces.isPartition = true) {w : Word}
    (h : ∀ e ∈ pieces.entries, ∀ k, (c e).getLsbD k = (e.1.covers k && w.getLsbD k)) :
    union c pieces.entries 0 = w := by
  refine BitVec.eq_of_getLsbD_eq fun k hk => ?_
  obtain ⟨r, hr, hcov⟩ := exists_covers ht (Nat.zero_le k) hk
  obtain ⟨e, he, rfl⟩ := List.mem_map.mp hr
  have hclear : ∀ e ∈ pieces.entries, ∀ k, e.1.covers k = false → (c e).getLsbD k = false := by
    intro e he k hk
    rw [h e he, hk, Bool.false_and]
  rw [getLsbD_union ht hclear he hcov, h e he, hcov]
  simp

/-! ## Partitions by their bits -/

/-- The ranges lie in the word from `next` on, and every bit from there is covered by exactly
    one of them. -/
structure Partitions (next : Nat) (l : List BitRange) : Prop where
  inWord : ∀ r ∈ l, next ≤ r.low ∧ r.InWord
  covered : ∀ k, next ≤ k → k < 32 → ∃ r ∈ l, r.covers k = true
  once : ∀ r ∈ l, ∀ s ∈ l, ∀ k, r.covers k = true → s.covers k = true → r = s

theorem partitions_of_tile {l : List BitRange} {next : Nat} (h : tile next l = true) : Partitions next l := by
  refine ⟨fun r hr => mem_tile h hr, fun k hk hk' => exists_covers h hk hk', ?_⟩
  induction l generalizing next with
  | nil => intro r hr; cases hr
  | cons a l ih =>
    simp only [tile, Bool.and_eq_true, beq_iff_eq, decide_eq_true_eq] at h
    have behind (r : BitRange) (hr : r ∈ l) (k : Nat) (ha : a.covers k = true) : r.covers k = false := by
      have := (mem_tile h.2 hr).1
      rw [BitRange.covers_iff] at ha
      rw [BitRange.covers_eq_false_iff]
      omega
    intro r hr s hs k hrk hsk
    rcases List.mem_cons.mp hr with ha | hr'
    · rcases List.mem_cons.mp hs with hb | hs'
      · rw [ha, hb]
      · rw [behind s hs' k (ha ▸ hrk)] at hsk; cases hsk
    · rcases List.mem_cons.mp hs with hb | hs'
      · rw [behind r hr' k (hb ▸ hsk)] at hrk; cases hrk
      · exact ih h.2 r hr' s hs' k hrk hsk

/-- In ascending order, ranges that partition the bits from `next` on tile them: the first one
    must start at `next`, and the others behind its end. -/
theorem tile_of_partitions {l : List BitRange} {next : Nat} (hl : l.Pairwise (fun r s => compare r s = .lt))
    (hnext : next ≤ 32) (h : Partitions next l) : tile next l = true := by
  induction l generalizing next with
  | nil =>
    rw [tile, beq_iff_eq]
    by_cases hlt : next < 32
    · obtain ⟨r, hr, -⟩ := h.covered next (Nat.le_refl _) hlt
      cases hr
    · omega
  | cons a l ih =>
    obtain ⟨hhead, htail⟩ := List.pairwise_cons.mp hl
    obtain ⟨hlow, hle, hhigh⟩ := h.inWord a (by simp)
    have covers_low {r : BitRange} (hr : r.InWord) : r.covers r.low = true := by
      rw [BitRange.covers_iff]
      exact ⟨Nat.le_refl _, hr.1⟩
    have hstart : a.low = next := by
      -- some range covers bit `next`, and none of the others starts before this one
      obtain ⟨r, hr, hcov⟩ := h.covered next (Nat.le_refl _) (by omega)
      rw [BitRange.covers_iff] at hcov
      rcases List.mem_cons.mp hr with rfl | hr
      · omega
      · have := BitRange.low_le_of_compare_lt (hhead r hr)
        omega
    have hbehind (r : BitRange) (hr : r ∈ l) : a.high + 1 ≤ r.low := by
      by_contra hlt
      have hin := (h.inWord r (by simp [hr])).2
      have := BitRange.low_le_of_compare_lt (hhead r hr)
      have ha : a.covers r.low = true := by rw [BitRange.covers_iff]; omega
      exact SortedMap.ne_of_compare_lt (hhead r hr) (h.once a (by simp) r (by simp [hr]) _ ha (covers_low hin))
    have hrest : Partitions (a.high + 1) l := by
      refine ⟨fun r hr => ⟨hbehind r hr, (h.inWord r (by simp [hr])).2⟩, fun k hk hk' => ?_, ?_⟩
      · obtain ⟨r, hr, hcov⟩ := h.covered k (by omega) hk'
        rcases List.mem_cons.mp hr with rfl | hr
        · rw [BitRange.covers_iff] at hcov
          omega
        · exact ⟨r, hr, hcov⟩
      · intro r hr s hs
        exact h.once r (by simp [hr]) s (by simp [hs])
    simp only [tile, Bool.and_eq_true, beq_iff_eq, decide_eq_true_eq]
    exact ⟨⟨hstart, hle⟩, ih htail (by omega) hrest⟩

theorem isPartition_iff (pieces : Pieces) : pieces.isPartition = true ↔ Partitions 0 pieces.keys := by
  refine ⟨partitions_of_tile, tile_of_partitions ?_ (by decide)⟩
  exact List.pairwise_map.mpr pieces.ascending

end Pieces

end TraceReplay
