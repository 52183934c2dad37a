/-
  TraceReplay.Proofs.SortedMap — sorted maps are finite maps.

  A key has a value exactly if the pair is an entry (`get?_eq_some_iff`), so the laws of the
  operations are stated on entries: what is an entry after an insertion (`mem_insert`), after
  a removal (`mem_erase`) and after removals in a row (`mem_foldl_erase`), and in the map that
  tabulates a function (`mem_ofList_map`).

  Which keys a map has afterwards depends on its keys alone (`keys_insert_congr`,
  `keys_foldl_erase_congr`), and an entry behind all others adds its value at the end
  (`values_insert_last`).
-/

import Mathlib
import TraceReplay.Bits
import TraceReplay.Machine.AddressRange
import TraceReplay.SortedMap

namespace TraceReplay

instance : Std.LawfulEqOrd BitRange where
  eq_of_compare {a b} h := by
    have h : (compareOn BitRange.low a b).then (compareOn BitRange.high a b) = .eq := h
    obtain ⟨hl, hh⟩ := Ordering.then_eq_eq.mp h
    have hl : a.low = b.low := Std.LawfulEqOrd.eq_of_compare hl
    have hh : a.high = b.high := Std.LawfulEqOrd.eq_of_compare hh
    cases a; cases b; simp_all

instance : Std.LawfulEqOrd AddressRange where
  eq_of_compare {a b} h := by
    have h : (compareOn AddressRange.first a b).then (compareOn AddressRange.last a b) = .eq := h
    obtain ⟨hf, hl⟩ := Ordering.then_eq_eq.mp h
    have hf : a.first = b.first := Std.LawfulEqOrd.eq_of_compare hf
    have hl : a.last = b.last := Std.LawfulEqOrd.eq_of_compare hl
    cases a; cases b; simp_all

namespace SortedMap

variable {κ ν : Type} [Ord κ]

@[simp] theorem entries_empty : (empty : SortedMap κ ν).entries = [] := rfl

variable [Std.LawfulEqOrd κ]

theorem ne_of_compare_lt {a b : κ} (h : compare a b = .lt) : a ≠ b := by
  rintro rfl
  rw [Std.ReflOrd.compare_self] at h
  cases h

/-- A key has at most one value. -/
theorem value_unique (m : SortedMap κ ν) {k : κ} {v w : ν} (hv : (k, v) ∈ m.entries)
    (hw : (k, w) ∈ m.entries) : v = w := by
  obtain ⟨l, hp⟩ := m
  simp only at hv hw
  induction l with
  | nil => cases hv
  | cons e rest ih =>
    obtain ⟨hhead, htail⟩ := List.pairwise_cons.mp hp
    rcases List.mem_cons.mp hv with ev | mv
    · rcases List.mem_cons.mp hw with ew | mw
      · exact (Prod.mk.inj (ev.trans ew.symm)).2
      · exact absurd (congrArg Prod.fst ev).symm (ne_of_compare_lt (hhead (k, w) mw))
    · rcases List.mem_cons.mp hw with ew | mw
      · exact absurd (congrArg Prod.fst ew).symm (ne_of_compare_lt (hhead (k, v) mv))
      · exact ih htail mv mw

theorem get?_eq_some_iff {m : SortedMap κ ν} {k : κ} {v : ν} :
    m.get? k = some v ↔ (k, v) ∈ m.entries := by
  have found {e : κ × ν} (h : m.entries.find? (fun e => compare k e.1 == .eq) = some e) :
      (k, e.2) ∈ m.entries := by
    have hk := List.find?_some h
    rw [beq_iff_eq, Std.LawfulEqOrd.compare_eq_iff_eq] at hk
    rw [hk]
    exact List.mem_of_find?_eq_some h
  constructor
  · intro h
    obtain ⟨e, he, rfl⟩ := Option.map_eq_some_iff.mp h
    exact found he
  · intro h
    cases hf : m.entries.find? (fun e => compare k e.1 == .eq) with
    | none =>
      have := List.find?_eq_none.mp hf _ h
      simp [Std.ReflOrd.compare_self] at this
    | some e => rw [get?, hf, Option.map_some, m.value_unique (found hf) h]

theorem get?_eq_none_iff {m : SortedMap κ ν} {k : κ} :
    m.get? k = none ↔ ∀ v, (k, v) ∉ m.entries := by
  rw [Option.eq_none_iff_forall_ne_some]
  exact forall_congr' fun v => not_congr get?_eq_some_iff

theorem contains_iff {m : SortedMap κ ν} {k : κ} : m.contains k = true ↔ k ∈ m.keys := by
  rw [contains, Option.isSome_iff_exists, keys]
  simp [get?_eq_some_iff]

theorem mem_insertEntry {k : κ} {v : ν} {l : List (κ × ν)} {e : κ × ν}
    [Std.TransOrd κ] (hp : l.Pairwise (fun a b => compare a.1 b.1 = .lt)) :
    e ∈ insertEntry k v l ↔ e = (k, v) ∨ (e ∈ l ∧ e.1 ≠ k) := by
  induction l with
  | nil => simp [insertEntry]
  | cons a rest ih =>
    obtain ⟨hhead, htail⟩ := List.pairwise_cons.mp hp
    rw [insertEntry]
    split
    · rename_i hlt
      have hne : ∀ b ∈ a :: rest, b.1 ≠ k := by
        intro b hb
        rcases List.mem_cons.mp hb with rfl | hb
        · exact (ne_of_compare_lt hlt).symm
        · exact (ne_of_compare_lt (Std.TransCmp.lt_trans hlt (hhead b hb))).symm
      rw [List.mem_cons]
      exact or_congr_right ⟨fun h => ⟨h, hne e h⟩, And.left⟩
    · rename_i heq
      have hk : k = a.1 := Std.LawfulEqOrd.eq_of_compare heq
      have hne : ∀ b ∈ rest, b.1 ≠ k := fun b hb => hk ▸ (ne_of_compare_lt (hhead b hb)).symm
      rw [List.mem_cons, List.mem_cons, ← hk]
      refine or_congr_right ⟨fun h => ⟨.inr h, hne e h⟩, fun h => ?_⟩
      exact h.1.resolve_left fun he => h.2 (he ▸ hk.symm)
    · rename_i hgt
      have hne : a.1 ≠ k := ne_of_compare_lt (Std.OrientedCmp.lt_of_gt hgt)
      rw [List.mem_cons, List.mem_cons, ih htail]
      grind

variable [Std.TransOrd κ]

@[simp] theorem mem_insert {m : SortedMap κ ν} {k : κ} {v : ν} {e : κ × ν} :
    e ∈ (m.insert k v).entries ↔ e = (k, v) ∨ (e ∈ m.entries ∧ e.1 ≠ k) :=
  mem_insertEntry m.ascending

theorem mem_keys_insert {m : SortedMap κ ν} {k r : κ} {v : ν} :
    r ∈ (m.insert k v).keys ↔ r = k ∨ r ∈ m.keys := by
  simp only [keys, List.mem_map, mem_insert]
  constructor
  · intro h
    obtain ⟨e, rfl | ⟨he, -⟩, rfl⟩ := h
    · exact .inl rfl
    · exact .inr ⟨e, he, rfl⟩
  · intro h
    by_cases hk : r = k
    · exact ⟨(k, v), .inl rfl, hk.symm⟩
    · obtain ⟨e, he, rfl⟩ := h.resolve_left hk
      exact ⟨e, .inr ⟨he, hk⟩, rfl⟩

omit [Std.TransOrd κ] in
@[simp] theorem mem_erase {m : SortedMap κ ν} {k : κ} {e : κ × ν} :
    e ∈ (m.erase k).entries ↔ e ∈ m.entries ∧ e.1 ≠ k := by
  rw [erase, List.mem_filter, bne_iff_ne, ne_eq, Std.LawfulEqOrd.compare_eq_iff_eq, ne_comm]

omit [Std.TransOrd κ] in
theorem mem_foldl_erase {ks : List κ} {m : SortedMap κ ν} {e : κ × ν} :
    e ∈ (ks.foldl (·.erase ·) m).entries ↔ e ∈ m.entries ∧ e.1 ∉ ks := by
  induction ks generalizing m with
  | nil => simp
  | cons k ks ih =>
    rw [List.foldl_cons, ih, mem_erase, List.mem_cons, not_or, and_assoc]

theorem mem_insertMany_map {f : κ → ν} {l : List κ} {m : SortedMap κ ν} {e : κ × ν} :
    e ∈ (m.insertMany (l.map fun k => (k, f k))).entries ↔
      (e.1 ∈ l ∧ e.2 = f e.1) ∨ (e ∈ m.entries ∧ e.1 ∉ l) := by
  induction l generalizing m with
  | nil => simp [insertMany]
  | cons k l ih =>
    have step : m.insertMany ((k :: l).map fun k => (k, f k)) =
        (m.insert k (f k)).insertMany (l.map fun k => (k, f k)) := rfl
    rw [step, ih, mem_insert]
    by_cases hl : e.1 ∈ l
    · simp [hl]
    · by_cases hk : e.1 = k
      · have he : e = (k, f k) ↔ e.2 = f e.1 := by rw [Prod.ext_iff, hk]; simp
        rw [hk] at hl he
        simp [hl, hk, he]
      · have he : e ≠ (k, f k) := fun h => hk (by rw [h])
        simp [hl, hk, he]

theorem mem_ofList_map {f : κ → ν} {l : List κ} {e : κ × ν} :
    e ∈ (ofList (l.map fun k => (k, f k))).entries ↔ e.1 ∈ l ∧ e.2 = f e.1 := by
  rw [ofList, mem_insertMany_map]
  simp

/-! ## Keys and values in order -/

section Order

variable {κ ν μ : Type} [Ord κ]

theorem keys_insertEntry_congr (k : κ) (v : ν) (w : μ) {l : List (κ × ν)} {l' : List (κ × μ)}
    (h : l.map (·.1) = l'.map (·.1)) :
    (insertEntry k v l).map (·.1) = (insertEntry k w l').map (·.1) := by
  induction l generalizing l' with
  | nil =>
    obtain rfl : l' = [] := by simpa using h.symm
    rfl
  | cons e rest ih =>
    obtain ⟨e', rest', rfl⟩ : ∃ e' rest', l' = e' :: rest' := by
      cases l' with
      | nil => simp at h
      | cons e' rest' => exact ⟨e', rest', rfl⟩
    obtain ⟨he, hrest⟩ := List.cons.inj h
    replace he : e.1 = e'.1 := he
    rw [insertEntry, insertEntry, ← he]
    cases compare k e.1 with
    | lt => simp [he, hrest]
    | eq => simp [hrest]
    | gt => simp [he, ih hrest]

theorem keys_insert_congr [Std.TransOrd κ] {m : SortedMap κ ν} {m' : SortedMap κ μ} (h : m.keys = m'.keys)
    (k : κ) (v : ν) (w : μ) : (m.insert k v).keys = (m'.insert k w).keys :=
  keys_insertEntry_congr k v w h

theorem keys_erase (m : SortedMap κ ν) (k : κ) : (m.erase k).keys = m.keys.filter (compare k · != .eq) := by
  rw [keys, keys, List.filter_map]
  rfl

theorem keys_foldl_erase_congr (ks : List κ) {m : SortedMap κ ν} {m' : SortedMap κ μ} (h : m.keys = m'.keys) :
    (ks.foldl (·.erase ·) m).keys = (ks.foldl (·.erase ·) m').keys := by
  induction ks generalizing m m' with
  | nil => exact h
  | cons k ks ih => exact ih (by rw [keys_erase, keys_erase, h])

theorem insertEntry_last {k : κ} {v : ν} {l : List (κ × ν)} (h : ∀ e ∈ l, compare k e.1 = .gt) :
    insertEntry k v l = l ++ [(k, v)] := by
  induction l with
  | nil => rfl
  | cons e rest ih =>
    rw [insertEntry, h e (by simp)]
    exact congrArg (e :: ·) (ih fun e' he' => h e' (by simp [he']))

theorem values_insert_last [Std.TransOrd κ] {m : SortedMap κ ν} {k : κ}
    (h : ∀ e ∈ m.entries, compare k e.1 = .gt) (v : ν) : (m.insert k v).values = m.values ++ [v] := by
  show (insertEntry k v m.entries).map (·.2) = _
  rw [insertEntry_last h, List.map_append]
  rfl

end Order

end SortedMap

end TraceReplay
