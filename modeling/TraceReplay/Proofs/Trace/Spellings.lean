/-
  TraceReplay.Proofs.Trace.Spellings — the ways in which a structure may be written.

  A structure is an object whose members stand in any order, with members of other names
  between them, or an array of its fields in order; a field that has its default may be left
  out, in an array only from the end (`Spelling`). A structure is read from exactly its
  spellings (`spelling_iff`): in each of them every field is found with its value or, if it
  may be left out, not at all (`Finds`).
-/

import Mathlib.Data.List.Nodup
import Mathlib.Data.List.Perm.Basic
import TraceReplay.Trace.Record

namespace TraceReplay

namespace Record

/-- The ways to write a structure with the fields, some of which may be left out. -/
inductive Spelling (layout : Layout) (fields : List (String × Json)) (omissible : List String) : Json → Prop
  /-- The given fields and others that the structure does not have, in any order. -/
  | object {given others members : List (String × Json)} : given.Sublist fields →
      (∀ f ∈ fields, f ∈ given ∨ f.1 ∈ omissible) → (∀ f ∈ others, f.1 ∉ fields.map (·.1)) →
      members.Perm (given ++ others) → Spelling layout fields omissible (Json.ofFields members)
  /-- The first fields in order, where fields may be given by position. -/
  | array (count : Nat) : layout = .positional → (∀ f ∈ fields.drop count, f.1 ∈ omissible) →
      Spelling layout fields omissible (.array ((fields.take count).map (·.2)))

variable {layout : Layout} {fields found : List (String × Json)} {omissible : List String} {name : String} {j : Json}

/-- All fields in order are a spelling. -/
theorem spelling_ofFields (layout : Layout) (fields : List (String × Json)) (omissible : List String) :
    Spelling layout fields omissible (Json.ofFields fields) :=
  @Spelling.object _ _ _ fields [] _ (.refl fields) (fun _ hf => .inl hf) (fun _ hf => nomatch hf)
    (by rw [List.append_nil])

def Finds (fields : List (String × Json)) (omissible : List String) (found : List (String × Json)) : Prop :=
  ∀ f ∈ fields, found.lookup f.1 = some f.2 ∨ f.1 ∈ omissible ∧ found.lookup f.1 = none

/-! ## Looking up a name -/

theorem lookup_of_mem (hnodup : (found.map (·.1)).Nodup) (h : (name, j) ∈ found) : found.lookup name = some j := by
  induction found with
  | nil => cases h
  | cons f found ih =>
    obtain ⟨hnot, hrest⟩ := List.nodup_cons.mp hnodup
    rcases List.mem_cons.mp h with rfl | h
    · rw [List.lookup_cons_self]
    · have hne : name ≠ f.1 := by
        rintro rfl
        exact hnot (List.mem_map.mpr ⟨_, h, rfl⟩)
      rw [List.lookup_cons, beq_false_of_ne hne]
      exact ih hrest h

theorem lookup_of_not_mem (h : name ∉ found.map (·.1)) : found.lookup name = none := by
  rw [List.lookup_eq_none_iff]
  intro f hf
  rw [bne_iff_ne]
  rintro rfl
  exact h (List.mem_map.mpr ⟨f, hf, rfl⟩)

/-- If only fields are found, and under each name once, what is missing must be allowed to be. -/
theorem finds_of_subset (hnodup : (found.map (·.1)).Nodup) (hunique : (fields.map (·.1)).Nodup)
    (hsub : ∀ f ∈ found, f ∈ fields) (hall : ∀ f ∈ fields, f ∈ found ∨ f.1 ∈ omissible) :
    Finds fields omissible found := by
  intro f hf
  by_cases hin : f.1 ∈ found.map (·.1)
  · obtain ⟨g, hg, hname⟩ := List.mem_map.mp hin
    obtain rfl : g = f := List.inj_on_of_nodup_map hunique (hsub g hg) hf hname
    exact .inl (lookup_of_mem hnodup hg)
  · have homit : f.1 ∈ omissible := (hall f hf).resolve_left fun hg => hin (List.mem_map.mpr ⟨f, hg, rfl⟩)
    exact .inr ⟨homit, lookup_of_not_mem hin⟩

/-- What stands under the name of a field is that field. -/
theorem Finds.eq {f g : String × Json} (h : Finds fields omissible found) (hnodup : (found.map (·.1)).Nodup)
    (hf : f ∈ fields) (hg : g ∈ found) (hname : g.1 = f.1) : g = f := by
  have hlookup : found.lookup f.1 = some g.2 := lookup_of_mem hnodup (hname ▸ hg)
  rcases h f hf with hvalue | ⟨-, hnone⟩
  · exact Prod.ext hname (Option.some.inj (hlookup.symm.trans hvalue))
  · exact absurd (hlookup.symm.trans hnone) (Option.some_ne_none _)

/-! ## Objects -/

theorem mapM_members (members : List (String × Json)) :
    (members.map fun f => ((some f.1 : Option String), f.2)).mapM (fun m => m.1.map (·, m.2)) = some members := by
  induction members with
  | nil => rfl
  | cons f members ih => rw [List.map_cons, List.mapM_cons, ih]; rfl

theorem eq_map_of_mapM {members : List (Option String × Json)} {named : List (String × Json)}
    (h : members.mapM (fun m => m.1.map (·, m.2)) = some named) : members = named.map fun f => (some f.1, f.2) := by
  induction members generalizing named with
  | nil =>
    cases h
    rfl
  | cons m members ih =>
    obtain ⟨key, value⟩ := m
    cases key with
    | none => cases h
    | some key =>
      rw [List.mapM_cons] at h
      obtain ⟨f, hf, rest, hrest, heq⟩ : ∃ f, some (key, value) = some f ∧ ∃ rest,
          members.mapM (fun m => m.1.map (·, m.2)) = some rest ∧ some (f :: rest) = some named := by
        simpa [Option.bind_eq_some_iff] using h
      cases hf
      cases heq
      rw [List.map_cons, ← ih hrest]

/-- An object is read as its known members if each of them stands once. -/
theorem namedFields?_eq_some {names : List String} {members : List (Option String × Json)} :
    namedFields? names members = some found ↔ ∃ named : List (String × Json),
      members = named.map (fun f => (some f.1, f.2)) ∧
      found = named.filter (fun f => names.contains f.1) ∧ (found.map (·.1)).Nodup := by
  unfold namedFields?
  constructor
  · intro h
    obtain ⟨named, hnamed, h⟩ := Option.bind_eq_some_iff.mp h
    dsimp only at h
    split at h
    · rename_i hnodup
      cases h
      exact ⟨named, eq_map_of_mapM hnamed, rfl, hnodup⟩
    · cases h
  · rintro ⟨named, rfl, rfl, hnodup⟩
    rw [mapM_members]
    exact if_pos hnodup

/-- The known members of an object that holds some fields and others. -/
theorem filter_known_perm {given others members : List (String × Json)} (hgiven : given.Sublist fields)
    (hothers : ∀ f ∈ others, f.1 ∉ fields.map (·.1)) (hmembers : members.Perm (given ++ others)) :
    (members.filter fun f => (fields.map (·.1)).contains f.1).Perm given := by
  have hkeep : given.filter (fun f => (fields.map (·.1)).contains f.1) = given :=
    List.filter_eq_self.mpr fun f hf => List.contains_iff_mem.mpr (List.mem_map.mpr ⟨f, hgiven.subset hf, rfl⟩)
  have hdrop : others.filter (fun f => (fields.map (·.1)).contains f.1) = [] :=
    List.filter_eq_nil_iff.mpr fun f hf hin => hothers f hf (List.contains_iff_mem.mp hin)
  have hfilter := hmembers.filter fun f => (fields.map (·.1)).contains f.1
  rwa [List.filter_append, hkeep, hdrop, List.append_nil] at hfilter

theorem Finds.perm_given (h : Finds fields omissible found) (hnodup : (found.map (·.1)).Nodup)
    (hunique : (fields.map (·.1)).Nodup) (hknown : ∀ g ∈ found, g.1 ∈ fields.map (·.1)) :
    found.Perm (fields.filter fun f => (found.map (·.1)).contains f.1) := by
  refine (List.perm_ext_iff_of_nodup hnodup.of_map (hunique.of_map.filter _)).mpr fun g => ?_
  rw [List.mem_filter, List.contains_iff_mem]
  constructor
  · intro hg
    obtain ⟨f, hf, hname⟩ := List.mem_map.mp (hknown g hg)
    obtain rfl := h.eq hnodup hf hg hname.symm
    exact ⟨hf, List.mem_map.mpr ⟨g, hg, rfl⟩⟩
  · rintro ⟨hg, hname⟩
    obtain ⟨f, hf, hname⟩ := List.mem_map.mp hname
    rwa [← h.eq hnodup hg hf hname]

theorem spelling_object {members : List (Option String × Json)} (hunique : (fields.map (·.1)).Nodup)
    (hfound : namedFields? (fields.map (·.1)) members = some found) (hfinds : Finds fields omissible found) :
    Spelling layout fields omissible (.object members) := by
  obtain ⟨named, rfl, hfilter, hnodup⟩ := namedFields?_eq_some.mp hfound
  have hknown : ∀ g ∈ found, g.1 ∈ fields.map (·.1) := by
    rw [hfilter]
    exact fun g hg => List.contains_iff_mem.mp (List.mem_filter.mp hg).2
  have hperm := hfinds.perm_given hnodup hunique hknown
  have hsplit := List.filter_append_perm (fun f => (fields.map (·.1)).contains f.1) named
  rw [← hfilter] at hsplit
  refine .object List.filter_sublist (fun f hf => ?_) (fun f hf hin => ?_) (hsplit.symm.trans (hperm.append_right _))
  · rcases hfinds f hf with hvalue | ⟨homit, -⟩
    · obtain ⟨_, _, hsplit, -⟩ := List.lookup_eq_some_iff.mp hvalue
      have hin : f ∈ found := by
        rw [hsplit]
        exact List.mem_append_right _ List.mem_cons_self
      exact .inl (hperm.mem_iff.mp hin)
    · exact .inr homit
  · have hunknown := (List.mem_filter.mp hf).2
    rw [List.contains_iff_mem.mpr hin] at hunknown
    cases hunknown

/-! ## Arrays -/

theorem zip_take (fields : List (String × Json)) (count : Nat) :
    (fields.map (·.1)).zip ((fields.take count).map (·.2)) = fields.take count := by
  induction fields generalizing count with
  | nil => simp
  | cons f fields ih =>
    cases count with
    | zero => rfl
    | succ count =>
      rw [List.take_succ_cons, List.map_cons, List.map_cons, List.zip_cons_cons, ih]

theorem eq_take_of_finds {items : List Json} (hunique : (fields.map (·.1)).Nodup)
    (hlength : items.length ≤ fields.length) (h : Finds fields omissible ((fields.map (·.1)).zip items)) :
    items = (fields.take items.length).map (·.2) ∧ ∀ f ∈ fields.drop items.length, f.1 ∈ omissible := by
  induction fields generalizing items with
  | nil => simp_all
  | cons f fields ih =>
    cases items with
    | nil =>
      refine ⟨rfl, fun g hg => ?_⟩
      simpa using h g hg
    | cons item items =>
      obtain ⟨hnot, hrest⟩ := List.nodup_cons.mp hunique
      have htail : Finds fields omissible ((fields.map (·.1)).zip items) := by
        intro g hg
        have hne : g.1 ≠ f.1 := fun heq => hnot (List.mem_map.mpr ⟨g, hg, heq⟩)
        have := h g (List.mem_cons_of_mem _ hg)
        rwa [List.map_cons, List.zip_cons_cons, List.lookup_cons, beq_false_of_ne hne] at this
      obtain ⟨hitems, hdrop⟩ := ih hrest (Nat.le_of_succ_le_succ hlength) htail
      have hitem : item = f.2 := by
        simpa using h f List.mem_cons_self
      refine ⟨?_, hdrop⟩
      rw [List.length_cons, List.take_succ_cons, List.map_cons, ← hitem, ← hitems]

/-! ## Reading a structure -/

theorem fields?_eq_payload? (names : List String) (j : Json) : fields? names j = payload? .positional names j := by
  cases j <;> rfl

/-- A structure is read from its spellings and from nothing else. -/
theorem spelling_iff (hunique : (fields.map (·.1)).Nodup) :
    Spelling layout fields omissible j ↔
      ∃ found, payload? layout (fields.map (·.1)) j = some found ∧ Finds fields omissible found := by
  constructor
  · intro h
    cases h with
    | @object given others members hgiven hall hothers hmembers =>
      have hperm := filter_known_perm hgiven hothers hmembers
      have hnodup := (hperm.map (·.1)).nodup_iff.mpr ((hgiven.map (·.1)).nodup hunique)
      refine ⟨_, namedFields?_eq_some.mpr ⟨members, rfl, rfl, hnodup⟩, ?_⟩
      refine finds_of_subset hnodup hunique (fun f hf => hgiven.subset (hperm.mem_iff.mp hf)) fun f hf => ?_
      exact (hall f hf).imp_left hperm.mem_iff.mpr
    | array count hlayout hdrop =>
      subst hlayout
      refine ⟨fields.take count, ?_, ?_⟩
      · have hlength : ((fields.take count).map (·.2)).length ≤ (fields.map (·.1)).length := by
          rw [List.length_map, List.length_take, List.length_map]
          exact Nat.min_le_right _ _
        rw [payload?, positionalFields?, if_pos hlength, zip_take]
      · have hnodup := ((List.take_sublist count fields).map (·.1)).nodup hunique
        refine finds_of_subset hnodup hunique (fun f => List.mem_of_mem_take) fun f hf => ?_
        rw [← List.take_append_drop count fields] at hf
        exact (List.mem_append.mp hf).imp_right (hdrop f)
  · rintro ⟨found, hfound, hfinds⟩
    cases j with
    | object members => exact spelling_object hunique hfound hfinds
    | array items =>
      cases layout with
      | named => cases hfound
      | positional =>
        rw [payload?, positionalFields?] at hfound
        split at hfound
        · rename_i hlength
          cases hfound
          rw [List.length_map] at hlength
          obtain ⟨hitems, hdrop⟩ := eq_take_of_finds hunique hlength hfinds
          rw [hitems]
          exact .array items.length rfl hdrop
        · cases hfound
    | _ => cases hfound

end Record

end TraceReplay
