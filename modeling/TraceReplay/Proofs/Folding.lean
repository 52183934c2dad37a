/-
  TraceReplay.Proofs.Folding — what is settled when a value is built is what evaluation finds.

  A value is built with two facts that later code reads instead of asking again: whether it
  depends on an input, and its word if that is known. Proved, of every value of every table that
  constructions build (`recorded_facts_are_exact`):
  - it counts as symbolic exactly if it has an input (`WellFormed.isSymbolic_iff`);
  - its word is known exactly if it evaluates to that word with nothing bound. In particular a
    value of known parts whose operation has no rule has no input and no word either.
-/

import TraceReplay.Proofs.Evaluation

namespace TraceReplay

/-! ## Dependence on inputs -/

theorem Node.isSymbolic_iff {t : Table} {n : Node} :
    n.isSymbolic t = true ↔ n = .symbol ∨ ∃ o ∈ n.operands, t.isSymbolic o = true := by
  cases n <;> simp [isSymbolic, operands, Pieces.isSymbolic]

namespace Table

variable {t : Table} {root : Nat}

theorem WellFormed.isSymbolic_iff (ht : t.WellFormed) (hroot : root < t.size) :
    t.isSymbolic root = true ↔ t.inputs root ≠ [] := by
  induction root using Nat.strongRecOn with
  | ind root ih =>
    obtain ⟨v, hv⟩ := get?_of_lt hroot
    have hlt := ht.operands_lt hv
    have hbelow (o : ValueId) (ho : o ∈ v.node.operands) : t.isSymbolic o = true ↔ ∃ s, s ∈ t.inputs o := by
      rw [ih o (hlt o ho) (Nat.lt_trans (hlt o ho) hroot), ne_eq, List.eq_nil_iff_forall_not_mem, not_forall_not]
    rw [ht.isSymbolic_eq hv, Node.isSymbolic_iff, ne_eq, List.eq_nil_iff_forall_not_mem, not_forall_not]
    simp only [ht.mem_inputs hv]
    constructor
    · rintro (hn | ⟨o, ho, hs⟩)
      · exact ⟨root, .inl ⟨rfl, hn⟩⟩
      · obtain ⟨s, hs⟩ := (hbelow o ho).mp hs
        exact ⟨s, .inr ⟨o, ho, hs⟩⟩
    · rintro ⟨s, ⟨-, hn⟩ | ⟨o, ho, hs⟩⟩
      · exact .inl hn
      · exact .inr ⟨o, ho, (hbelow o ho).mpr ⟨s, hs⟩⟩

end Table

/-! ## Known words -/

theorem toOption_mapM {f : ValueId → Except Opcode Word} (ids : List ValueId) :
    ids.mapM (fun o => (f o).toOption) = ((ids.map f).mapM id).toOption := by
  induction ids with
  | nil => rfl
  | cons o ids ih =>
    rw [List.map_cons, List.mapM_cons, List.mapM_cons, ih]
    cases f o with
    | error opcode => rfl
    | ok w => cases (ids.map f).mapM id <;> rfl

theorem toOption_foldlM_place {f : ValueId → Except Opcode Word} (l : List (BitRange × ValueId)) (acc : Word) :
    l.foldlM (fun word e => (f e.2).toOption.map (word ||| e.1.place ·)) acc =
      Except.toOption
        ((l.map fun e => (e.1, f e.2)).foldlM (fun word p => p.2.map (word ||| p.1.place ·)) acc) := by
  induction l generalizing acc with
  | nil => rfl
  | cons e l ih =>
    rw [List.map_cons, List.foldlM_cons, List.foldlM_cons]
    cases f e.2 with
    | error opcode => rfl
    | ok w => exact ih (acc ||| e.1.place w)

namespace Table

variable {t : Table} {root : Nat}

/-- Without an input a value is known exactly as it evaluates. -/
theorem WellFormed.known_eq_toOption (ht : t.WellFormed) (σ : Assignment) (hroot : root < t.size)
    (hs : t.isSymbolic root = false) : t.known root = (t.eval σ root).toOption := by
  induction root using Nat.strongRecOn with
  | ind root ih =>
    obtain ⟨v, hv⟩ := get?_of_lt hroot
    have hlt := ht.operands_lt hv
    have hnode : ¬(v.node = .symbol ∨ ∃ o ∈ v.node.operands, t.isSymbolic o = true) := by
      rw [← Node.isSymbolic_iff, ← ht.isSymbolic_eq hv, hs]
      exact Bool.false_ne_true
    have hbelow (o : ValueId) (ho : o ∈ v.node.operands) : t.known o = (t.eval σ o).toOption := by
      refine ih o (hlt o ho) (Nat.lt_trans (hlt o ho) hroot) ?_
      exact Bool.eq_false_iff.mpr fun hs => hnode (.inr ⟨o, ho, hs⟩)
    rw [ht.known_eq hv, eval, ht.interpret_value _ hv]
    unfold Interpretation.value
    cases hn : v.node with
    | symbol => exact absurd (.inl hn) hnode
    | constant bits => rfl
    | hybrid pieces =>
      rw [hn] at hbelow
      refine Eq.trans ?_ (toOption_foldlM_place pieces.entries 0)
      exact Pieces.foldlM_place_congr (f := t.known) (g := fun o => (t.eval σ o).toOption) _ _ fun e he =>
        hbelow e.2 (List.mem_map.mpr ⟨e, he, rfl⟩)
    | operation opcode operands =>
      rw [hn] at hbelow
      have hargs : operands.mapM t.known = ((operands.map (t.eval σ)).mapM id).toOption :=
        (mapM_congr_left hbelow).trans (toOption_mapM operands)
      show (operands.mapM t.known).bind opcode.apply = Except.toOption ((operands.map (t.eval σ)).mapM id >>= _)
      rw [hargs]
      cases (operands.map (t.eval σ)).mapM id with
      | error opcode => rfl
      | ok ws =>
        dsimp only [Except.toOption, Option.bind_some, bind, Except.bind]
        cases opcode.apply ws <;> rfl

/-- With nothing bound, a value evaluates if it has no inputs. -/
theorem evaluate_empty_eq_ok_iff {k : Word} :
    t.evaluate root .empty = .ok k ↔ t.inputs root = [] ∧ t.eval (Bindings.assignment .empty) root = .ok k := by
  have hunbound : (t.inputs root).filter (!(SortedMap.empty : Bindings).contains ·) = t.inputs root :=
    List.filter_eq_self.mpr fun _ _ => rfl
  have hunexpected : ((SortedMap.empty : Bindings).keys.filter (!(t.inputs root).contains ·)).length = 0 := rfl
  rw [evaluate]
  simp only [hunbound, hunexpected, Nat.add_zero, gt_iff_lt, List.length_pos_iff]
  by_cases hnil : t.inputs root = []
  · rw [if_neg (not_not.mpr hnil)]
    cases t.eval (Bindings.assignment .empty) root <;> simp [hnil]
  · rw [if_pos hnil]
    simp [hnil]

/-- Whatever is built from nothing, a value counts as symbolic exactly if it has an input, and its
    word is known exactly if it evaluates to it with nothing bound. -/
theorem recorded_facts_are_exact (cs : List Construction) (h : empty.Admits cs) (id : ValueId)
    (hid : id < (empty.construct cs).size) :
    ((empty.construct cs).isSymbolic id = true ↔ (empty.construct cs).inputs id ≠ []) ∧
    ∀ k, (empty.construct cs).known id = some k ↔ (empty.construct cs).evaluate id .empty = .ok k := by
  have ht := construct_wellFormed wellFormed_empty h
  have hsymbolic := ht.isSymbolic_iff hid
  refine ⟨hsymbolic, fun k => ?_⟩
  rw [evaluate_empty_eq_ok_iff]
  cases hs : (empty.construct cs).isSymbolic id with
  | true =>
    rw [ht.known_of_isSymbolic hs]
    exact ⟨nofun, fun hk => absurd hk.1 (hsymbolic.mp hs)⟩
  | false =>
    have hinputs : (empty.construct cs).inputs id = [] := by
      by_contra hne
      exact Bool.false_ne_true (hs.symm.trans (hsymbolic.mpr hne))
    rw [ht.known_eq_toOption (Bindings.assignment .empty) hid hs]
    cases (empty.construct cs).eval (Bindings.assignment .empty) id <;> simp [hinputs, Except.toOption]

def partlyKnown : List Construction :=
  [.symbol 8, .bits ⟨0xaabbcc08, ⟨8, 31⟩⟩, .hybrid (.ofList [(⟨0, 7⟩, 0), (⟨8, 31⟩, 1)]), .unary .dec 1, .binary .add 1 1]

/-- The word with the byte has an input; the operation without a rule has none, and no word. -/
theorem a_word_without_input_may_be_unknown :
    empty.Admits partlyKnown ∧
    (2 < (empty.construct partlyKnown).size ∧ (empty.construct partlyKnown).inputs 2 ≠ []) ∧
    (3 < (empty.construct partlyKnown).size ∧ (empty.construct partlyKnown).inputs 3 = [] ∧
      ∀ k, (empty.construct partlyKnown).evaluate 3 .empty ≠ .ok k) ∧
    4 < (empty.construct partlyKnown).size ∧ (empty.construct partlyKnown).evaluate 4 .empty = .ok 0x1557798 := by
  have hadmits : empty.Admits partlyKnown := ⟨by decide, by decide, by decide, by decide, by decide, trivial⟩
  obtain ⟨hword, -⟩ := recorded_facts_are_exact partlyKnown hadmits 2 (by decide)
  obtain ⟨hdec, hdec'⟩ := recorded_facts_are_exact partlyKnown hadmits 3 (by decide)
  obtain ⟨-, hsum⟩ := recorded_facts_are_exact partlyKnown hadmits 4 (by decide)
  refine ⟨hadmits, ⟨by decide, hword.mp (by decide)⟩, ⟨by decide, ?_, fun k hk => ?_⟩, by decide, (hsum _).mp (by decide)⟩
  · exact not_not.mp fun hne => absurd (hdec.mpr hne) (by decide)
  · exact absurd ((hdec' k).mpr hk) (by rw [show (empty.construct partlyKnown).known 3 = none by decide]; nofun)

end Table

end TraceReplay
