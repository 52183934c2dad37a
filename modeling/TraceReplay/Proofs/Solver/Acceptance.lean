/-
  TraceReplay.Proofs.Solver.Acceptance — what the solver refuses, evaluation refuses.

  A term is made of a formula by unfolding all that is shared, and evaluation passes over the table
  once. Each has its own list of opcodes and operand counts that it has a rule for. The lists are
  the same (`ofOperation?_eq_none_iff` beside `Opcode.apply_eq_none_iff`), and both meet the parts of
  a formula in the same order. Where there is a term it has the word of the formula
  (`ofFormula_word`), so where there is none, the opcode that it stops at is met by evaluation first
  too (`ofFormula_error`).

  Proved, of every value of a well-formed table whose inputs are bound and nothing else
  (`a_value_has_a_text_exactly_if_it_has_a_word`): the text and the word fail for the same fault, and
  that names the first operation without a rule, however many there are and however often they are
  used.
-/

import TraceReplay.Proofs.Evaluation
import TraceReplay.Proofs.Solver.Unambiguous

namespace TraceReplay

namespace Solver.Term

variable {σ : Assignment} {f : Formula} {opcode : Opcode}

/-! ## Formulas -/

theorem ofOperation?_eq_none_iff {count : Option Word} {args : List (Term ValueId)} :
    ofOperation? opcode count args = none ↔ opcode.arity? ≠ some args.length := by
  obtain _ | ⟨a, _ | ⟨b, _ | ⟨c, args⟩⟩⟩ := args <;> cases opcode <;> cases count <;>
    simp [ofOperation?, Opcode.arity?]

/-- Pieces are placed from the lowest up to the first that has no term. -/
theorem foldlM_of_ofParts_error {parts : List (BitRange × Formula)} (h : ofParts parts = .error opcode)
    (hparts : ∀ p ∈ parts, ofFormula p.2 = .error opcode → p.2.eval σ = .error opcode) (acc : Word) :
    (parts.map fun p => (p.1, p.2.eval σ)).foldlM (fun word p => p.2.map (word ||| p.1.place ·)) acc =
      .error opcode := by
  induction parts generalizing acc with
  | nil => rw [ofParts] at h; cases h
  | cons p parts ih =>
    obtain ⟨hp, hrest⟩ := List.forall_mem_cons.mp hparts
    rw [ofParts] at h
    rw [List.map_cons, List.foldlM_cons]
    split at h
    · rename_i hterm
      cases h
      rw [hp hterm]
      rfl
    · rename_i term hterm
      rw [ofFormula_word hterm]
      refine ih ?_ hrest _
      cases hparts : ofParts parts with
      | error e => rw [hparts] at h; cases h; rfl
      | ok terms => rw [hparts] at h; cases h

/-- Operands are evaluated from the left up to the first that has no term. -/
theorem mapM_of_ofArgs_error {args : List Formula} (h : ofArgs args = .error opcode)
    (hargs : ∀ a ∈ args, ofFormula a = .error opcode → a.eval σ = .error opcode) :
    (args.map (Formula.eval σ)).mapM id = .error opcode := by
  induction args with
  | nil => rw [ofArgs] at h; cases h
  | cons a args ih =>
    obtain ⟨ha, hrest⟩ := List.forall_mem_cons.mp hargs
    rw [ofArgs] at h
    rw [List.map_cons, List.mapM_cons]
    split at h
    · rename_i hterm
      cases h
      rw [id, ha hterm]
      rfl
    · rename_i term hterm
      cases hargs : ofArgs args with
      | error e =>
        rw [hargs] at h
        cases h
        rw [id, ofFormula_word hterm, ih hargs hrest]
        rfl
      | ok terms => rw [hargs] at h; cases h

/-- A formula without a term evaluates to nothing, and stops at the same opcode. -/
theorem ofFormula_error (h : ofFormula f = .error opcode) : f.eval σ = .error opcode := by
  induction f using Formula.structural generalizing opcode with
  | symbol id width => rw [ofFormula] at h; cases h
  | constant value => rw [ofFormula] at h; cases h
  | hybrid id parts ih =>
    rw [ofFormula] at h
    cases hparts : ofParts parts with
    | ok terms => rw [hparts] at h; cases h
    | error e =>
      rw [hparts] at h
      cases h
      rw [Formula.eval_hybrid]
      exact foldlM_of_ofParts_error hparts (fun p hp hterm => ih p hp hterm) 0
  | operation op args ih =>
    rw [ofFormula] at h
    rw [Formula.eval_operation]
    show ((args.map (Formula.eval σ)).mapM id >>= _) = _
    split at h
    · rename_i hargs
      cases h
      rw [mapM_of_ofArgs_error hargs fun a ha hterm => ih a ha hterm]
      rfl
    · rename_i terms hargs
      split at h
      · cases h
      · -- the operands have words, as many as there are terms
        rename_i hop
        cases h
        have hwords : args.map (Formula.eval σ) = (terms.map (word σ)).map .ok :=
          map_eq_words (ofArgs_inv hargs) fun a _ u hu => ofFormula_word hu
        have hnone : op.apply (terms.map (word σ)) = none := by
          rw [Opcode.apply_eq_none_iff, List.length_map]
          exact ofOperation?_eq_none_iff.mp hop
        rw [mapM_id_eq_ok_iff.mpr hwords]
        simp only [bind, Except.bind, hnone]

theorem ofFormula_error_iff : ofFormula f = .error opcode ↔ f.eval σ = .error opcode := by
  refine ⟨ofFormula_error, fun h => ?_⟩
  cases hterm : ofFormula f with
  | error e => rw [ofFormula_error hterm] at h; cases h; rfl
  | ok term => rw [ofFormula_word hterm] at h; cases h

end Solver.Term

/-! ## Values -/

namespace Table

variable {t : Table} {root : ValueId} {fault : Fault}

theorem solverText_error_iff (t : Table) (root : ValueId) (σ : Assignment) :
    t.solverText root = .error fault ↔ t.outcome σ root = .error fault := by
  have hterm (opcode : Opcode) :
      Solver.Term.ofFormula (t.formula root) = .error opcode ↔ t.eval σ root = .error opcode := by
    rw [Solver.Term.ofFormula_error_iff, eval_formula]
  rw [solverText, solverTerm, outcome]
  cases heval : t.eval σ root with
  | error opcode =>
    rw [(hterm opcode).mpr heval]
    exact ⟨fun htext => by cases htext; rfl, fun hword => by cases hword; rfl⟩
  | ok w =>
    cases hformula : Solver.Term.ofFormula (t.formula root) with
    | error opcode => rw [(hterm opcode).mp hformula] at heval; cases heval
    | ok term =>
      constructor
      · intro htext
        cases htext
      · intro hword
        cases hword

/-- With exactly the inputs of a value bound, evaluation cannot stop at a binding. -/
theorem WellFormed.evaluate_of_bound (ht : t.WellFormed) (hroot : root < t.size) {b : Bindings}
    (hb : ∀ s, s ∈ b.keys ↔ s ∈ t.inputSet root) : t.evaluate root b = t.outcome b.assignment root := by
  have hkeys : {s | s ∈ b.keys} = t.inputSet root := Set.ext hb
  rw [ht.evaluate_eq hroot, hkeys, Set.sdiff_self, Set.ncard_empty]
  rfl

/-- A value of a well-formed table, with its inputs bound and nothing else. Its text fails exactly
    for the faults that evaluation fails for. Such a fault names the first operation without a rule,
    operands before their operation, and there is a text if all operations below have a rule. -/
theorem a_value_has_a_text_exactly_if_it_has_a_word (t : Table) (ht : t.WellFormed) (root : ValueId)
    (hroot : root < t.size) (b : Bindings) (hb : ∀ s, s ∈ b.keys ↔ s ∈ t.inputSet root) :
    (∀ fault, t.solverText root = .error fault ↔ t.evaluate root b = .error fault) ∧
    (∀ fault, t.solverText root = .error fault → ∃ opcode,
      (t.postorder ht root).findSome? t.lacking? = some opcode ∧ fault = .unknownOperation opcode.name) ∧
    ((∃ text, t.solverText root = .ok text) ↔ ∀ id, t.Reaches root id → t.lacking? id = none) := by
  have hsettled := ht.settled_outcome b.assignment hroot
  have hfails (fault : Fault) : t.solverText root = .error fault ↔ t.outcome b.assignment root = .error fault :=
    solverText_error_iff t root b.assignment
  have hrules : (t.postorder ht root).findSome? t.lacking? = none ↔
      ∀ id, t.Reaches root id → t.lacking? id = none := by
    rw [List.findSome?_eq_none_iff]
    exact forall_congr' fun id => imp_congr_left (ht.mem_postorder_iff hroot)
  refine ⟨fun fault => ?_, fun fault htext => ?_, ?_⟩
  · rw [ht.evaluate_of_bound hroot hb]
    exact hfails fault
  · rw [(hfails fault).mp htext] at hsettled
    cases hfirst : (t.postorder ht root).findSome? t.lacking? with
    | none => rw [hfirst] at hsettled; obtain ⟨w, hw⟩ := hsettled; cases hw
    | some opcode => rw [hfirst] at hsettled; exact ⟨opcode, rfl, Except.error.inj hsettled⟩
  · rw [← hrules]
    cases hfirst : (t.postorder ht root).findSome? t.lacking? with
    | none =>
      rw [hfirst] at hsettled
      obtain ⟨w, hw⟩ := hsettled
      cases htext : t.solverText root with
      | ok text => exact ⟨fun _ => rfl, fun _ => ⟨text, rfl⟩⟩
      | error fault => rw [(hfails fault).mp htext] at hw; cases hw
    | some opcode =>
      rw [hfirst] at hsettled
      rw [(hfails _).mpr hsettled]
      constructor
      · rintro ⟨text, htext⟩
        cases htext
      · intro hnone
        cases hnone

def loneSum : Table := empty.construct
  [.symbol 8, .unary .add 0, .unary .not 0, .bits ⟨0, ⟨8, 31⟩⟩, .hybrid (.ofList [(⟨0, 7⟩, 1), (⟨8, 31⟩, 3)]),
    .binary .add 4 2, .binary .sub 5 5]

/-- The sum of one operand is met before the inverted byte, and both name it. -/
theorem a_sum_of_one_operand_has_neither_text_nor_word :
    loneSum.solverText 6 = .error (.unknownOperation "add") ∧
      loneSum.evaluate 6 (.ofList [(0, 7)]) = .error (.unknownOperation "add") := by
  have ht : loneSum.WellFormed := construct_wellFormed wellFormed_empty
    ⟨by decide, by decide, by decide, by decide, by decide, by decide, by decide, trivial⟩
  have hinputs : loneSum.inputs 6 = [0] := by cbv
  have hbound (s : ValueId) : s ∈ SortedMap.keys (.ofList [(0, 7)] : Bindings) ↔ s ∈ loneSum.inputSet 6 := by
    rw [← ht.mem_inputs_iff (by decide), hinputs]
    exact Iff.rfl
  have hfails : loneSum.evaluate 6 (.ofList [(0, 7)]) = .error (.unknownOperation "add") := by cbv
  obtain ⟨hsame, -⟩ := a_value_has_a_text_exactly_if_it_has_a_word loneSum ht 6 (by decide) (.ofList [(0, 7)]) hbound
  exact ⟨(hsame _).mpr hfails, hfails⟩

end Table

end TraceReplay
