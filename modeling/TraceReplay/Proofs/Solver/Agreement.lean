/-
  TraceReplay.Proofs.Solver.Agreement — the solver reads a value as evaluation does.

  Proved, of every value of a well-formed table that has a text:
  - if the counts of all shifts below the value are known, the text is a well-typed term over the
    inputs of the value, and denotes under any words for them what the value evaluates to
    (`solver_text_means_evaluation`);
  - a count that is not known is read alike as long as it is below 32. Evaluation takes it modulo
    32, while the solver has nothing left at 32 and more: `unknown_counts_agree_within_the_word`
    gives what it reads instead, and `a_count_of_32_is_read_two_ways` is the smallest case.
-/

import TraceReplay.Proofs.Construction
import TraceReplay.Proofs.Solver.Translation

namespace TraceReplay

namespace Table

open Solver (Term BitString Environment symbolText readTerm words)

variable {t : Table} {σ : Assignment} {id : Nat} {term : Term ValueId}

def CountsKnown (t : Table) (id : ValueId) : Prop :=
  ∀ below v opcode operands, t.Reaches id below → t.get? below = some v → v.node = .operation opcode operands →
    (opcode = .shl ∨ opcode = .shr) → ∃ count w, operands[1]? = some count ∧ t.known count = some w

def CountsFit (t : Table) (σ : Assignment) (id : ValueId) : Prop :=
  ∀ below v opcode operands count c, t.Reaches id below → t.get? below = some v →
    v.node = .operation opcode operands → (opcode = .shl ∨ opcode = .shr) → operands[1]? = some count →
    t.known count = none → t.eval σ count = .ok c → c.toNat < 32

theorem CountsKnown.countsFit (h : t.CountsKnown id) (σ : Assignment) : t.CountsFit σ id := by
  intro below v opcode operands count c hreach hv hn hop hcount hunknown _
  obtain ⟨count', w, hcount', hw⟩ := h below v opcode operands hreach hv hn hop
  rw [hcount] at hcount'
  cases hcount'
  rw [hunknown] at hw
  cases hw

theorem WellFormed.partsGiven (ht : t.WellFormed) (id : Nat) : (t.formula id).PartsGiven := by
  intro id' parts hw hnil
  obtain ⟨below, -, hf⟩ := ht.reaches_of_within hw
  obtain ⟨v, pieces, hv, hn, rfl⟩ := ht.formula_eq_hybrid hf
  have hpart := ht.isPartition (pieces?_eq_some_iff.mpr ⟨v, hv, hn⟩)
  rw [Pieces.isPartition, SortedMap.keys, List.map_eq_nil_iff.mp hnil] at hpart
  cases hpart

/-- The count of an operation, with its word and what is known of it. -/
theorem WellFormed.exists_count (ht : t.WellFormed) {v : Value} {opcode : Opcode} {operands : List ValueId}
    {ws : List Word} {c : Word} (hv : t.get? id = some v) (hn : v.node = .operation opcode operands)
    (hws : (operands.map t.formula).map (Formula.eval σ) = ws.map .ok) (hc : ws[1]? = some c) :
    ∃ count, operands[1]? = some count ∧ t.eval σ count = .ok c ∧
      (operands.map t.formula)[1]?.bind Formula.known? = t.known count := by
  have hword : ((operands.map t.formula).map (Formula.eval σ))[1]? = some (.ok c) := by
    rw [hws, List.getElem?_map, hc, Option.map_some]
  rw [List.getElem?_map, List.getElem?_map, Option.map_map] at hword
  obtain ⟨count, hcount, heval⟩ := Option.map_eq_some_iff.mp hword
  have hmem : count ∈ v.node.operands := by rw [hn]; exact List.mem_of_getElem? hcount
  have hlt : count < t.size := Nat.lt_trans (ht.operands_lt hv count hmem) (lt_of_get? hv)
  refine ⟨count, hcount, ?_, ?_⟩
  · rw [← eval_formula]
    exact heval
  · rw [List.getElem?_map, hcount, Option.map_some, Option.bind_some, ht.known?_formula hlt]

theorem WellFormed.countsFit_formula (ht : t.WellFormed) (h : t.CountsFit σ id) : (t.formula id).CountsFit σ := by
  intro opcode args ws hw hws hover
  obtain ⟨hop, hunknown, c, hc, hle⟩ := hover
  obtain ⟨below, hreach, hf⟩ := ht.reaches_of_within hw
  obtain ⟨v, operands, hv, hn, rfl⟩ := ht.formula_eq_operation hf
  obtain ⟨count, hcount, heval, hknown⟩ := ht.exists_count hv hn hws hc
  rw [hunknown] at hknown
  have hlt := h below v opcode operands count c hreach hv hn hop hcount hknown.symm heval
  omega

theorem solverTerm_eq_ok (h : t.solverTerm id = .ok term) : Term.ofFormula (t.formula id) = .ok term := by
  rw [solverTerm] at h
  split at h
  · rename_i hterm
    cases h
    exact hterm
  · cases h

theorem WellFormed.solverTerm_hasWidth (ht : t.WellFormed) (h : t.solverTerm id = .ok term) :
    term.HasWidth ((t.inputs id).map (·, 32)) 32 := by
  rw [← inputs_formula]
  exact Term.ofFormula_hasWidth (solverTerm_eq_ok h) (ht.partsGiven id)

theorem WellFormed.value_spelled (ht : t.WellFormed) (h : t.solverTerm id = .ok term) {spell : ValueId → String}
    {ρ : Environment} (hρ : ∀ s ∈ t.inputs id, ρ (spell s) = ⟨32, σ s⟩) :
    (term.map spell).value ρ = term.value (words σ) := by
  refine (ht.solverTerm_hasWidth h).value_map fun e he => ?_
  obtain ⟨s, hs, rfl⟩ := List.mem_map.mp he
  exact hρ s hs

/-- However its names are spelled, the term of a value denotes the word that the value evaluates to. -/
theorem WellFormed.solverTerm_value (ht : t.WellFormed) (h : t.solverTerm id = .ok term) (hc : t.CountsFit σ id)
    {spell : ValueId → String} {ρ : Environment} (hρ : ∀ s ∈ t.inputs id, ρ (spell s) = ⟨32, σ s⟩) :
    ∃ w, t.evaluate id (t.bound σ id) = .ok w ∧ (term.map spell).value ρ = ⟨32, w⟩ := by
  obtain ⟨w, hw, hv⟩ := Term.ofFormula_value (solverTerm_eq_ok h) (ht.partsGiven id) (ht.countsFit_formula hc)
  rw [eval_formula] at hw
  exact ⟨w, evaluate_bound hw, (ht.value_spelled h hρ).trans hv⟩

theorem WellFormed.readTerm_solverText (ht : t.WellFormed) {text : String} (h : t.solverText id = .ok text) :
    ∃ term, t.solverTerm id = .ok term ∧ readTerm text = some (term.map (symbolText "")) := by
  rw [solverText] at h
  cases hterm : t.solverTerm id with
  | error e => rw [hterm] at h; cases h
  | ok term =>
    rw [hterm] at h
    cases h
    have hname := Solver.symbolText_isName Solver.isSide_plain
    exact ⟨term, rfl, Solver.readTerm_text hname (ht.solverTerm_hasWidth hterm)⟩

/-! ## Tables whose counts are known -/

def knowsCount (t : Table) (v : Value) : Bool :=
  match v.node with
  | .operation .shl operands => (operands[1]?.bind t.known).isSome
  | .operation .shr operands => (operands[1]?.bind t.known).isSome
  | _ => true

theorem WellFormed.le_of_reaches (ht : t.WellFormed) {below : ValueId} (h : t.Reaches id below) : below ≤ id := by
  induction h with
  | refl id => exact Nat.le_refl id
  | step hv ho _ ih => exact Nat.le_trans ih (Nat.le_of_lt (ht.operands_lt hv _ ho))

theorem WellFormed.countsKnown_of_all (ht : t.WellFormed) (h : ∀ below ≤ id, (t.get? below).all t.knowsCount = true) :
    t.CountsKnown id := by
  intro below v opcode operands hreach hv hn hop
  have hv' := h below (ht.le_of_reaches hreach)
  rw [hv] at hv'
  replace hv' : (operands[1]?.bind t.known).isSome = true := by
    rcases hop with rfl | rfl
    · simpa only [Option.all_some, knowsCount, hn] using hv'
    · simpa only [Option.all_some, knowsCount, hn] using hv'
  obtain ⟨w, hw⟩ := Option.isSome_iff_exists.mp hv'
  obtain ⟨count, hcount, hknown⟩ := Option.bind_eq_some_iff.mp hw
  exact ⟨count, w, hcount, hknown⟩

/-! ## The text of a value -/

/-- The text of a value, all of whose shift counts are known, is a well-typed term over the
    value's inputs, and denotes under any words for them what the value evaluates to. -/
theorem solver_text_means_evaluation {text : String} (ht : t.WellFormed) (htext : t.solverText id = .ok text)
    (hcounts : t.CountsKnown id) :
    ∃ term, readTerm text = some term ∧ term.HasWidth ((t.inputs id).map fun s => (symbolText "" s, 32)) 32 ∧
      ∀ (σ : Assignment) (ρ : Environment), (∀ s ∈ t.inputs id, ρ (symbolText "" s) = ⟨32, σ s⟩) →
        ∃ w, t.evaluate id (t.bound σ id) = .ok w ∧ term.value ρ = ⟨32, w⟩ := by
  obtain ⟨term, hterm, hread⟩ := ht.readTerm_solverText htext
  refine ⟨term.map (symbolText ""), hread, ?_, ?_⟩
  · have hwidth := (ht.solverTerm_hasWidth hterm).map (symbolText "")
    rw [List.map_map] at hwidth
    exact hwidth
  · intro σ ρ hρ
    exact ht.solverTerm_value hterm (hcounts.countsFit σ) hρ

def splitShift : Table := empty.construct [.symbol 8, .bits ⟨0xaabbcc08, ⟨0, 7⟩⟩, .bits ⟨0xaabbcc08, ⟨16, 31⟩⟩,
  .hybrid (.ofList [(⟨0, 7⟩, 1), (⟨8, 15⟩, 0), (⟨16, 31⟩, 2)]), .constant 36, .binary .shl 3 4]

theorem eq_ok_of_toOption {ε α : Type} {x : Except ε α} {a : α} (h : x.toOption = some a) : x = .ok a := by
  cases x with
  | error e => cases h
  | ok b => exact congrArg Except.ok (Option.some.inj h)

theorem splitShift_wellFormed : splitShift.WellFormed :=
  construct_wellFormed wellFormed_empty ⟨by decide, by decide, by decide, by decide, by decide, by decide, trivial⟩

theorem the_text_of_a_split_word_means_its_shift :
    splitShift.WellFormed ∧ splitShift.CountsKnown 5 ∧ ∃ text term, splitShift.solverText 5 = .ok text ∧
      text = "((((BVMULT(32, 0hex00000008, 0hex00000001) & 0hex000000ff) | " ++
        "(BVMULT(32, (sym0 & 0hex000000ff), 0hex00000100) & 0hex0000ff00) | " ++
        "(BVMULT(32, 0hex0000aabb, 0hex00010000) & 0hexffff0000)) << 4)[31:0])" ∧
      readTerm text = some term ∧
      ∀ ρ : Environment, (∀ s, ρ (symbolText "" s) = ⟨32, 0x3cd⟩) → term.value ρ = ⟨32, 0xabbcd080⟩ := by
  have hcounts : splitShift.CountsKnown 5 := splitShift_wellFormed.countsKnown_of_all (by decide)
  have htext : splitShift.solverText 5 = .ok ("((((BVMULT(32, 0hex00000008, 0hex00000001) & 0hex000000ff) | " ++
      "(BVMULT(32, (sym0 & 0hex000000ff), 0hex00000100) & 0hex0000ff00) | " ++
      "(BVMULT(32, 0hex0000aabb, 0hex00010000) & 0hexffff0000)) << 4)[31:0])") :=
    eq_ok_of_toOption (by decide +kernel)
  have heval : splitShift.eval (fun _ => 0x3cd) 5 = .ok 0xabbcd080 := eq_ok_of_toOption (by decide +kernel)
  obtain ⟨term, hread, -, hvalue⟩ := solver_text_means_evaluation splitShift_wellFormed htext hcounts
  refine ⟨splitShift_wellFormed, hcounts, _, term, htext, rfl, hread, fun ρ hρ => ?_⟩
  obtain ⟨w, hw, hv⟩ := hvalue (fun _ => 0x3cd) ρ fun s _ => hρ s
  rw [evaluate_bound heval] at hw
  cases hw
  exact hv

/-! ## Counts that are not known -/

/-- A shift whose count is not known, over operands in which all counts fit. -/
theorem WellFormed.shift_value (ht : t.WellFormed) (h : t.solverTerm id = .ok term) {v : Value} {opcode : Opcode}
    {a b : ValueId} (hv : t.get? id = some v) (hn : v.node = .operation opcode [a, b])
    (hop : opcode = .shl ∨ opcode = .shr) (hb : t.known b = none) (hfa : t.CountsFit σ a) (hfb : t.CountsFit σ b) :
    ∃ w c, t.eval σ id = .ok w ∧ t.eval σ b = .ok c ∧
      term.value (words σ) = ⟨32, if c.toNat < 32 then w else 0⟩ := by
  have hformula : t.formula id = .operation opcode ([a, b].map t.formula) := by
    rw [formula, ht.interpret_value _ hv, Interpretation.value, hn]
    rfl
  have hterm := solverTerm_eq_ok h
  rw [hformula] at hterm
  have hargs : ∀ f ∈ [a, b].map t.formula, ∀ u, Term.ofFormula f = .ok u →
      ∃ w, f.eval σ = .ok w ∧ u.value (words σ) = ⟨32, w⟩ := by
    intro f hf u hu
    obtain ⟨o, ho, rfl⟩ := List.mem_map.mp hf
    have hfits : t.CountsFit σ o := by
      rcases List.mem_pair.mp ho with rfl | rfl
      · exact hfa
      · exact hfb
    exact Term.ofFormula_value hu (ht.partsGiven o) (ht.countsFit_formula hfits)
  obtain ⟨ws, hws, w, hw, hfits, hover⟩ := Term.ofFormula_operation_denotes hterm hargs
  obtain ⟨x, c, rfl⟩ : ∃ x c, ws = [x, c] := by
    have hlen := congrArg List.length hws
    simp only [List.length_map, List.length_cons, List.length_nil] at hlen
    exact List.length_eq_two.mp hlen.symm
  obtain ⟨count, hcount, heval, hknown⟩ := ht.exists_count hv hn hws rfl
  cases hcount
  rw [hknown, hb, Term.overshifts_iff hop] at hfits hover
  refine ⟨w, c, ?_, heval, ?_⟩
  · rw [← eval_formula, hformula, Formula.eval_operation]
    exact Rules.standard.evaluation_operation σ hws hw
  · by_cases hc : c.toNat < 32
    · rw [if_pos hc, hfits (Nat.not_le.mpr hc)]
    · rw [if_neg hc, hover (Nat.le_of_not_lt hc)]

/-- The text of a value denotes what the value evaluates to, as long as no count that is not known
    goes beyond the word. Evaluation takes such a count modulo 32, and the solver does not: at a
    count of 32 or more it has nothing left of the shifted word. -/
theorem unknown_counts_agree_within_the_word {text : String} (ht : t.WellFormed)
    (htext : t.solverText id = .ok text) :
    ∃ term, readTerm text = some term ∧
      ∀ (σ : Assignment) (ρ : Environment), (∀ s ∈ t.inputs id, ρ (symbolText "" s) = ⟨32, σ s⟩) →
        (t.CountsFit σ id → ∃ w, t.evaluate id (t.bound σ id) = .ok w ∧ term.value ρ = ⟨32, w⟩) ∧
        ∀ v opcode a b, t.get? id = some v → v.node = .operation opcode [a, b] → (opcode = .shl ∨ opcode = .shr) →
          t.known b = none → t.CountsFit σ a → t.CountsFit σ b →
          ∃ w c, t.evaluate id (t.bound σ id) = .ok w ∧ t.evaluate b (t.bound σ b) = .ok c ∧
            term.value ρ = ⟨32, if c.toNat < 32 then w else 0⟩ := by
  obtain ⟨term, hterm, hread⟩ := ht.readTerm_solverText htext
  refine ⟨term.map (symbolText ""), hread, fun σ ρ hρ => ⟨fun hfits => ht.solverTerm_value hterm hfits hρ, ?_⟩⟩
  intro v opcode a b hv hn hop hb hfa hfb
  obtain ⟨w, c, hw, hc, hvalue⟩ := ht.shift_value hterm hv hn hop hb hfa hfb
  exact ⟨w, c, evaluate_bound hw, evaluate_bound hc, (ht.value_spelled hterm hρ).trans hvalue⟩

def symbolShift : Table := empty.construct [.symbol 32, .symbol 32, .binary .shl 0 1]

theorem symbolShift_wellFormed : symbolShift.WellFormed :=
  construct_wellFormed wellFormed_empty ⟨by decide, by decide, by decide, trivial⟩

theorem symbolShift_text : symbolShift.solverText 2 = .ok "BVSHL(sym0, sym1)" := eq_ok_of_toOption (by decide +kernel)

theorem a_count_of_31_is_read_alike :
    symbolShift.WellFormed ∧ symbolShift.solverText 2 = .ok "BVSHL(sym0, sym1)" ∧ symbolShift.known 1 = none ∧
      ∃ term, readTerm "BVSHL(sym0, sym1)" = some term ∧
        ∀ ρ : Environment, (∀ s, ρ (symbolText "" s) = ⟨32, 31⟩) → term.value ρ = ⟨32, 0x80000000⟩ := by
  have hfits (o : ValueId) (ho : o < 2) : symbolShift.CountsFit (fun _ => 31) o :=
    (symbolShift_wellFormed.countsKnown_of_all (by decide +revert)).countsFit _
  have heval : symbolShift.eval (fun _ => 31) 2 = .ok 0x80000000 := eq_ok_of_toOption (by decide +kernel)
  have hcount : symbolShift.eval (fun _ => 31) 1 = .ok 31 := eq_ok_of_toOption (by decide +kernel)
  obtain ⟨term, hread, hvalue⟩ := unknown_counts_agree_within_the_word symbolShift_wellFormed symbolShift_text
  refine ⟨symbolShift_wellFormed, symbolShift_text, by decide, term, hread, fun ρ hρ => ?_⟩
  obtain ⟨-, hshift⟩ := hvalue (fun _ => 31) ρ fun s _ => hρ s
  obtain ⟨w, c, hw, hc, hv⟩ := hshift _ .shl 0 1 rfl rfl (.inl rfl) (by decide) (hfits 0 (by decide))
    (hfits 1 (by decide))
  rw [evaluate_bound heval] at hw
  rw [evaluate_bound hcount] at hc
  cases hw
  cases hc
  exact hv

/-- At a count of 32 the solver has nothing left, and evaluation has not shifted at all. -/
theorem a_count_of_32_is_read_two_ways :
    symbolShift.solverText 2 = .ok "BVSHL(sym0, sym1)" ∧
      symbolShift.evaluate 2 (symbolShift.bound (fun s => if s = 0 then 1 else 32) 2) = .ok 1 ∧
      ∃ term, readTerm "BVSHL(sym0, sym1)" = some term ∧
        term.value (fun name => if name = "sym0" then ⟨32, 1⟩ else ⟨32, 32⟩) = ⟨32, 0⟩ := by
  refine ⟨symbolShift_text, evaluate_bound (eq_ok_of_toOption (by decide +kernel)), ?_⟩
  exact ⟨_, rfl, rfl⟩

end Table

end TraceReplay
