/-
  TraceReplay.Proofs.Solver.Equivalence — what a whole-word equivalence query asks.

  The text of a query is read as a script (`EquivalenceQuery.commands_text`): declarations of the
  symbols of both sides, one equation for each pair, and the equation of the two terms. The names
  of the sides never meet (`firstName_ne_secondName`), so the words of the two sides can be chosen
  freely (`exists_environment`).

  Proved, of any two subjects that have terms and any pairs (`equivalence_query_is_closed_and_exact`):
  - declared are, once each, the inputs of the subjects and the symbols that a pair names, also
    those that are no inputs, and nothing else;
  - every name that is used is declared, and both sides of each equation are words;
  - if all shift counts are known, the query is valid exactly if the subjects evaluate alike under
    all words that agree on the pairs.
-/

import TraceReplay.Proofs.Solver.Agreement
import TraceReplay.Solver.Query

namespace TraceReplay

namespace Subject

def CountsKnown (s : Subject) : Prop := s.table.CountsKnown s.root

/-- The subject comes to the word when its inputs, and no others, are given these words. -/
def Evaluates (s : Subject) (σ : Assignment) (w : Word) : Prop :=
  s.table.evaluate s.root (s.table.bound σ s.root) = .ok w

end Subject

namespace Solver

/-! ## Reading commands -/

namespace Reading

variable {text text' : String} {cs cs' : Script} {c : Command}

/-- Between commands, the text adds these to the script. -/
def Commands (text : String) (cs : Script) : Prop :=
  ∀ done rest, run ⟨[], [], [], done⟩ (text.toList ++ rest) = run ⟨[], [], [], done ++ cs⟩ rest

theorem Commands.append (h : Commands text cs) (h' : Commands text' cs') : Commands (text ++ text') (cs ++ cs') := by
  intro done rest
  rw [String.toList_append, List.append_assoc, h, h', List.append_assoc]

theorem commands_newline : Commands "\n" [] := by
  intro done rest
  rw [List.append_nil]
  rfl

theorem commands_of_items {items : List Item} (h : Yields text items) (hc : Item.command? items = some c) :
    Commands (text ++ ";\n") [c] := by
  intro done rest
  have hd : Delimited (";\n".toList ++ rest) := ⟨rfl, by decide⟩
  have hend : run ⟨[], items, [], done⟩ (";\n".toList ++ rest) = run ⟨[], [], [], done ++ [c]⟩ rest := by
    show (endCommand ⟨[], items, [], done⟩).bind (·.run ("\n".toList ++ rest)) = _
    simp only [endCommand, hc, Option.map_some, Option.bind_some]
    rfl
  rw [String.toList_append, List.append_assoc, h [] [] done _ hd]
  exact hend

theorem commands_of_yields (h : Yields text [.command c]) : Commands (text ++ ";\n") [c] := commands_of_items h rfl

theorem commands_join {α : Type} {f : α → String} {g : α → Command} {l : List α}
    (h : ∀ a ∈ l, Commands (f a) [g a]) : Commands (String.join (l.map f)) (l.map g) := by
  induction l with
  | nil =>
    intro done rest
    rw [List.map_nil, List.map_nil, List.append_nil]
    rfl
  | cons a l ih =>
    rw [List.map_cons, List.map_cons, String.join_cons]
    exact (h a List.mem_cons_self).append (ih fun b hb => h b (List.mem_cons_of_mem a hb))

theorem commands_declaration {name : String} (h : IsName name) (n : Nat) :
    Commands (name ++ (": BV(" ++ toString n ++ ");\n")) [.declare name n] := by
  have hcolon : Separates ": " [.mark ':'] := fun _ _ _ _ => ⟨⟨rfl, by decide⟩, rfl⟩
  have hwidth : Yields ("BV(" ++ toString n ++ ")") [.width n] :=
    (yields_number n).framed (fun _ _ _ _ => rfl) rfl
  have hopen : ": BV(" = ": " ++ "BV(" := rfl
  have hend : ");\n" = ")" ++ ";\n" := rfl
  rw [hopen, hend]
  simpa only [String.append_assoc] using commands_of_items (h.yields.separated hcolon hwidth) rfl

theorem separates_equal : Separates " = " [.mark '='] := fun _ _ _ _ => ⟨⟨rfl, by decide⟩, rfl⟩

theorem separates_equal_line : Separates "\n=\n" [.mark '='] := fun _ _ _ _ => ⟨⟨rfl, by decide⟩, rfl⟩

theorem readScript_eq (h : Commands text cs) : readScript text = some cs := by
  have hrun := h [] []
  rw [List.append_nil, List.nil_append] at hrun
  rw [readScript, start, hrun]
  rfl

end Reading

/-! ## Scripts that only assume -/

namespace Script

variable {P : Environment → Prop} {cs rest : Script}

def declares (n : Nat) (names : List String) : Script := names.map (.declare · n)

/-- Commands that ask nothing before a script restrict its environments. -/
theorem validUnder_append (h : ∀ c ∈ cs, ∀ P, c.Asks P) :
    ValidUnder P (cs ++ rest) ↔ ValidUnder (fun ρ => P ρ ∧ ∀ c ∈ cs, c.Assumes ρ) rest := by
  induction cs generalizing P with
  | nil => simp
  | cons c cs ih =>
    have hc := h c List.mem_cons_self P
    rw [List.cons_append, ValidUnder, ih fun d hd => h d (List.mem_cons_of_mem c hd)]
    simp only [hc, true_and, List.forall_mem_cons, and_assoc]

theorem wellTyped_declares {Γ : List (String × Nat)} {n : Nat} {names : List String} (hnd : names.Nodup)
    (hΓ : ∀ x ∈ names, x ∉ Γ.map (·.1)) (h : WellTyped (Γ ++ names.map (·, n)) rest) :
    WellTyped Γ (declares n names ++ rest) := by
  induction names generalizing Γ with
  | nil =>
    rw [List.map_nil, List.append_nil] at h
    exact h
  | cons x names ih =>
    obtain ⟨hx, hnames⟩ := List.nodup_cons.mp hnd
    refine .declare (hΓ x List.mem_cons_self) (ih hnames ?_ ?_)
    · intro y hy hmem
      rw [List.map_append, List.mem_append] at hmem
      rcases hmem with hmem | hmem
      · exact hΓ y (List.mem_cons_of_mem x hy) hmem
      · rw [List.mem_singleton.mp hmem] at hy
        exact hx hy
    · rw [List.append_assoc]
      exact h

theorem wellTyped_append {Γ : List (String × Nat)} (hrest : WellTyped Γ rest)
    (h : ∀ c ∈ cs, ∃ a b n, c = .assert a b ∧ a.HasWidth Γ n ∧ b.HasWidth Γ n) : WellTyped Γ (cs ++ rest) := by
  induction cs with
  | nil => exact hrest
  | cons c cs ih =>
    obtain ⟨a, b, n, rfl, ha, hb⟩ := h c List.mem_cons_self
    exact .assert ha hb (ih fun d hd => h d (List.mem_cons_of_mem _ hd))

theorem declarations_append (h : ∀ c ∈ cs, ∃ a b, c = .assert a b) :
    declarations (cs ++ rest) = declarations rest := by
  induction cs with
  | nil => rfl
  | cons c cs ih =>
    obtain ⟨a, b, rfl⟩ := h c List.mem_cons_self
    exact ih fun d hd => h d (List.mem_cons_of_mem _ hd)

theorem declarations_declares (n : Nat) (names : List String) :
    declarations (declares n names ++ rest) = names.map (·, n) ++ declarations rest := by
  induction names with
  | nil => rfl
  | cons x names ih => exact congrArg (List.cons (x, n)) ih

end Script

/-! ## Names of the two sides -/

theorem firstName_injective : Function.Injective (symbolText "a") := fun _ _ h =>
  (symbolText_inj isSide_first isSide_first h).2

theorem secondName_injective : Function.Injective (symbolText "b") := fun _ _ h =>
  (symbolText_inj isSide_second isSide_second h).2

theorem firstName_ne_secondName (s s' : ValueId) : symbolText "a" s ≠ symbolText "b" s' := fun h =>
  absurd (symbolText_inj isSide_first isSide_second h).1 (by decide)

/-- What the names of two sides stand for can be chosen apart. -/
theorem exists_environment {α β : Type} {first : α → String} {second : β → String} (hfirst : first.Injective)
    (hsecond : second.Injective) (hne : ∀ s s', first s ≠ second s') (u : α → BitString) (v : β → BitString) :
    ∃ ρ : Environment, (∀ s, ρ (first s) = u s) ∧ ∀ s, ρ (second s) = v s := by
  refine ⟨Function.extend first u (Function.extend second v fun _ => ⟨0, 0⟩), ?_, ?_⟩
  · intro s
    exact hfirst.extend_apply _ _ s
  · intro s
    have hs : ¬ ∃ s', first s' = second s := fun ⟨s', h⟩ => hne s' s h
    rw [Function.extend_apply' _ _ _ hs]
    exact hsecond.extend_apply _ _ s

/-- Names of two sides are told apart if those of each side are. -/
theorem nodup_sides {α β : Type} {first : α → String} {second : β → String} (hfirst : first.Injective)
    (hsecond : second.Injective) (hne : ∀ s s', first s ≠ second s') {as : List α} {bs : List β} (has : as.Nodup)
    (hbs : bs.Nodup) : (as.map first ++ bs.map second).Nodup := by
  refine List.Nodup.append (has.map hfirst) (hbs.map hsecond) ?_
  intro x hx hx'
  obtain ⟨s, -, rfl⟩ := List.mem_map.mp hx
  obtain ⟨s', -, h⟩ := List.mem_map.mp hx'
  exact hne s s' h.symm

namespace EquivalenceQuery

theorem mem_declared {inputs paired : List ValueId} {s : ValueId} :
    s ∈ declared inputs paired ↔ s ∈ inputs ∨ s ∈ paired := by
  simp only [declared, SortedMap.keys, List.mem_map, SortedMap.mem_ofList_map]
  simp

theorem nodup_declared (inputs paired : List ValueId) : (declared inputs paired).Nodup := by
  rw [declared, SortedMap.keys, List.Nodup, List.pairwise_map]
  exact (SortedMap.ascending _).imp SortedMap.ne_of_compare_lt

/-! ## The script of a query -/

variable {q : EquivalenceQuery}

def names (q : EquivalenceQuery) : List String :=
  q.firstSymbols.map (symbolText "a") ++ q.secondSymbols.map (symbolText "b")

def equations (q : EquivalenceQuery) : Script :=
  q.pairs.map fun p => .assert (.symbol (symbolText "a" p.1)) (.symbol (symbolText "b" p.2))

def questions (q : EquivalenceQuery) : Script :=
  [.query (q.first.map (symbolText "a")) (q.second.map (symbolText "b")), .counterexample]

def script (q : EquivalenceQuery) : Script :=
  Script.declares 32 q.names ++ (q.equations ++ q.questions)

open Reading in
theorem commands_text {Γ Δ : List (ValueId × Nat)} {m n : Nat} (hfirst : q.first.HasWidth Γ m)
    (hsecond : q.second.HasWidth Δ n) : Commands q.text q.script := by
  have hdeclare {side : String} (hside : IsSide side) (ids : List ValueId) :
      Commands (declarations side ids) (.declares 32 (ids.map (symbolText side))) := by
    have hwidth : ": BV(32);\n" = ": BV(" ++ toString 32 ++ ");\n" := rfl
    rw [declarations, hwidth, Script.declares, List.map_map]
    exact commands_join fun s _ => commands_declaration (symbolText_isName hside s) 32
  have hequations : Commands (String.join (q.pairs.map assertion)) q.equations := by
    refine commands_join fun p _ => ?_
    have hopen : Opens "ASSERT(" (some .assert) [] := fun _ _ _ _ => rfl
    have ha := (symbolText_isName isSide_first p.1).yields
    have hb := (symbolText_isName isSide_second p.2).yields
    have hend : ");\n" = ")" ++ ";\n" := rfl
    rw [assertion, hend, ← String.append_assoc]
    exact commands_of_yields (ha.pair separates_equal hb hopen rfl)
  have hquery : Commands ("\nQUERY(\n" ++ q.first.text (symbolText "a") ++ "\n=\n" ++
      q.second.text (symbolText "b") ++ ")" ++ ";\n")
      [.query (q.first.map (symbolText "a")) (q.second.map (symbolText "b"))] := by
    have hopen : Opens "\nQUERY(\n" (some .query) [] := fun _ _ _ _ => rfl
    have ha := yields_text (symbolText_isName isSide_first) hfirst
    have hb := yields_text (symbolText_isName isSide_second) hsecond
    exact commands_of_yields (ha.pair separates_equal_line hb hopen rfl)
  have hlast : Commands ("COUNTEREXAMPLE" ++ ";\n") [.counterexample] :=
    commands_of_yields (yields_word (by simp) (by simp) rfl)
  have hall := ((((hdeclare isSide_first q.firstSymbols).append (hdeclare isSide_second q.secondSymbols)).append
    commands_newline).append hequations).append (hquery.append hlast)
  have hend : ");\nCOUNTEREXAMPLE;\n" = ")" ++ (";\n" ++ ("COUNTEREXAMPLE" ++ ";\n")) := rfl
  rw [text, script, names, questions, hend]
  simpa only [Script.declares, String.append_assoc, List.append_assoc, List.map_append, List.nil_append,
    List.singleton_append] using hall

/-! ## What a query asks -/

theorem valid_script : q.script.Valid ↔ ∀ ρ : Environment, (∀ x ∈ q.names, (ρ x).1 = 32) →
    (∀ p ∈ q.pairs, ρ (symbolText "a" p.1) = ρ (symbolText "b" p.2)) →
    (q.first.map (symbolText "a")).value ρ = (q.second.map (symbolText "b")).value ρ := by
  have hnames : ∀ c ∈ Script.declares 32 q.names, ∀ P, c.Asks P := by
    intro c hc P
    obtain ⟨x, -, rfl⟩ := List.mem_map.mp hc
    trivial
  have hequations : ∀ c ∈ q.equations, ∀ P, c.Asks P := by
    intro c hc P
    obtain ⟨p, -, rfl⟩ := List.mem_map.mp hc
    trivial
  rw [Script.Valid, script, Script.validUnder_append hnames, Script.validUnder_append hequations]
  simp only [Script.ValidUnder, Command.Asks, Command.Assumes, Script.declares, equations, questions,
    List.forall_mem_map, Term.value, and_true, true_and, and_imp]

theorem nodup_names (hfirst : q.firstSymbols.Nodup) (hsecond : q.secondSymbols.Nodup) : q.names.Nodup :=
  nodup_sides firstName_injective secondName_injective firstName_ne_secondName hfirst hsecond

theorem wellTyped_script (hnames : q.names.Nodup)
    (hpairs : ∀ p ∈ q.pairs, symbolText "a" p.1 ∈ q.names ∧ symbolText "b" p.2 ∈ q.names)
    (hfirst : (q.first.map (symbolText "a")).HasWidth (q.names.map (·, 32)) 32)
    (hsecond : (q.second.map (symbolText "b")).HasWidth (q.names.map (·, 32)) 32) : q.script.WellTyped [] := by
  have hwidth {x : String} (hx : x ∈ q.names) : (Term.symbol x).HasWidth (q.names.map (·, 32)) 32 :=
    .symbol (List.mem_map.mpr ⟨x, hx, rfl⟩)
  have hquestions : q.questions.WellTyped (q.names.map (·, 32)) := .query hfirst hsecond (.counterexample (.nil _))
  refine Script.wellTyped_declares hnames (fun x _ => List.not_mem_nil) (Script.wellTyped_append hquestions ?_)
  intro c hc
  obtain ⟨p, hp, rfl⟩ := List.mem_map.mp hc
  exact ⟨_, _, 32, rfl, hwidth (hpairs p hp).1, hwidth (hpairs p hp).2⟩

theorem declarations_script : q.script.declarations = q.names.map (·, 32) := by
  have hequations : ∀ c ∈ q.equations, ∃ a b, c = .assert a b := by
    intro c hc
    obtain ⟨p, -, rfl⟩ := List.mem_map.mp hc
    exact ⟨_, _, rfl⟩
  rw [script, Script.declarations_declares, Script.declarations_append hequations]
  exact List.append_nil _

variable {first second : Subject} {a b : Term ValueId} {pairs : List (ValueId × ValueId)}

def ofTerms (first second : Subject) (pairs : List (ValueId × ValueId)) (a b : Term ValueId) : EquivalenceQuery where
  firstSymbols := declared first.inputs (pairs.map (·.1))
  secondSymbols := declared second.inputs (pairs.map (·.2))
  pairs := pairs
  first := a
  second := b

theorem build_eq_ofTerms (ha : first.term = .ok a) (hb : second.term = .ok b) :
    build first second pairs = .ok (ofTerms first second pairs a b) := by
  rw [build, ha, hb]
  rfl

theorem mem_names_first {s : ValueId} (h : s ∈ first.inputs ∨ s ∈ pairs.map (·.1)) :
    symbolText "a" s ∈ (ofTerms first second pairs a b).names :=
  List.mem_append_left _ (List.mem_map.mpr ⟨s, mem_declared.mpr h, rfl⟩)

theorem mem_names_second {s : ValueId} (h : s ∈ second.inputs ∨ s ∈ pairs.map (·.2)) :
    symbolText "b" s ∈ (ofTerms first second pairs a b).names :=
  List.mem_append_right _ (List.mem_map.mpr ⟨s, mem_declared.mpr h, rfl⟩)

theorem mem_declarations_iff {x : String} {n : Nat} :
    (x, n) ∈ (ofTerms first second pairs a b).script.declarations ↔ n = 32 ∧
      ((∃ s, (s ∈ first.inputs ∨ s ∈ pairs.map (·.1)) ∧ symbolText "a" s = x) ∨
        ∃ s, (s ∈ second.inputs ∨ s ∈ pairs.map (·.2)) ∧ symbolText "b" s = x) := by
  rw [declarations_script, names]
  simp only [ofTerms, List.mem_map, List.mem_append, Prod.mk.injEq, mem_declared]
  constructor
  · intro h
    obtain ⟨y, hy, rfl, rfl⟩ := h
    exact ⟨rfl, hy⟩
  · intro h
    exact ⟨x, h.2, rfl, h.1.symm⟩

theorem nodup_ofTerms (first second : Subject) (pairs : List (ValueId × ValueId)) (a b : Term ValueId) :
    (ofTerms first second pairs a b).names.Nodup := by
  have hfirst := nodup_declared first.inputs (pairs.map (·.1))
  have hsecond := nodup_declared second.inputs (pairs.map (·.2))
  exact nodup_names hfirst hsecond

theorem wellTyped_ofTerms (hfirst : first.table.WellFormed) (hsecond : second.table.WellFormed)
    (ha : first.term = .ok a) (hb : second.term = .ok b) : (ofTerms first second pairs a b).script.WellTyped [] := by
  have hwidth {inputs : List ValueId} {side : String} {t : Term ValueId} (ht : t.HasWidth (inputs.map (·, 32)) 32)
      (hinputs : ∀ s ∈ inputs, symbolText side s ∈ (ofTerms first second pairs a b).names) :
      (t.map (symbolText side)).HasWidth ((ofTerms first second pairs a b).names.map (·, 32)) 32 := by
    refine (ht.map (symbolText side)).mono fun e he => ?_
    rw [List.map_map] at he
    obtain ⟨s, hs, rfl⟩ := List.mem_map.mp he
    exact List.mem_map.mpr ⟨_, hinputs s hs, rfl⟩
  refine wellTyped_script (nodup_ofTerms first second pairs a b) ?_ ?_ ?_
  · intro p hp
    exact ⟨mem_names_first (.inr (List.mem_map.mpr ⟨p, hp, rfl⟩)),
      mem_names_second (.inr (List.mem_map.mpr ⟨p, hp, rfl⟩))⟩
  · exact hwidth (hfirst.solverTerm_hasWidth ha) fun s hs => mem_names_first (.inl hs)
  · exact hwidth (hsecond.solverTerm_hasWidth hb) fun s hs => mem_names_second (.inl hs)

theorem eq_word {x : BitString} (h : x.1 = 32) : x = ⟨32, x.2.setWidth 32⟩ := by
  obtain ⟨n, bits⟩ := x
  cases h
  rw [BitVec.setWidth_eq]

theorem valid_iff_evaluates_alike (hfirst : first.table.WellFormed) (hsecond : second.table.WellFormed)
    (ha : first.term = .ok a) (hb : second.term = .ok b) (hca : first.CountsKnown) (hcb : second.CountsKnown) :
    (ofTerms first second pairs a b).script.Valid ↔ ∀ σ σ' : Assignment, (∀ p ∈ pairs, σ p.1 = σ' p.2) →
      ∃ w, first.Evaluates σ w ∧ second.Evaluates σ' w := by
  rw [valid_script]
  constructor
  · -- Two assignments make one environment, since the sides have no name in common.
    intro hvalid σ σ' hpairs
    obtain ⟨ρ, hρ, hρ'⟩ := exists_environment firstName_injective secondName_injective firstName_ne_secondName
      (fun s => ⟨32, σ s⟩) fun s => ⟨32, σ' s⟩
    obtain ⟨w, hw, hv⟩ := hfirst.solverTerm_value ha (hca.countsFit σ) fun s _ => hρ s
    obtain ⟨w', hw', hv'⟩ := hsecond.solverTerm_value hb (hcb.countsFit σ') fun s _ => hρ' s
    have hnames : ∀ x ∈ (ofTerms first second pairs a b).names, (ρ x).1 = 32 := by
      intro x hx
      rcases List.mem_append.mp hx with hx | hx
      · obtain ⟨s, -, rfl⟩ := List.mem_map.mp hx
        rw [hρ]
      · obtain ⟨s, -, rfl⟩ := List.mem_map.mp hx
        rw [hρ']
    have heq := hvalid ρ hnames fun p hp => by rw [hρ, hρ', hpairs p hp]
    rw [ofTerms, hv, hv'] at heq
    cases heq
    exact ⟨w, hw, hw'⟩
  · -- Only declared names are sure to hold words; those are all that the subjects look at.
    intro hsame ρ hnames hpairs
    have hword (s : ValueId) (hs : s ∈ first.inputs) := eq_word (hnames _ (mem_names_first (.inl hs)))
    have hword' (s : ValueId) (hs : s ∈ second.inputs) := eq_word (hnames _ (mem_names_second (.inl hs)))
    obtain ⟨w, hw, hw'⟩ := hsame (fun s => (ρ (symbolText "a" s)).2.setWidth 32)
      (fun s => (ρ (symbolText "b" s)).2.setWidth 32) fun p hp => by rw [hpairs p hp]
    obtain ⟨u, hu, hv⟩ := hfirst.solverTerm_value ha (hca.countsFit _) hword
    obtain ⟨u', hu', hv'⟩ := hsecond.solverTerm_value hb (hcb.countsFit _) hword'
    cases hw.symm.trans hu
    cases hw'.symm.trans hu'
    rw [ofTerms, hv, hv']

/-- The query of two subjects declares their inputs and the symbols of the pairs, each once, and
    no others; all that it uses is declared; and if all shift counts are known, it is valid
    exactly if the subjects evaluate alike under all words that agree on the pairs. -/
theorem equivalence_query_is_closed_and_exact (hfirst : first.table.WellFormed) (hsecond : second.table.WellFormed)
    (ha : first.term = .ok a) (hb : second.term = .ok b) (pairs : List (ValueId × ValueId)) :
    ∃ q script, build first second pairs = .ok q ∧ readScript q.text = some script ∧
      (script.declarations.map (·.1)).Nodup ∧
      (∀ x n, (x, n) ∈ script.declarations ↔ n = 32 ∧
        ((∃ s, (s ∈ first.inputs ∨ s ∈ pairs.map (·.1)) ∧ symbolText "a" s = x) ∨
          ∃ s, (s ∈ second.inputs ∨ s ∈ pairs.map (·.2)) ∧ symbolText "b" s = x)) ∧
      script.WellTyped [] ∧
      (first.CountsKnown → second.CountsKnown →
        (script.Valid ↔ ∀ σ σ' : Assignment, (∀ p ∈ pairs, σ p.1 = σ' p.2) →
          ∃ w, first.Evaluates σ w ∧ second.Evaluates σ' w)) := by
  have htext : Reading.Commands (ofTerms first second pairs a b).text (ofTerms first second pairs a b).script :=
    commands_text (hfirst.solverTerm_hasWidth ha) (hsecond.solverTerm_hasWidth hb)
  refine ⟨ofTerms first second pairs a b, (ofTerms first second pairs a b).script, build_eq_ofTerms ha hb,
    Reading.readScript_eq htext, ?_, fun x n => mem_declarations_iff,
    wellTyped_ofTerms hfirst hsecond ha hb, valid_iff_evaluates_alike hfirst hsecond ha hb⟩
  rw [declarations_script, List.map_map]
  exact (List.map_id _).symm ▸ nodup_ofTerms first second pairs a b

def doubled : Subject := ⟨Table.empty.construct [.symbol 32, .binary .add 0 0], 1⟩

def shifted : Subject := ⟨Table.empty.construct [.symbol 32, .constant 1, .binary .shl 0 1], 2⟩

theorem doubled_wellFormed : doubled.table.WellFormed :=
  Table.construct_wellFormed Table.wellFormed_empty ⟨by decide, by decide, trivial⟩

theorem shifted_wellFormed : shifted.table.WellFormed :=
  Table.construct_wellFormed Table.wellFormed_empty ⟨by decide, by decide, by decide, trivial⟩

theorem doubled_countsKnown : doubled.CountsKnown := doubled_wellFormed.countsKnown_of_all (by decide)

theorem shifted_countsKnown : shifted.CountsKnown := shifted_wellFormed.countsKnown_of_all (by decide)

theorem doubled_term : doubled.term = .ok (.plus (.symbol 0) (.symbol 0)) := rfl

theorem shifted_term : shifted.term = .ok (.extract (.appendZeros (.symbol 0) 1) 31 0) := rfl

theorem doubled_evaluates (σ : Assignment) : doubled.Evaluates σ (σ 0 + σ 0) := by
  have hword : σ 0 &&& (BitRange.lowBits 32).mask = σ 0 := BitVec.and_allOnes
  have heval : doubled.table.eval σ 1 =
      .ok ((σ 0 &&& (BitRange.lowBits 32).mask) + (σ 0 &&& (BitRange.lowBits 32).mask)) := rfl
  rw [hword] at heval
  exact Table.evaluate_bound heval

theorem shift_one (x : Word) : x <<< 1 = x + x := by
  apply BitVec.eq_of_toNat_eq
  rw [BitVec.toNat_shiftLeft, BitVec.toNat_add, Nat.shiftLeft_eq]
  omega

theorem shifted_evaluates (σ : Assignment) : shifted.Evaluates σ (σ 0 + σ 0) := by
  have hword : σ 0 &&& (BitRange.lowBits 32).mask = σ 0 := BitVec.and_allOnes
  have heval : shifted.table.eval σ 2 = .ok ((σ 0 &&& (BitRange.lowBits 32).mask) <<< 1) := rfl
  rw [hword, shift_one] at heval
  exact Table.evaluate_bound heval

theorem doubling_is_shifting :
    doubled.table.WellFormed ∧ shifted.table.WellFormed ∧ doubled.CountsKnown ∧ shifted.CountsKnown ∧
      ∃ q script, build doubled shifted [(0, 0), (0, 0), (5, 7)] = .ok q ∧ readScript q.text = some script ∧
        script.Valid := by
  obtain ⟨q, script, hq, hread, -, -, -, hvalid⟩ := equivalence_query_is_closed_and_exact doubled_wellFormed
    shifted_wellFormed doubled_term shifted_term [(0, 0), (0, 0), (5, 7)]
  refine ⟨doubled_wellFormed, shifted_wellFormed, doubled_countsKnown, shifted_countsKnown, q, script, hq, hread,
    (hvalid doubled_countsKnown shifted_countsKnown).mpr fun σ σ' h => ?_⟩
  have h0 : σ 0 = σ' 0 := h (0, 0) (by decide)
  have hshifted := shifted_evaluates σ'
  rw [← h0] at hshifted
  exact ⟨_, doubled_evaluates σ, hshifted⟩

end EquivalenceQuery

end Solver

end TraceReplay
