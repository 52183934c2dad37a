/-
  TraceReplay.Proofs.Solver.BitQuery — what a bit-by-bit query asks.

  The text of a query is read as an inquiry (`BitQuery.readInquiry_text`): single bits are declared
  and some asserted to be equal, the input words of both sides are bound to strings of them, and
  single bits of the two results are compared. The words that are rebuilt from bits are as
  arbitrary as the bits are (`Subject.RebuiltFrom`, `words_iff`, `exists_words`), and the compared
  names are bound to what the subjects then evaluate to (`holds_iff`).

  Proved, of any two subjects that have terms and any mappings between existing bits
  (`bit_queries_are_closed_and_exact`): there is a query for each mapping;
  - its parentheses are balanced, and every name in it is declared or bound where it is used;
  - bit `j` of the binding of input number `i`, counted in the order of the ids, is bit
    `32 * i + j` of the side;
  - if all shift counts are known, the query is valid exactly if the mapped bits of the results
    agree whenever the mapped bits of the inputs do, and always if no bits are to be compared.
-/

import TraceReplay.Proofs.Solver.Question

namespace TraceReplay

namespace Subject

/-- Bit `k` of the subject's input words, one word after the other. -/
def inputBit (s : Subject) (σ : Assignment) (k : Nat) : Bool :=
  s.inputs[k / 32]?.any fun id => (σ id).getLsbD (k % 32)

theorem inputBit_eq {s : Subject} {σ : Assignment} {i j : Nat} {id : ValueId} (hi : s.inputs[i]? = some id)
    (hj : j < 32) : s.inputBit σ (32 * i + j) = (σ id).getLsbD j := by
  have hdiv : (32 * i + j) / 32 = i := by omega
  have hmod : (32 * i + j) % 32 = j := by omega
  rw [inputBit, hdiv, hmod, hi]
  rfl

theorem nodup_inputs (s : Subject) : s.inputs.Nodup :=
  (s.table.pairwise_inputs s.root).imp Nat.ne_of_lt

open Solver (Environment symbolText)
open Solver.BitQuery (bitText)

/-- Bit `j` of the word that `ρ'` has for input number `i` is the bit `32 * i + j` of `ρ`. -/
def RebuiltFrom (s : Subject) (side : String) (ρ ρ' : Environment) : Prop :=
  ∀ i id, s.inputs[i]? = some id → ∃ w : Word, ρ' (symbolText side id) = ⟨32, w⟩ ∧
    ∀ j < 32, ρ (bitText side (32 * i + j)) = ⟨1, BitVec.ofBool (w.getLsbD j)⟩

theorem RebuiltFrom.exists_words {s : Subject} {side : String} {ρ ρ' : Environment} (h : s.RebuiltFrom side ρ ρ') :
    ∃ σ : Assignment, ∀ id ∈ s.inputs, ρ' (symbolText side id) = ⟨32, σ id⟩ := by
  refine ⟨fun id => (ρ' (symbolText side id)).2.setWidth 32, fun id hid => ?_⟩
  obtain ⟨i, hi⟩ := List.mem_iff_getElem?.mp hid
  obtain ⟨w, hw, -⟩ := h i id hi
  exact Solver.EquivalenceQuery.eq_word (congrArg Sigma.fst hw)

/-- Rebuilt words are the given ones exactly if they are rebuilt from the bits of these. -/
theorem RebuiltFrom.words_iff {s : Subject} {side : String} {ρ ρ' : Environment} (h : s.RebuiltFrom side ρ ρ')
    (σ : Assignment) : (∀ id ∈ s.inputs, ρ' (symbolText side id) = ⟨32, σ id⟩) ↔
      ∀ k < 32 * s.inputs.length, ρ (bitText side k) = ⟨1, BitVec.ofBool (s.inputBit σ k)⟩ := by
  constructor
  · intro hwords k hk
    have hi : k / 32 < s.inputs.length := by omega
    have hk' : 32 * (k / 32) + k % 32 = k := by omega
    have hid : s.inputs[k / 32]? = some s.inputs[k / 32] := List.getElem?_eq_getElem hi
    obtain ⟨w, hw, hbits⟩ := h _ _ hid
    have hbit := hbits (k % 32) (by omega)
    have hσ := hwords _ (List.getElem_mem hi)
    rw [hw] at hσ
    cases hσ
    rw [← inputBit_eq hid (by omega), hk'] at hbit
    exact hbit
  · intro hbits id hid
    obtain ⟨i, hi, rfl⟩ := List.mem_iff_getElem.mp hid
    have hid' : s.inputs[i]? = some s.inputs[i] := List.getElem?_eq_getElem hi
    obtain ⟨w, hw, hbits'⟩ := h _ _ hid'
    have heq : w = σ s.inputs[i] := by
      refine BitVec.eq_of_getLsbD_eq fun j hj => ?_
      have hbit := (hbits' j hj).symm.trans (hbits (32 * i + j) (by omega))
      rw [inputBit_eq hid' hj] at hbit
      exact BitVec.ofBool_eq_iff_eq.mp (eq_of_heq (Sigma.mk.inj hbit).2)
    rw [hw, heq]

end Subject

namespace Solver

structure BitMapping.InRange (first second : Subject) (m : BitMapping) : Prop where
  inputs : ∀ p ∈ m.inputs.entries, p.1 < 32 * first.inputs.length ∧ p.2 < 32 * second.inputs.length
  outputs : ∀ p ∈ m.outputs.entries, p.1 ≤ 31 ∧ p.2 ≤ 31

namespace BitQuery

/-! ## Names -/

theorem toList_bitText (side : String) (i : Nat) :
    (bitText side i).toList = 'b' :: 'i' :: 't' :: (Nat.toDigits 10 i ++ side.toList) := by
  have htext : bitText side i = "bit" ++ toString i ++ side := rfl
  rw [htext, Nat.toString_eq_ofList_toDigits]
  simp

theorem bitText_isName {side : String} (h : IsSide side) (i : Nat) : IsName (bitText side i) := by
  refine isName_of_isLower (toList_bitText side i) rfl ?_
  simp only [List.forall_mem_cons]
  exact ⟨rfl, rfl, isAlphanum_numbered h i⟩

theorem bitText_inj {side side' : String} {i i' : Nat} (h : IsSide side) (h' : IsSide side')
    (heq : bitText side i = bitText side' i') : side = side' ∧ i = i' := by
  have hlist := congrArg String.toList heq
  rw [toList_bitText, toList_bitText] at hlist
  simp only [List.cons.injEq, true_and] at hlist
  exact numbered_inj h h' hlist

theorem firstBit_injective : Function.Injective (bitText "a") := fun _ _ h =>
  (bitText_inj isSide_first isSide_first h).2

theorem secondBit_injective : Function.Injective (bitText "b") := fun _ _ h =>
  (bitText_inj isSide_second isSide_second h).2

theorem firstBit_ne_secondBit (i i' : Nat) : bitText "a" i ≠ bitText "b" i' := fun h =>
  absurd (bitText_inj isSide_first isSide_second h).1 (by decide)

/-- What kind of name it is shows in its first letter. -/
theorem ne_of_head {x y : String} (h : x.toList.head? ≠ y.toList.head?) : x ≠ y := fun heq =>
  h (congrArg (·.toList.head?) heq)

/-! ## The inquiry of a query -/

variable {q : BitQuery}

def bits (side : String) (inputs : List ValueId) : List String :=
  (List.range (32 * inputs.length)).map (bitText side)

def names (q : BitQuery) : List String := bits "a" q.firstInputs ++ bits "b" q.secondInputs

def equations (q : BitQuery) : Script :=
  q.mapping.inputs.entries.map fun p => .assert (.symbol (bitText "a" p.1)) (.symbol (bitText "b" p.2))

def assembled (side : String) (input : ValueId × Nat) : Binding :=
  ⟨symbolText side input.1, (List.range 32).reverse.map fun j => .symbol (bitText side (input.2 * 32 + j))⟩

def inputWords (q : BitQuery) : List Binding :=
  q.firstInputs.zipIdx.map (assembled "a") ++ q.secondInputs.zipIdx.map (assembled "b")

def firstResult (q : BitQuery) : Binding := ⟨"out1", [q.first.map (symbolText "a")]⟩

def secondResult (q : BitQuery) : Binding := ⟨"out2", [q.second.map (symbolText "b")]⟩

def compared (p : Nat × Nat) : Equation :=
  (.extract (.symbol "out1") p.1 p.1, .extract (.symbol "out2") p.2 p.2)

def inquiry (q : BitQuery) : Inquiry where
  before := .declares 1 q.names ++ q.equations
  question := ⟨q.inputWords ++ [q.firstResult, q.secondResult], q.mapping.outputs.entries.map compared⟩
  after := [.counterexample]

section

open Reading Stage

theorem commands_before (q : BitQuery) :
    Commands (declarations "a" q.firstInputs ++ declarations "b" q.secondInputs ++
      String.join (q.mapping.inputs.entries.map assertion)) q.inquiry.before := by
  have hdeclare {side : String} (hside : IsSide side) (inputs : List ValueId) :
      Commands (declarations side inputs) (.declares 1 (bits side inputs)) := by
    have hwidth : ": BV(1);\n" = ": BV(" ++ toString 1 ++ ");\n" := rfl
    rw [declarations, hwidth, Script.declares, bits, List.map_map]
    exact commands_join fun i _ => commands_declaration (bitText_isName hside i) 1
  have hequations : Commands (String.join (q.mapping.inputs.entries.map assertion)) q.equations := by
    refine commands_join fun p _ => ?_
    have hopen : Opens "ASSERT(" (some .assert) [] := fun _ _ _ _ => rfl
    have ha := (bitText_isName isSide_first p.1).yields
    have hb := (bitText_isName isSide_second p.2).yields
    have hend : ");\n" = ")" ++ ";\n" := rfl
    rw [assertion, hend, ← String.append_assoc]
    exact commands_of_yields (ha.pair separates_equal hb hopen rfl)
  have hall := ((hdeclare isSide_first q.firstInputs).append (hdeclare isSide_second q.secondInputs)).append hequations
  rw [inquiry, names, Script.declares, List.map_append]
  exact hall

theorem adds_bits {side : String} (hside : IsSide side) (input : ValueId × Nat) :
    Adds ("@".intercalate ((List.range 32).reverse.map fun j => bitText side (input.2 * 32 + j)))
      (assembled side input).pieceItems := by
  have hat : Divides "@" [.mark '@'] := fun _ _ _ _ => ⟨⟨rfl, by decide⟩, rfl⟩
  have hne : (List.range 32).reverse ≠ [] := by simp
  rw [Binding.pieceItems, assembled, List.map_map]
  exact adds_intercalate hat hne fun j _ => adds_of_yields (bitText_isName hside _).yields

theorem nests_assemblies {side : String} (hside : IsSide side) (inputs : List ValueId) :
    Nests (assemblies side inputs) (inputs.zipIdx.map (assembled side)) := by
  refine nests_join fun input _ => ?_
  have hname : IsName (assembled side input).name := symbolText_isName hside input.1
  have hbinding := nests_binding hname (adds_bits hside input)
  rw [assembly]
  exact hbinding

theorem nests_result {x : String} {side : String} {t : Term ValueId} {Γ : List (ValueId × Nat)} {n : Nat}
    (hx : IsName x) (hside : IsSide side) (ht : t.HasWidth Γ n) :
    Nests ("LET " ++ x ++ " = " ++ t.text (symbolText side) ++ " IN (\n") [⟨x, [t.map (symbolText side)]⟩] :=
  nests_binding (b := ⟨x, [t.map (symbolText side)]⟩) hx (adds_of_yields (yields_text (symbolText_isName hside) ht))

theorem isName_out1 : IsName "out1" := ⟨by simp, by simp, rfl⟩

theorem isName_out2 : IsName "out2" := ⟨by simp, by simp, rfl⟩

/-! ### The comparisons -/

def slice (x : String) (n : Nat) : List Item :=
  [.term (.symbol x), .mark '[', .number n, .mark ':', .number n, .mark ']']

def comparisonItems (p : Nat × Nat) : List Item := slice "out1" p.1 ++ [.mark '='] ++ slice "out2" p.2

theorem yields_slice {x : String} (hx : IsName x) (n : Nat) :
    Yields (x ++ "[" ++ toString n ++ ":" ++ toString n ++ "]") (slice x n) :=
  ((hx.yields.separated separates_bracket (yields_number n)).separated separates_colon (yields_number n)).mark
    separates_closing

theorem yields_comparison (p : Nat × Nat) : Yields (comparison p) (comparisonItems p) := by
  have hread := (yields_slice isName_out1 p.1).separated separates_equal (yields_slice isName_out2 p.2)
  have htext : comparison p = "out1" ++ "[" ++ toString p.1 ++ ":" ++ toString p.1 ++ "]" ++ " = " ++
      ("out2" ++ "[" ++ toString p.2 ++ ":" ++ toString p.2 ++ "]") := by
    have hopen : "out1[" = "out1" ++ "[" := rfl
    have hmiddle : "] = out2[" = "]" ++ (" = " ++ ("out2" ++ "[")) := rfl
    show "out1[" ++ toString p.1 ++ ":" ++ toString p.1 ++ "] = out2[" ++ toString p.2 ++ ":" ++ toString p.2 ++ "]" = _
    rw [hopen, hmiddle]
    simp only [String.append_assoc]
  rw [htext]
  exact hread

theorem equation?_comparisonItems (p : Nat × Nat) : Item.equation? (comparisonItems p) = some (compared p) := rfl

theorem isWord_comparisonItems (p : Nat × Nat) : ∀ i ∈ comparisonItems p, Item.isWord "AND" i = false := by
  simp [comparisonItems, slice, Item.isWord]

/-- Comparisons can be told from terms, bindings and `TRUE` by how they begin. -/
theorem question?_comparisons {pairs : List (Nat × Nat)} (hne : pairs ≠ []) :
    Item.close? none ([.term (.symbol "AND")].intercalate (pairs.map comparisonItems)) = none ∧
      Item.question? ([.term (.symbol "AND")].intercalate (pairs.map comparisonItems)) =
        some ⟨[], pairs.map compared⟩ := by
  have hread : Item.listed? (Item.isWord "AND") Item.equation?
      ([.term (.symbol "AND")].intercalate (pairs.map comparisonItems)) = some (pairs.map compared) :=
    Item.listed?_intercalate rfl hne (fun p _ => isWord_comparisonItems p) fun p _ => equation?_comparisonItems p
  obtain ⟨p, rest, rfl⟩ := List.exists_cons_of_ne_nil hne
  obtain ⟨tail, htail⟩ : ∃ tail, [Item.term (.symbol "AND")].intercalate ((p :: rest).map comparisonItems) =
      comparisonItems p ++ tail := by
    cases rest with
    | nil => exact ⟨[], by simp⟩
    | cons r rest => exact ⟨_, (List.intercalate_cons_of_ne_nil (by simp)).trans (List.append_assoc _ _ _)⟩
  rw [htail] at hread ⊢
  refine ⟨by simp [comparisonItems, slice, Item.close?, Item.group?, Item.alternatives?], ?_⟩
  have hbinding : Item.binding? (comparisonItems p ++ tail) = none := rfl
  have htrue : Item.isTrue (comparisonItems p ++ tail) = false := rfl
  rw [Item.question?, hbinding]
  simp only [Item.equations?, htrue, hread, if_false, Bool.false_eq_true, Option.map_some]

/-- The comparisons, or `TRUE` if there are none, between the bindings of the two results. -/
theorem run_comparisons {outer : List (Option Operator × List Item)} {done : Script} {rest : List Char} {b b' : Binding}
    (hb : b.Writable) (hb' : b'.Writable) (pairs : List (Nat × Nat)) :
    Stage.run (.reading ⟨[], [], frame b :: frame b' :: outer, done⟩)
        ((comparisons pairs).toList ++ (')' :: ')' :: rest)) =
      Stage.run (.said ⟨[b', b], pairs.map compared⟩ outer done) rest := by
  cases pairs with
  | nil => exact run_true hb hb'
  | cons p pairs =>
    have hand : Divides " AND\n" [.term (.symbol "AND")] := fun _ _ _ _ => ⟨⟨rfl, by decide⟩, rfl⟩
    have hne : p :: pairs ≠ [] := List.cons_ne_nil p pairs
    have hadds := adds_intercalate hand hne fun r _ => adds_of_yields (yields_comparison r)
    obtain ⟨hclose, hquestion⟩ := question?_comparisons hne
    have hd : Delimited ("\n".toList ++ ')' :: ')' :: rest) := ⟨rfl, by decide⟩
    have htext : comparisons (p :: pairs) = " AND\n".intercalate ((p :: pairs).map comparison) ++ "\n" := rfl
    rw [htext, String.toList_append, List.append_assoc, hadds _ _ _ _ hd]
    exact (run_equations hb hclose hquestion).trans (run_leave hb')

theorem writable_assembled (side : String) (input : ValueId × Nat) : (assembled side input).Writable := by
  refine ⟨by simp [assembled], fun p hp => ?_⟩
  obtain ⟨j, -, rfl⟩ := List.mem_map.mp hp
  have hletter : 'b' ≠ 'I' := by decide
  refine fun h => ne_of_head ?_ (Term.symbol.inj h)
  rw [toList_bitText]
  exact fun h => hletter (Option.some.inj h)

theorem writable_result (x side : String) (t : Term ValueId) : Binding.Writable ⟨x, [t.map (symbolText side)]⟩ := by
  refine ⟨List.cons_ne_nil _ _, fun p hp => ?_⟩
  rw [List.mem_singleton.mp hp]
  cases t with
  | symbol id =>
    have hletter : 's' ≠ 'I' := by decide
    refine fun h => ne_of_head ?_ (Term.symbol.inj h)
    rw [toList_symbolText]
    exact fun h => hletter (Option.some.inj h)
  | _ => simp [Term.map]

theorem writable_inputWords (q : BitQuery) : ∀ b ∈ q.inputWords, b.Writable := by
  intro b hb
  rcases List.mem_append.mp hb with hb | hb
  · obtain ⟨input, -, rfl⟩ := List.mem_map.mp hb
    exact writable_assembled "a" input
  · obtain ⟨input, -, rfl⟩ := List.mem_map.mp hb
    exact writable_assembled "b" input

/-- The query behind the commands, up to its last parenthesis. -/
theorem run_query {Γ Δ : List (ValueId × Nat)} {m n : Nat} (hfirst : q.first.HasWidth Γ m)
    (hsecond : q.second.HasWidth Δ n) (done : Script) (rest : List Char) :
    Stage.run (.reading ⟨[], [], [(some .query, [])], done⟩)
        ((assemblies "a" q.firstInputs ++ assemblies "b" q.secondInputs ++
          ("LET " ++ "out1" ++ " = " ++ q.first.text (symbolText "a") ++ " IN (\n" ++
            ("LET " ++ "out2" ++ " = " ++ q.second.text (symbolText "b") ++ " IN (\n"))).toList ++
          ((comparisons q.mapping.outputs.entries).toList ++
            (List.replicate (q.firstInputs.length + q.secondInputs.length + 3) ')' ++ rest))) =
      Stage.run (.posed q.inquiry.question done) rest := by
  have hwords : Nests (assemblies "a" q.firstInputs ++ assemblies "b" q.secondInputs) q.inputWords :=
    (nests_assemblies isSide_first q.firstInputs).append (nests_assemblies isSide_second q.secondInputs)
  have hresults : Nests ("LET " ++ "out1" ++ " = " ++ q.first.text (symbolText "a") ++ " IN (\n" ++
      ("LET " ++ "out2" ++ " = " ++ q.second.text (symbolText "b") ++ " IN (\n")) [q.firstResult, q.secondResult] :=
    (nests_result isName_out1 isSide_first hfirst).append (nests_result isName_out2 isSide_second hsecond)
  have hclosing : List.replicate (q.firstInputs.length + q.secondInputs.length + 3) ')' =
      ')' :: ')' :: List.replicate (q.inputWords.length + 1) ')' := by
    have hlength : q.inputWords.length = q.firstInputs.length + q.secondInputs.length := by simp [inputWords]
    rw [hlength]
    rfl
  rw [(hwords.append hresults) _ done _, hclosing, List.map_append, List.reverse_append]
  refine (run_comparisons (writable_result "out2" "b" q.second) (writable_result "out1" "a" q.first)
    q.mapping.outputs.entries).trans ?_
  exact run_said q.writable_inputWords

/-- The text of a query is read as its inquiry. -/
theorem readInquiry_text {Γ Δ : List (ValueId × Nat)} {m n : Nat} (hfirst : q.first.HasWidth Γ m)
    (hsecond : q.second.HasWidth Δ n) : readInquiry q.text = some q.inquiry := by
  have hbefore (rest : List Char) : Stage.run (.reading .start)
      ((declarations "a" q.firstInputs ++ declarations "b" q.secondInputs ++
        String.join (q.mapping.inputs.entries.map assertion)).toList ++ rest) =
      Stage.run (.reading ⟨[], [], [], q.inquiry.before⟩) rest := by
    have hread := commands_before q [] []
    rw [List.append_nil] at hread
    exact run_reading hread
  have hopening (done : Script) (rest : List Char) :
      Stage.run (.reading ⟨[], [], [], done⟩) ("\n\nQUERY(\n".toList ++ rest) =
        Stage.run (.reading ⟨[], [], [(some .query, [])], done⟩) rest := rfl
  have hend (question : Question) (done : Script) :
      Stage.run (.posed question done) ";\nCOUNTEREXAMPLE;".toList =
        some (.asked question done ⟨[], [], [], [.counterexample]⟩) := rfl
  have htext : q.text.toList =
      (declarations "a" q.firstInputs ++ declarations "b" q.secondInputs ++
        String.join (q.mapping.inputs.entries.map assertion)).toList ++
      ("\n\nQUERY(\n".toList ++
      ((assemblies "a" q.firstInputs ++ assemblies "b" q.secondInputs ++
          ("LET " ++ "out1" ++ " = " ++ q.first.text (symbolText "a") ++ " IN (\n" ++
            ("LET " ++ "out2" ++ " = " ++ q.second.text (symbolText "b") ++ " IN (\n"))).toList ++
          ((comparisons q.mapping.outputs.entries).toList ++
            (List.replicate (q.firstInputs.length + q.secondInputs.length + 3) ')' ++
              ";\nCOUNTEREXAMPLE;".toList)))) := by
    have hout1 : "LET out1 = " = "LET " ++ "out1" ++ " = " := rfl
    have hout2 : "LET out2 = " = "LET " ++ "out2" ++ " = " := rfl
    rw [text, hout1, hout2]
    simp only [String.toList_append, String.toList_ofList, List.append_assoc]
  have hrun : Stage.run (.reading .start) q.text.toList =
      some (.asked q.inquiry.question q.inquiry.before ⟨[], [], [], [.counterexample]⟩) := by
    rw [htext, hbefore, hopening, run_query hfirst hsecond, hend]
  rw [readInquiry, hrun]
  rfl

end

/-! ## Typing -/

theorem mem_bits {side : String} {inputs : List ValueId} {k : Nat} (hk : k < 32 * inputs.length) :
    bitText side k ∈ bits side inputs :=
  List.mem_map.mpr ⟨k, List.mem_range.mpr hk, rfl⟩

theorem nodup_names (q : BitQuery) : q.names.Nodup :=
  nodup_sides firstBit_injective secondBit_injective firstBit_ne_secondBit List.nodup_range List.nodup_range

theorem head_of_mem_names {x : String} (hx : x ∈ q.names) : x.toList.head? = some 'b' := by
  rcases List.mem_append.mp hx with hx | hx
  · obtain ⟨k, -, rfl⟩ := List.mem_map.mp hx
    rw [toList_bitText]
    rfl
  · obtain ⟨k, -, rfl⟩ := List.mem_map.mp hx
    rw [toList_bitText]
    rfl

theorem name_inputWords (q : BitQuery) : q.inputWords.map (·.name) =
    q.firstInputs.map (symbolText "a") ++ q.secondInputs.map (symbolText "b") := by
  have hside (side : String) (inputs : List ValueId) :
      (inputs.zipIdx.map (assembled side)).map (·.name) = inputs.map (symbolText side) := by
    rw [List.map_map, ← List.zipIdx_map_fst 0 inputs, List.map_map]
    simp [Function.comp_def, assembled]
  rw [inputWords, List.map_append, hside, hside]

variable {first second : Subject} {a b : Term ValueId} {m : BitMapping}

def ofTerms (first second : Subject) (m : BitMapping) (a b : Term ValueId) : BitQuery :=
  ⟨first.inputs, second.inputs, a, b, m⟩

theorem build_eq_ofTerms {mappings : List BitMapping} (ha : first.term = .ok a) (hb : second.term = .ok b) :
    build first second mappings = .ok (mappings.map fun m => ofTerms first second m a b) := by
  rw [build, ha, hb]
  rfl

theorem nodup_inputWords (first second : Subject) (m : BitMapping) (a b : Term ValueId) :
    ((ofTerms first second m a b).inputWords.map (·.name)).Nodup := by
  rw [name_inputWords]
  exact nodup_sides firstName_injective secondName_injective firstName_ne_secondName first.nodup_inputs
    second.nodup_inputs

theorem declarations_before (q : BitQuery) : q.inquiry.before.declarations = q.names.map (·, 1) := by
  have hequations : ∀ c ∈ q.equations, ∃ a b, c = .assert a b := by
    intro c hc
    obtain ⟨p, -, rfl⟩ := List.mem_map.mp hc
    exact ⟨_, _, rfl⟩
  have hnone : Script.declarations (q.equations ++ []) = [] := Script.declarations_append hequations
  rw [List.append_nil] at hnone
  rw [inquiry, Script.declarations_declares, hnone]
  exact List.append_nil _

theorem wellTyped_before (hm : m.InRange first second) :
    (ofTerms first second m a b).inquiry.before.WellTyped [] := by
  have hwidth {x : String} (hx : x ∈ (ofTerms first second m a b).names) :
      (Term.symbol x).HasWidth ((ofTerms first second m a b).names.map (·, 1)) 1 :=
    .symbol (List.mem_map.mpr ⟨x, hx, rfl⟩)
  refine Script.wellTyped_declares (nodup_names _) (fun x _ => List.not_mem_nil) ?_
  rw [← List.append_nil (ofTerms first second m a b).equations]
  refine Script.wellTyped_append (.nil _) fun c hc => ?_
  obtain ⟨p, hp, rfl⟩ := List.mem_map.mp hc
  obtain ⟨hfirst, hsecond⟩ := hm.inputs p hp
  exact ⟨_, _, 1, rfl, hwidth (List.mem_append_left _ (mem_bits hfirst)),
    hwidth (List.mem_append_right _ (mem_bits hsecond))⟩

/-- The pieces of an input word are declared bits, 32 of them. -/
theorem assembled_hasWidth {q : BitQuery} {word : Binding} (hb : word ∈ q.inputWords) :
    ∃ widths : List Nat, widths.sum = 32 ∧
      List.Forall₂ (·.HasWidth (q.names.map (·, 1)) ·) word.pieces widths := by
  have hside {side : String} {inputs : List ValueId} (hbits : ∀ x ∈ bits side inputs, x ∈ q.names)
      (hb : word ∈ inputs.zipIdx.map (assembled side)) :
      word.pieces.length = 32 ∧ ∀ p ∈ word.pieces, p.HasWidth (q.names.map (·, 1)) 1 := by
    obtain ⟨⟨id, i⟩, hi, rfl⟩ := List.mem_map.mp hb
    refine ⟨by simp [assembled], fun p hp => ?_⟩
    obtain ⟨j, hj, rfl⟩ := List.mem_map.mp hp
    rw [List.mem_reverse, List.mem_range] at hj
    have hlength := (List.mem_zipIdx hi).2.1
    refine .symbol (List.mem_map.mpr ⟨_, hbits _ (mem_bits ?_), rfl⟩)
    dsimp only
    omega
  have hpieces : word.pieces.length = 32 ∧ ∀ p ∈ word.pieces, p.HasWidth (q.names.map (·, 1)) 1 := by
    rcases List.mem_append.mp hb with hb | hb
    · exact hside (fun x => List.mem_append_left _) hb
    · exact hside (fun x => List.mem_append_right _) hb
  refine ⟨word.pieces.map fun _ => 1, by simp [hpieces.1], ?_⟩
  rw [List.forall₂_map_right_iff, List.forall₂_same]
  exact hpieces.2

theorem head_of_mem_inputWords {x : String} (hx : x ∈ q.inputWords.map (·.name)) : x.toList.head? = some 's' := by
  rw [name_inputWords] at hx
  rcases List.mem_append.mp hx with hx | hx
  · obtain ⟨id, -, rfl⟩ := List.mem_map.mp hx
    rw [toList_symbolText]
    rfl
  · obtain ⟨id, -, rfl⟩ := List.mem_map.mp hx
    rw [toList_symbolText]
    rfl

def scope (q : BitQuery) : List (String × Nat) :=
  q.names.map (·, 1) ++ q.inputWords.map fun word => (word.name, 32)

theorem not_mem_scope {x : String} (hx : x.toList.head? = some 'o') : x ∉ q.scope.map (·.1) := by
  have hnames : q.scope.map (·.1) = q.names ++ q.inputWords.map (·.name) := by
    simp [scope, Function.comp_def]
  rw [hnames, List.mem_append, not_or]
  constructor
  · intro hmem
    have hletter := hx.symm.trans (head_of_mem_names hmem)
    exact absurd hletter (by decide)
  · intro hmem
    have hletter := hx.symm.trans (head_of_mem_inputWords hmem)
    exact absurd hletter (by decide)

/-- A term over the inputs of a side is a word once the input words are bound. -/
theorem result_hasWidth {side : String} {inputs : List ValueId} {t : Term ValueId}
    (ht : t.HasWidth (inputs.map (·, 32)) 32) (hinputs : ∀ s ∈ inputs, symbolText side s ∈ q.inputWords.map (·.name)) :
    (t.map (symbolText side)).HasWidth q.scope 32 := by
  refine (ht.map (symbolText side)).mono fun e he => ?_
  rw [List.map_map] at he
  obtain ⟨s, hs, rfl⟩ := List.mem_map.mp he
  obtain ⟨word, hword, hname⟩ := List.mem_map.mp (hinputs s hs)
  exact List.mem_append_right _ (List.mem_map.mpr ⟨word, hword, by rw [hname]; rfl⟩)

theorem mem_inputWords_first {id : ValueId} (h : id ∈ first.inputs) :
    symbolText "a" id ∈ (ofTerms first second m a b).inputWords.map (·.name) := by
  rw [name_inputWords]
  exact List.mem_append_left _ (List.mem_map.mpr ⟨id, h, rfl⟩)

theorem mem_inputWords_second {id : ValueId} (h : id ∈ second.inputs) :
    symbolText "b" id ∈ (ofTerms first second m a b).inputWords.map (·.name) := by
  rw [name_inputWords]
  exact List.mem_append_right _ (List.mem_map.mpr ⟨id, h, rfl⟩)

theorem slice_hasWidth {Γ : List (String × Nat)} {x : String} {i : Nat} (hx : (x, 32) ∈ Γ) (hi : i ≤ 31) :
    (Term.extract (.symbol x) i i).HasWidth Γ 1 := by
  have hslice := Term.HasWidth.extract (.symbol hx) (Nat.le_refl i) (Nat.lt_succ_of_le hi)
  rw [Nat.sub_self] at hslice
  exact hslice

theorem wellTyped_question (hfirst : first.table.WellFormed) (hsecond : second.table.WellFormed)
    (ha : first.term = .ok a) (hb : second.term = .ok b) (hm : m.InRange first second) :
    (ofTerms first second m a b).inquiry.question.WellTyped ((ofTerms first second m a b).names.map (·, 1)) := by
  have hdeclared (x : String) (hx : x ∈ (ofTerms first second m a b).inputWords.map (·.name)) :
      x ∉ ((ofTerms first second m a b).names.map (·, 1)).map (·.1) := by
    intro hmem
    simp only [List.map_map, Function.comp_def, List.map_id'] at hmem
    have hletter := (head_of_mem_inputWords hx).symm.trans (head_of_mem_names hmem)
    exact absurd hletter (by decide)
  refine Question.wellTyped_append (nodup_inputWords first second m a b) hdeclared (fun w hw => assembled_hasWidth hw) ?_
  -- Under the input words stand the two results, and under these the comparisons.
  have hout1 : "out1" ∉ (ofTerms first second m a b).scope.map (·.1) := not_mem_scope (by simp)
  have hout2 : "out2" ∉ (ofTerms first second m a b).scope.map (·.1) := not_mem_scope (by simp)
  have hfirst' : (a.map (symbolText "a")).HasWidth (ofTerms first second m a b).scope 32 :=
    result_hasWidth (hfirst.solverTerm_hasWidth ha) fun s hs => mem_inputWords_first hs
  have hsecond' : (b.map (symbolText "b")).HasWidth (ofTerms first second m a b).scope 32 :=
    result_hasWidth (hsecond.solverTerm_hasWidth hb) fun s hs => mem_inputWords_second hs
  refine .single hout1 hfirst' (.single ?_ (hsecond'.mono (List.subset_append_left _ _)) (.equations ?_))
  · rw [List.map_append, List.mem_append, not_or]
    exact ⟨hout2, by simp⟩
  · intro e he
    obtain ⟨p, hp, rfl⟩ := List.mem_map.mp he
    obtain ⟨hfst, hsnd⟩ := hm.outputs p hp
    exact ⟨1, slice_hasWidth (by simp) hfst, slice_hasWidth (by simp) hsnd⟩

theorem wellTyped_inquiry (hfirst : first.table.WellFormed) (hsecond : second.table.WellFormed)
    (ha : first.term = .ok a) (hb : second.term = .ok b) (hm : m.InRange first second) :
    (ofTerms first second m a b).inquiry.WellTyped := by
  refine ⟨wellTyped_before hm, ?_, .counterexample (.nil _)⟩
  rw [declarations_before]
  exact wellTyped_question hfirst hsecond ha hb hm

/-! ## What a query asks -/

variable {ρ : Environment} {σ σ' : Assignment}

def inputScope (q : BitQuery) (ρ : Environment) : Environment := q.inputWords.foldl Binding.extend ρ

theorem foldl_bindings (q : BitQuery) (ρ : Environment) : q.inquiry.question.bindings.foldl Binding.extend ρ =
    q.secondResult.extend (q.firstResult.extend (q.inputScope ρ)) := by
  rw [inquiry, List.foldl_append]
  rfl

/-- The results have names that no input has. -/
theorem extend_symbolText {x : String} (hx : x.toList.head? = some 'o') (ps : List (Term String)) (ρ : Environment)
    (side : String) (id : ValueId) : Binding.extend ρ ⟨x, ps⟩ (symbolText side id) = ρ (symbolText side id) := by
  refine Binding.extend_of_ne (ne_of_head ?_)
  rw [hx, toList_symbolText]
  exact fun h => absurd (Option.some.inj h) (by decide)

theorem inputScope_of_mem {word : Binding} (hnd : (q.inputWords.map (·.name)).Nodup) (hword : word ∈ q.inputWords) :
    q.inputScope ρ word.name = word.value ρ := by
  -- The bits of an input word are no input words themselves.
  have hbits (ρ ρ' : Environment) (side : String) (input : ValueId × Nat)
      (h : ∀ x ∉ q.inputWords.map (·.name), ρ' x = ρ x) :
      (assembled side input).value ρ' = (assembled side input).value ρ := by
    refine congrArg BitString.concat (List.map_congr_left fun p hp => ?_)
    obtain ⟨j, -, rfl⟩ := List.mem_map.mp hp
    refine h _ fun hmem => ?_
    have hletter := head_of_mem_inputWords hmem
    rw [toList_bitText] at hletter
    exact absurd (Option.some.inj hletter) (by decide)
  refine Binding.foldl_extend_of_mem hnd (List.Subset.refl _) ?_ hword
  intro word hword ρ ρ' h
  rcases List.mem_append.mp hword with hword | hword
  · obtain ⟨input, -, rfl⟩ := List.mem_map.mp hword
    exact hbits ρ ρ' "a" input h
  · obtain ⟨input, -, rfl⟩ := List.mem_map.mp hword
    exact hbits ρ ρ' "b" input h

theorem eq_bit {x : BitString} (h : x.1 = 1) : x = ⟨1, BitVec.ofBool (x.2.getLsbD 0)⟩ := by
  refine BitString.eq_of_bits h fun j hj => ?_
  have hj0 : j = 0 := by omega
  simp [hj0]

/-- An input word has the bits that it is put together from. -/
theorem assembled_value {side : String} {i : Nat} (id : ValueId)
    (hρ : ∀ j < 32, (ρ (bitText side (32 * i + j))).1 = 1) :
    ∃ w : Word, (assembled side (id, i)).value ρ = ⟨32, w⟩ ∧
      ∀ j < 32, ρ (bitText side (32 * i + j)) = ⟨1, BitVec.ofBool (w.getLsbD j)⟩ := by
  have hpieces : (assembled side (id, i)).pieces.map (Term.value ρ) =
      (List.range 32).reverse.map fun j => ρ (bitText side (32 * i + j)) := by
    rw [assembled, List.map_map, Nat.mul_comm]
    rfl
  obtain ⟨hwidth, hbits⟩ := BitString.concat_bits hρ
  rw [Binding.value, hpieces]
  have hword := EquivalenceQuery.eq_word hwidth
  refine ⟨_, hword, fun j hj => ?_⟩
  have hbit := hbits j hj
  rw [hword] at hbit
  rw [hbit]
  exact eq_bit (hρ j hj)

theorem rebuilt (hρ : ∀ x ∈ (ofTerms first second m a b).names, (ρ x).1 = 1) :
    first.RebuiltFrom "a" ρ ((ofTerms first second m a b).inputScope ρ) ∧
      second.RebuiltFrom "b" ρ ((ofTerms first second m a b).inputScope ρ) := by
  have hnd := nodup_inputWords first second m a b
  have hside {side : String} {inputs : List ValueId} {i : Nat} {id : ValueId} (hid : inputs[i]? = some id)
      (hbits : ∀ x ∈ bits side inputs, (ρ x).1 = 1)
      (hword : assembled side (id, i) ∈ (ofTerms first second m a b).inputWords) :
      ∃ w : Word, (ofTerms first second m a b).inputScope ρ (symbolText side id) = ⟨32, w⟩ ∧
        ∀ j < 32, ρ (bitText side (32 * i + j)) = ⟨1, BitVec.ofBool (w.getLsbD j)⟩ := by
    have hi := (List.getElem?_eq_some_iff.mp hid).1
    obtain ⟨w, hw, hbits⟩ := assembled_value id fun j hj => hbits _ (mem_bits (by omega : 32 * i + j < _))
    exact ⟨w, (inputScope_of_mem hnd hword).trans hw, hbits⟩
  constructor
  · intro i id hid
    refine hside hid (fun x hx => hρ x (List.mem_append_left _ hx))
      (List.mem_append_left _ (List.mem_map.mpr ⟨(id, i), ?_, rfl⟩))
    exact List.mem_zipIdx_iff_getElem?.mpr hid
  · intro i id hid
    refine hside hid (fun x hx => hρ x (List.mem_append_right _ hx))
      (List.mem_append_right _ (List.mem_map.mpr ⟨(id, i), ?_, rfl⟩))
    exact List.mem_zipIdx_iff_getElem?.mpr hid

theorem rebuilt_under_results {s : Subject} {side : String} (h : s.RebuiltFrom side ρ (q.inputScope ρ)) :
    s.RebuiltFrom side ρ (q.inquiry.question.bindings.foldl Binding.extend ρ) := by
  intro i id hid
  obtain ⟨w, hw, hbits⟩ := h i id hid
  refine ⟨w, ?_, hbits⟩
  rw [foldl_bindings, secondResult, extend_symbolText (by simp), firstResult, extend_symbolText (by simp)]
  exact hw

/-- The compared names stand for the two results. -/
theorem holds_iff_bits {w w' : Word} (hfirst : (q.first.map (symbolText "a")).value (q.inputScope ρ) = ⟨32, w⟩)
    (hsecond : (q.second.map (symbolText "b")).value (q.firstResult.extend (q.inputScope ρ)) = ⟨32, w'⟩) :
    q.inquiry.question.Holds ρ ↔ ∀ p ∈ q.mapping.outputs.entries, w.getLsbD p.1 = w'.getLsbD p.2 := by
  generalize hρ : q.inquiry.question.bindings.foldl Binding.extend ρ = ρ'
  rw [foldl_bindings] at hρ
  have hout1 : ρ' "out1" = ⟨32, w⟩ := by
    rw [← hρ, Binding.extend_of_ne (by simp [secondResult]), firstResult, Binding.extend_single, hfirst]
  have hout2 : ρ' "out2" = ⟨32, w'⟩ := by
    rw [← hρ, secondResult, Binding.extend_single, hsecond]
  have hcompared (p : Nat × Nat) : (compared p).1.value ρ' = (compared p).2.value ρ' ↔
      w.getLsbD p.1 = w'.getLsbD p.2 := by
    rw [compared, Term.value, Term.value, Term.value, Term.value, hout1, hout2, BitString.extract_bit,
      BitString.extract_bit, Sigma.mk.injEq, heq_eq_eq, BitVec.ofBool_eq_iff_eq]
    exact and_iff_right rfl
  rw [Question.Holds, foldl_bindings, hρ]
  simp only [inquiry, List.forall_mem_map]
  exact forall₂_congr fun p _ => hcompared p

/-- Where the inputs have these words, a question asks about what the subjects evaluate to. -/
theorem holds_iff (hfirst : first.table.WellFormed) (hsecond : second.table.WellFormed) (ha : first.term = .ok a)
    (hb : second.term = .ok b) (hca : first.CountsKnown) (hcb : second.CountsKnown)
    (hσ : ∀ id ∈ first.inputs, (ofTerms first second m a b).inputScope ρ (symbolText "a" id) = ⟨32, σ id⟩)
    (hσ' : ∀ id ∈ second.inputs, (ofTerms first second m a b).inputScope ρ (symbolText "b" id) = ⟨32, σ' id⟩) :
    ∃ w w', first.Evaluates σ w ∧ second.Evaluates σ' w' ∧
      ((ofTerms first second m a b).inquiry.question.Holds ρ ↔
        ∀ p ∈ m.outputs.entries, w.getLsbD p.1 = w'.getLsbD p.2) := by
  obtain ⟨w, hw, hv⟩ := hfirst.solverTerm_value ha (hca.countsFit σ) hσ
  -- The name of the first result is bound there too, but no input has it.
  have hσ'' : ∀ id ∈ second.inputs, (ofTerms first second m a b).firstResult.extend
      ((ofTerms first second m a b).inputScope ρ) (symbolText "b" id) = ⟨32, σ' id⟩ := by
    intro id hid
    rw [firstResult, extend_symbolText (by simp)]
    exact hσ' id hid
  obtain ⟨w', hw', hv'⟩ := hsecond.solverTerm_value hb (hcb.countsFit σ') hσ''
  exact ⟨w, w', hw, hw', holds_iff_bits hv hv'⟩

theorem assumes_before : (∀ c ∈ q.inquiry.before, c.Assumes ρ) ↔ (∀ x ∈ q.names, (ρ x).1 = 1) ∧
    ∀ p ∈ q.mapping.inputs.entries, ρ (bitText "a" p.1) = ρ (bitText "b" p.2) := by
  simp only [inquiry, List.forall_mem_append, Script.declares, equations, List.forall_mem_map, Command.Assumes,
    Term.value]

theorem valid_iff_bits_agree (hfirst : first.table.WellFormed) (hsecond : second.table.WellFormed)
    (ha : first.term = .ok a) (hb : second.term = .ok b) (hm : m.InRange first second) (hca : first.CountsKnown)
    (hcb : second.CountsKnown) :
    (ofTerms first second m a b).inquiry.Valid ↔ ∀ σ σ' : Assignment,
      (∀ p ∈ m.inputs.entries, first.inputBit σ p.1 = second.inputBit σ' p.2) →
      ∃ w w', first.Evaluates σ w ∧ second.Evaluates σ' w' ∧
        ∀ p ∈ m.outputs.entries, w.getLsbD p.1 = w'.getLsbD p.2 := by
  constructor
  · -- The bits of any words make up an environment, since the sides have no bit in common.
    intro hvalid σ σ' hinputs
    obtain ⟨ρ, hρ, hρ'⟩ := exists_environment firstBit_injective secondBit_injective firstBit_ne_secondBit
      (fun k => ⟨1, BitVec.ofBool (first.inputBit σ k)⟩) fun k => ⟨1, BitVec.ofBool (second.inputBit σ' k)⟩
    have hnames : ∀ x ∈ (ofTerms first second m a b).names, (ρ x).1 = 1 := by
      intro x hx
      rcases List.mem_append.mp hx with hx | hx
      · obtain ⟨k, -, rfl⟩ := List.mem_map.mp hx
        rw [hρ]
      · obtain ⟨k, -, rfl⟩ := List.mem_map.mp hx
        rw [hρ']
    have hpairs : ∀ p ∈ m.inputs.entries, ρ (bitText "a" p.1) = ρ (bitText "b" p.2) := by
      intro p hp
      rw [hρ, hρ', hinputs p hp]
    obtain ⟨hwords, hwords'⟩ := rebuilt hnames
    obtain ⟨w, w', hw, hw', hiff⟩ := holds_iff hfirst hsecond ha hb hca hcb
      ((hwords.words_iff σ).mpr fun k _ => hρ k) ((hwords'.words_iff σ').mpr fun k _ => hρ' k)
    exact ⟨w, w', hw, hw', hiff.mp (hvalid ρ (assumes_before.mpr ⟨hnames, hpairs⟩))⟩
  · -- The declared bits of any environment make up the words of the inputs.
    intro hsame ρ hbefore
    obtain ⟨hnames, hpairs⟩ := assumes_before.mp hbefore
    obtain ⟨hwords, hwords'⟩ := rebuilt hnames
    obtain ⟨σ, hσ⟩ := hwords.exists_words
    obtain ⟨σ', hσ'⟩ := hwords'.exists_words
    have hbits := (hwords.words_iff σ).mp hσ
    have hbits' := (hwords'.words_iff σ').mp hσ'
    have hinputs : ∀ p ∈ m.inputs.entries, first.inputBit σ p.1 = second.inputBit σ' p.2 := by
      intro p hp
      obtain ⟨hfst, hsnd⟩ := hm.inputs p hp
      have hpair := hpairs p hp
      rw [hbits _ hfst, hbits' _ hsnd] at hpair
      exact BitVec.ofBool_eq_iff_eq.mp (eq_of_heq (Sigma.mk.inj hpair).2)
    obtain ⟨w, w', hw, hw', hagree⟩ := hsame σ σ' hinputs
    obtain ⟨u, u', hu, hu', hiff⟩ := holds_iff hfirst hsecond ha hb hca hcb hσ hσ'
    cases hw.symm.trans hu
    cases hw'.symm.trans hu'
    exact hiff.mpr hagree

/-- For every mapping between existing bits there is a query. Its parentheses are balanced and all
    names in it are declared or bound where they are used; bit `j` of input number `i` is rebuilt
    from bit variable `32 * i + j`; if all shift counts are known, it is valid exactly if the mapped
    bits of the results agree under all words whose mapped bits do; and with nothing to compare it
    is valid. -/
theorem bit_queries_are_closed_and_exact (hfirst : first.table.WellFormed) (hsecond : second.table.WellFormed)
    (ha : first.term = .ok a) (hb : second.term = .ok b) {mappings : List BitMapping}
    (hrange : ∀ m ∈ mappings, m.InRange first second) :
    ∃ queries, build first second mappings = .ok queries ∧ List.Forall₂ (fun m q =>
      Balanced q.text ∧ ∃ i, readInquiry q.text = some i ∧ i.WellTyped ∧
        (∀ ρ, (∀ c ∈ i.before, c.Assumes ρ) →
          first.RebuiltFrom "a" ρ (i.question.bindings.foldl Binding.extend ρ) ∧
          second.RebuiltFrom "b" ρ (i.question.bindings.foldl Binding.extend ρ)) ∧
        (first.CountsKnown → second.CountsKnown → (i.Valid ↔ ∀ σ σ' : Assignment,
          (∀ p ∈ m.inputs.entries, first.inputBit σ p.1 = second.inputBit σ' p.2) →
          ∃ w w', first.Evaluates σ w ∧ second.Evaluates σ' w' ∧
            ∀ p ∈ m.outputs.entries, w.getLsbD p.1 = w'.getLsbD p.2)) ∧
        (m.outputs.entries = [] → i.Valid)) mappings queries := by
  refine ⟨_, build_eq_ofTerms ha hb, ?_⟩
  rw [List.forall₂_map_right_iff, List.forall₂_same]
  intro m hm
  have hread : readInquiry (ofTerms first second m a b).text = some (ofTerms first second m a b).inquiry :=
    readInquiry_text (hfirst.solverTerm_hasWidth ha) (hsecond.solverTerm_hasWidth hb)
  refine ⟨balanced_of_readInquiry hread, _, hread, wellTyped_inquiry hfirst hsecond ha hb (hrange m hm),
    fun ρ hρ => ?_, valid_iff_bits_agree hfirst hsecond ha hb (hrange m hm), fun hnone ρ _ => ?_⟩
  · obtain ⟨hwords, hwords'⟩ := rebuilt (assumes_before.mp hρ).1
    exact ⟨rebuilt_under_results hwords, rebuilt_under_results hwords'⟩
  · intro e he
    rw [inquiry, ofTerms, hnone] at he
    cases he

open EquivalenceQuery (doubled shifted doubled_wellFormed shifted_wellFormed doubled_countsKnown shifted_countsKnown
  doubled_term shifted_term doubled_evaluates shifted_evaluates shift_one)

theorem doubled_inputs : doubled.inputs = [0] := by cbv

theorem shifted_inputs : shifted.inputs = [0] := by cbv

def lowestBits : BitMapping := ⟨.ofList [(0, 0)], .ofList [(0, 0), (1, 1)]⟩

theorem low_bits_of_a_double_and_a_shift :
    doubled.table.WellFormed ∧ shifted.table.WellFormed ∧ doubled.CountsKnown ∧ shifted.CountsKnown ∧
      lowestBits.InRange doubled shifted ∧ ∃ q i, build doubled shifted [lowestBits] = .ok [q] ∧ Balanced q.text ∧
        readInquiry q.text = some i ∧ i.Valid := by
  have hrange : lowestBits.InRange doubled shifted :=
    ⟨by rw [doubled_inputs, shifted_inputs]; decide, by decide⟩
  obtain ⟨queries, hbuild, hqueries⟩ := bit_queries_are_closed_and_exact doubled_wellFormed shifted_wellFormed
    doubled_term shifted_term (List.forall_mem_singleton.mpr hrange)
  cases hqueries with
  | cons hq hnil =>
    cases hnil
    obtain ⟨hbalanced, i, hread, -, -, hvalid, -⟩ := hq
    refine ⟨doubled_wellFormed, shifted_wellFormed, doubled_countsKnown, shifted_countsKnown, hrange, _, i, hbuild,
      hbalanced, hread, (hvalid doubled_countsKnown shifted_countsKnown).mpr fun σ σ' h => ?_⟩
    have h0 : (σ 0).getLsbD 0 = (σ' 0).getLsbD 0 := by
      have hbit := h (0, 0) (by decide)
      rw [Subject.inputBit, Subject.inputBit, doubled_inputs, shifted_inputs] at hbit
      exact hbit
    refine ⟨_, _, doubled_evaluates σ, shifted_evaluates σ', fun p hp => ?_⟩
    rw [← shift_one, ← shift_one, BitVec.getLsbD_shiftLeft, BitVec.getLsbD_shiftLeft]
    have hpairs : p = (0, 0) ∨ p = (1, 1) := by simpa using (show p ∈ [(0, 0), (1, 1)] from hp)
    rcases hpairs with rfl | rfl
    · rfl
    · exact h0

end BitQuery

end Solver

end TraceReplay
