/-
  TraceReplay.Solver.Query — questions to the solver about two formulas.

  The symbols of the first formula have the suffix `a` and those of the second `b`. An
  `EquivalenceQuery` asks whether the formulas can differ while paired symbols agree. A
  `BitQuery` asks the same bit by bit: the inputs are rebuilt from single bits, of which
  paired ones agree, and paired bits of the results are compared. Bit `32 * i + j` of a
  side is bit `j` of its input number `i`.
-/

import TraceReplay.Solver.Term

namespace TraceReplay

/-- A value in its table. -/
structure Subject where
  table : Table
  root : ValueId

namespace Subject

def inputs (s : Subject) : List ValueId := s.table.inputs s.root

def term (s : Subject) : Except Fault (Solver.Term ValueId) := s.table.solverTerm s.root

end Subject

namespace Solver

/-! ## Whole words -/

structure EquivalenceQuery where
  firstSymbols : List ValueId
  secondSymbols : List ValueId
  pairs : List (ValueId × ValueId)
  first : Term ValueId
  second : Term ValueId

namespace EquivalenceQuery

/-- The symbols to declare: the inputs of the formula and those that a pair names. -/
def declared (inputs paired : List ValueId) : List ValueId :=
  (SortedMap.ofList ((inputs ++ paired).map (·, ()))).keys

def build (first second : Subject) (pairs : List (ValueId × ValueId)) :
    Except Fault EquivalenceQuery := do
  return {
    firstSymbols := declared first.inputs (pairs.map (·.1))
    secondSymbols := declared second.inputs (pairs.map (·.2))
    pairs
    first := ← first.term
    second := ← second.term }

def declarations (side : String) (ids : List ValueId) : String :=
  String.join (ids.map fun id => symbolText side id ++ ": BV(32);\n")

def assertion (pair : ValueId × ValueId) : String :=
  "ASSERT(" ++ symbolText "a" pair.1 ++ " = " ++ symbolText "b" pair.2 ++ ");\n"

def text (q : EquivalenceQuery) : String :=
  declarations "a" q.firstSymbols ++ declarations "b" q.secondSymbols ++ "\n" ++
    String.join (q.pairs.map assertion) ++
    "\nQUERY(\n" ++ q.first.text (symbolText "a") ++ "\n=\n" ++ q.second.text (symbolText "b") ++
    ");\nCOUNTEREXAMPLE;\n"

end EquivalenceQuery

/-! ## Single bits -/

/-- Which bits of the first formula go with which bits of the second. -/
structure BitMapping where
  inputs : SortedMap Nat Nat
  outputs : SortedMap Nat Nat
  deriving DecidableEq

structure BitQuery where
  firstInputs : List ValueId
  secondInputs : List ValueId
  first : Term ValueId
  second : Term ValueId
  mapping : BitMapping

namespace BitQuery

def build (first second : Subject) (mappings : List BitMapping) : Except Fault (List BitQuery) := do
  let firstTerm ← first.term
  let secondTerm ← second.term
  return mappings.map fun mapping =>
    ⟨first.inputs, second.inputs, firstTerm, secondTerm, mapping⟩

def bitText (side : String) (i : Nat) : String := s!"bit{i}{side}"

def declarations (side : String) (inputs : List ValueId) : String :=
  String.join ((List.range (32 * inputs.length)).map fun i => bitText side i ++ ": BV(1);\n")

def assertion (pair : Nat × Nat) : String :=
  "ASSERT(" ++ bitText "a" pair.1 ++ " = " ++ bitText "b" pair.2 ++ ");\n"

/-- One input word put together from its bits, the highest first. -/
def assembly (side : String) (input : ValueId × Nat) : String :=
  let bits := (List.range 32).reverse.map fun j => bitText side (input.2 * 32 + j)
  "LET " ++ symbolText side input.1 ++ " = " ++ "@".intercalate bits ++ " IN (\n"

def assemblies (side : String) (inputs : List ValueId) : String :=
  String.join (inputs.zipIdx.map (assembly side))

def comparison (pair : Nat × Nat) : String :=
  s!"out1[{pair.1}:{pair.1}] = out2[{pair.2}:{pair.2}]"

/-- With no outputs to compare there is nothing to refute. -/
def comparisons (outputs : List (Nat × Nat)) : String :=
  match outputs with
  | [] => "TRUE\n"
  | pairs => " AND\n".intercalate (pairs.map comparison) ++ "\n"

def text (q : BitQuery) : String :=
  declarations "a" q.firstInputs ++ declarations "b" q.secondInputs ++
    String.join (q.mapping.inputs.entries.map assertion) ++ "\n\nQUERY(\n" ++
    assemblies "a" q.firstInputs ++ assemblies "b" q.secondInputs ++
    "LET out1 = " ++ q.first.text (symbolText "a") ++ " IN (\n" ++
    "LET out2 = " ++ q.second.text (symbolText "b") ++ " IN (\n" ++
    comparisons q.mapping.outputs.entries ++
    String.ofList (List.replicate (q.firstInputs.length + q.secondInputs.length + 3) ')') ++
    ";\nCOUNTEREXAMPLE;"

end BitQuery

end Solver

end TraceReplay
