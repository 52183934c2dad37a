/-
  TraceReplay.Formula.Evaluation — the inputs of a value and its word under given inputs.

  Evaluation fails only at an operation without a rule, and names its opcode. Operands are
  evaluated from left to right, so the first such operation below the left-most operand is
  named before the operation above it.
-/

import TraceReplay.Formula

namespace TraceReplay

/-! ## Inputs -/

/-- The union of two ascending lists. -/
def mergeAscending : List Nat → List Nat → List Nat
  | [], bs => bs
  | as, [] => as
  | a :: as, b :: bs =>
    if a < b then a :: mergeAscending as (b :: bs)
    else if b < a then b :: mergeAscending (a :: as) bs
    else a :: mergeAscending as bs

/-- The symbols below a value, ascending. -/
def Interpretation.inputs : Interpretation (List ValueId) where
  symbol id _ := [id]
  constant _ := []
  hybrid _ parts := (parts.map (·.2)).foldl mergeAscending []
  operation _ args := args.foldl mergeAscending []

def Table.inputs (t : Table) (id : ValueId) : List ValueId := t.interpret .inputs id

/-! ## Words -/

/-- A word for every symbol. -/
abbrev Assignment := ValueId → Word

/-- A symbol takes the low bits of its word, as many as it is wide. -/
def Interpretation.evaluation (σ : Assignment) : Interpretation (Except Opcode Word) where
  symbol id width := .ok (σ id &&& (BitRange.lowBits width).mask)
  constant value := .ok value
  hybrid _ parts := parts.foldlM (fun word p => p.2.map (word ||| p.1.place ·)) 0
  operation opcode args := do
    match opcode.apply (← args.mapM id) with
    | some word => .ok word
    | none => .error opcode

def Table.eval (t : Table) (σ : Assignment) (id : ValueId) : Except Opcode Word :=
  t.interpret (.evaluation σ) id

/-- The word that needs no input. -/
def Interpretation.known : Interpretation (Option Word) where
  symbol _ _ := none
  constant value := some value
  hybrid _ parts := parts.foldlM (fun word p => p.2.map (word ||| p.1.place ·)) 0
  operation opcode args := (args.mapM id).bind opcode.apply

def Formula.known? (f : Formula) : Option Word := f.interpret .known

/-! ## Bindings -/

abbrev Bindings := SortedMap ValueId Word

namespace Bindings

/-- Pair inputs with values in order. -/
def ofValues (inputs : List ValueId) (values : List Word) : Except Fault Bindings :=
  if inputs.length = values.length then .ok (.ofList (inputs.zip values))
  else .error (.bindingArity inputs.length values.length)

def assignment (b : Bindings) : Assignment := fun id => (b.get? id).getD 0

end Bindings

/-- The word of a value when exactly its inputs are bound. -/
def Table.evaluate (t : Table) (id : ValueId) (b : Bindings) : Except Fault Word :=
  let inputs := t.inputs id
  let unbound := (inputs.filter (!b.contains ·)).length
  let unexpected := (b.keys.filter (!inputs.contains ·)).length
  if unbound + unexpected > 0 then .error (.bindingMismatch unbound unexpected)
  else
    match t.eval b.assignment id with
    | .ok word => .ok word
    | .error opcode => .error (.unknownOperation opcode.name)

end TraceReplay
