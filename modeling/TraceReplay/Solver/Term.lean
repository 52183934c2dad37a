/-
  TraceReplay.Solver.Term — bit-vector terms in the solver's language.

  A term denotes a bit vector. Variables and constants have 32 bits, and so have the
  results of all operators but two: a left shift by a constant appends zeros, and an
  extraction keeps the bits between two positions. A formula becomes a term if every
  operation in it has a rule; a shift whose count is known is written with that count.

  The symbols of a term are names of any kind. Those of a formula's term are value ids, which
  are spelled when the term is written.
-/

import TraceReplay.Formula.Evaluation

namespace TraceReplay

namespace Solver

inductive Term (ν : Type) where
  | symbol (name : ν)
  | constant (value : Word)
  | plus (a b : Term ν)
  | minus (a b : Term ν)
  | times (a b : Term ν)
  | xor (a b : Term ν)
  | and (a b : Term ν)
  | or (parts : List (Term ν))
  | negate (a : Term ν)
  | appendZeros (a : Term ν) (count : Nat)
  | extract (a : Term ν) (high low : Nat)
  | shiftRight (a : Term ν) (count : Nat)
  | shiftLeftBy (a count : Term ν)
  | shiftRightBy (a count : Term ν)

def constantText (w : Word) : String := "0hex" ++ Word.hex8 w

/-- The name of a symbol; `side` tells the symbols of two formulas apart. -/
def symbolText (side : String) (id : ValueId) : String := s!"sym{id}{side}"

namespace Term

section

variable {ν : Type}

mutual

/-- The text of a term whose symbols are spelled as given. -/
def text (spell : ν → String) : Term ν → String
  | symbol name => spell name
  | constant value => constantText value
  | plus a b => "BVPLUS(32, " ++ a.text spell ++ ", " ++ b.text spell ++ ")"
  | minus a b => "BVSUB(32, " ++ a.text spell ++ ", " ++ b.text spell ++ ")"
  | times a b => "BVMULT(32, " ++ a.text spell ++ ", " ++ b.text spell ++ ")"
  | xor a b => "BVXOR(" ++ a.text spell ++ ", " ++ b.text spell ++ ")"
  | and a b => "(" ++ a.text spell ++ " & " ++ b.text spell ++ ")"
  | or parts => "(" ++ partsText spell parts ++ ")"
  | negate a => "BVUMINUS(" ++ a.text spell ++ ")"
  | appendZeros a count => "(" ++ a.text spell ++ " << " ++ toString count ++ ")"
  | extract a high low =>
    "(" ++ a.text spell ++ "[" ++ toString high ++ ":" ++ toString low ++ "])"
  | shiftRight a count => "(" ++ a.text spell ++ " >> " ++ toString count ++ ")"
  | shiftLeftBy a count => "BVSHL(" ++ a.text spell ++ ", " ++ count.text spell ++ ")"
  | shiftRightBy a count => "BVLSHR(" ++ a.text spell ++ ", " ++ count.text spell ++ ")"

def partsText (spell : ν → String) : List (Term ν) → String
  | [] => ""
  | [part] => part.text spell
  | part :: rest => part.text spell ++ " | " ++ partsText spell rest

end

end

/-- A symbol narrower than a word ranges over its own bits only. -/
def ofSymbol (id : ValueId) (width : Nat) : Term ValueId :=
  if width < 32 then .and (.symbol id) (.constant (BitRange.lowBits width).mask) else .symbol id

/-- A piece multiplied up to its place and cut to its bits. -/
def ofPart (range : BitRange) (part : Term ValueId) : Term ValueId :=
  .and (.times part (.constant (1 <<< range.low))) (.constant range.mask)

/-- The term of an operation; `count` is the known word of the second operand, if any. -/
def ofOperation? (opcode : Opcode) (count : Option Word) (args : List (Term ValueId)) :
    Option (Term ValueId) :=
  match opcode, args with
  | .add, [a, b] => some (.plus a b)
  | .sub, [a, b] => some (.minus a b)
  | .imul, [a, b] => some (.times a b)
  | .xor, [a, b] => some (.xor a b)
  | .and, [a, b] => some (.and a b)
  | .or, [a, b] => some (.or [a, b])
  | .shl, [a, b] =>
    match count with
    | some k => some (.extract (.appendZeros a (Opcode.shiftCount k)) 31 0)
    | none => some (.shiftLeftBy a b)
  | .shr, [a, b] =>
    match count with
    | some k => some (.shiftRight a (Opcode.shiftCount k))
    | none => some (.shiftRightBy a b)
  | .neg, [a] => some (.negate a)
  | .inc, [a] => some (.plus a (.constant 1))
  | _, _ => none

mutual

/-- The term of a formula, or the opcode of the first operation without a rule, operands
before the operation above them. -/
def ofFormula : Formula → Except Opcode (Term ValueId)
  | .symbol id width => .ok (ofSymbol id width)
  | .constant value => .ok (.constant value)
  | .hybrid _ parts => (ofParts parts).map .or
  | .operation opcode args =>
    match ofArgs args with
    | .error e => .error e
    | .ok terms =>
      match ofOperation? opcode (args[1]?.bind Formula.known?) terms with
      | some term => .ok term
      | none => .error opcode

def ofParts : List (BitRange × Formula) → Except Opcode (List (Term ValueId))
  | [] => .ok []
  | (range, part) :: rest =>
    match ofFormula part with
    | .error e => .error e
    | .ok term => (ofParts rest).map (ofPart range term :: ·)

def ofArgs : List Formula → Except Opcode (List (Term ValueId))
  | [] => .ok []
  | arg :: rest =>
    match ofFormula arg with
    | .error e => .error e
    | .ok term => (ofArgs rest).map (term :: ·)

end

end Term

end Solver

/-- The solver's term for a value. -/
def Table.solverTerm (t : Table) (id : ValueId) : Except Fault (Solver.Term ValueId) :=
  match Solver.Term.ofFormula (t.formula id) with
  | .ok term => .ok term
  | .error opcode => .error (.unknownOperation opcode.name)

/-- The text of the solver's term for a value. -/
def Table.solverText (t : Table) (id : ValueId) : Except Fault String :=
  (t.solverTerm id).map (·.text (Solver.symbolText ""))

end TraceReplay
