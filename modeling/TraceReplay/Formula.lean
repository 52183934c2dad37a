/-
  TraceReplay.Formula — values as terms, and ways to read them.

  A formula is what a value of the table stands for, with all sharing undone. An
  `Interpretation` says what symbols, constants, hybrid words and operations mean in some
  type; a formula is interpreted by structural recursion (`Formula.interpret`), and a value
  of the table by one pass over the values before it (`Table.interpret`), which visits a
  shared value once. A reference that does not point backwards reads as the constant zero.
-/

import TraceReplay.Value.Table

namespace TraceReplay

inductive Formula where
  | symbol (id : ValueId) (width : Nat)
  | constant (value : Word)
  | hybrid (id : ValueId) (parts : List (BitRange × Formula))
  | operation (opcode : Opcode) (args : List Formula)

structure Interpretation (β : Type) where
  symbol : ValueId → Nat → β
  constant : Word → β
  hybrid : ValueId → List (BitRange × β) → β
  operation : Opcode → List β → β

namespace Formula

variable {β : Type}

mutual

def interpret (I : Interpretation β) : Formula → β
  | symbol id width => I.symbol id width
  | constant value => I.constant value
  | hybrid id parts => I.hybrid id (interpretParts I parts)
  | operation opcode args => I.operation opcode (interpretArgs I args)

def interpretParts (I : Interpretation β) : List (BitRange × Formula) → List (BitRange × β)
  | [] => []
  | (range, part) :: rest => (range, interpret I part) :: interpretParts I rest

def interpretArgs (I : Interpretation β) : List Formula → List β
  | [] => []
  | arg :: rest => interpret I arg :: interpretArgs I rest

end

/-- The interpretation under which every value is its formula. -/
def syntactic : Interpretation Formula := ⟨symbol, constant, hybrid, operation⟩

end Formula

namespace Interpretation

variable {β : Type}

/-- One value, from the readings of its operands. -/
def value (I : Interpretation β) (id : ValueId) (v : Value) (operand : ValueId → β) : β :=
  match v.node with
  | .symbol => I.symbol id v.width
  | .constant bits => I.constant bits.value
  | .hybrid pieces => I.hybrid id (pieces.entries.map fun e => (e.1, operand e.2))
  | .operation opcode operands => I.operation opcode (operands.map operand)

def lookup (I : Interpretation β) (readings : Array β) (id : ValueId) : β :=
  readings[id]?.getD (I.constant 0)

/-- The readings of the values in order, each from those before it. -/
def readings (I : Interpretation β) (values : List Value) : Array β :=
  values.foldl (fun before v => before.push (I.value before.size v (I.lookup before))) #[]

end Interpretation

namespace Table

def interpret {β : Type} (I : Interpretation β) (t : Table) (id : ValueId) : β :=
  I.lookup (I.readings (t.values.toList.take (id + 1))) id

def formula (t : Table) (id : ValueId) : Formula := t.interpret Formula.syntactic id

end Table

end TraceReplay
