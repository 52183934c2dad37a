/-
  TraceReplay.Value.Table — the graph of symbolic values.

  Values live in a table and refer to earlier values by their position, so a value that is
  used several times is one shared entry. A table only grows: building a value appends it,
  and its id is the length of the table before.

  A value is an input symbol, a constant, a hybrid word whose pieces are values of their
  own, or an operation on one to three values. With each value the table keeps two facts
  that are settled when it is built: whether it depends on an input symbol, and its word if
  that is known without any input.
-/

import TraceReplay.Bits
import TraceReplay.Fault
import TraceReplay.SortedMap
import TraceReplay.Value.Opcode

namespace TraceReplay

abbrev ValueId := Nat

/-- The values that make up a hybrid word, by the bits that they cover. -/
abbrev Pieces := SortedMap BitRange ValueId

inductive Node where
  | symbol
  | constant (bits : Bits)
  | hybrid (pieces : Pieces)
  | operation (opcode : Opcode) (operands : List ValueId)
  deriving DecidableEq

inductive ValueKind where
  | symbol
  | concrete
  | hybrid
  deriving DecidableEq, Repr

structure Value where
  width : Nat
  node : Node
  symbolic : Bool
  known : Option Word
  deriving DecidableEq

namespace Value

/-- An operation counts as a symbol if it depends on one. -/
def kind (v : Value) : ValueKind :=
  match v.node with
  | .symbol => .symbol
  | .constant _ => .concrete
  | .hybrid _ => .hybrid
  | .operation .. => if v.symbolic then .symbol else .concrete

/-- The bits of a value that was built as a constant. -/
def constant? (v : Value) : Option Bits :=
  match v.node with
  | .constant bits => some bits
  | _ => none

def pieces? (v : Value) : Option Pieces :=
  match v.node with
  | .hybrid pieces => some pieces
  | _ => none

def isOperation (v : Value) : Bool :=
  match v.node with
  | .operation .. => true
  | _ => false

/-- The text of a constant or of an operation whose word is known. -/
def hex? (v : Value) : Option String :=
  match v.node with
  | .constant bits => some bits.hex
  | .operation .. => v.known.map Word.hex
  | _ => none

end Value

structure Table where
  values : Array Value
  deriving DecidableEq

namespace Table

def empty : Table := ⟨#[]⟩

def size (t : Table) : Nat := t.values.size

def get? (t : Table) (id : ValueId) : Option Value := t.values[id]?

def width (t : Table) (id : ValueId) : Nat := ((t.get? id).map (·.width)).getD 0

def isSymbolic (t : Table) (id : ValueId) : Bool := (t.get? id).any (·.symbolic)

def known (t : Table) (id : ValueId) : Option Word := (t.get? id).bind (·.known)

def constant? (t : Table) (id : ValueId) : Option Bits := (t.get? id).bind (·.constant?)

def pieces? (t : Table) (id : ValueId) : Option Pieces := (t.get? id).bind (·.pieces?)

def isHybrid (t : Table) (id : ValueId) : Bool := (t.pieces? id).isSome

/-- The word of a value that is concrete and known; a hybrid word is not concrete. -/
def concrete? (t : Table) (id : ValueId) : Option Word :=
  (t.get? id).bind fun v => if v.kind = .concrete then v.known else none

def isSymbol (t : Table) (id : ValueId) : Bool := (t.get? id).any (·.kind = .symbol)

/-- The piece of a hybrid word that covers exactly the given bits. -/
def piece? (t : Table) (id : ValueId) (range : BitRange) : Option ValueId :=
  (t.pieces? id).bind (·.get? range)

end Table

/-! ## Building values -/

/-- A computation that may append values to the table. -/
abbrev Build := StateM Table

namespace Build

def append (v : Value) : Build ValueId := fun t => (t.size, ⟨t.values.push v⟩)

/-- A fresh input of the given width. -/
def symbol (width : Nat) : Build ValueId :=
  append { width, node := .symbol, symbolic := true, known := none }

def constantOf (width : Nat) (bits : Bits) : Build ValueId :=
  append { width, node := .constant bits, symbolic := false, known := some bits.value }

/-- The low `width` bits of a word. -/
def sized (value : Word) (width : Nat) : Build ValueId :=
  constantOf width ⟨value, BitRange.lowBits width⟩

def constant (value : Word) : Build ValueId := sized value 32

/-- Known bits at their place in a word. -/
def bits (b : Bits) : Build ValueId := constantOf b.range.width b

/-- A constant from its literal in a trace. -/
def literal (text : String) : Except Fault (Build ValueId) :=
  match Word.literal text with
  | .ok w => .ok (constant w)
  | .error e => .error (.badRecord e)

/-- An operation depends on an input if an operand does; otherwise its word is known if the
operands' words are and the opcode has a rule for them. -/
def operation (opcode : Opcode) (operands : List ValueId) (width : Nat) : Build ValueId := fun t =>
  let symbolic := operands.any t.isSymbolic
  let known := if symbolic then none else (operands.mapM t.known).bind opcode.apply
  append { width, node := .operation opcode operands, symbolic, known } t

/-- An operation as wide as its first operand. -/
def operationLike (opcode : Opcode) (first : ValueId) (rest : List ValueId) : Build ValueId :=
  fun t => operation opcode (first :: rest) (t.width first) t

def unary (opcode : Opcode) (a : ValueId) : Build ValueId := operationLike opcode a []

def binary (opcode : Opcode) (a b : ValueId) : Build ValueId := operationLike opcode a [b]

def ternary (opcode : Opcode) (a b c : ValueId) : Build ValueId := operationLike opcode a [b, c]

/-- A part of its first operand, narrower than it. -/
def binarySized (opcode : Opcode) (a b : ValueId) (width : Nat) : Build ValueId :=
  operation opcode [a, b] width

end Build

end TraceReplay
