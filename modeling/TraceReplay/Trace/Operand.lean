/-
  TraceReplay.Trace.Operand — operands of recorded instructions.

  An operand is an immediate word, a register name with a width, or a memory access: an
  address form, an optional segment and a width. Names and widths are kept as the record
  gives them; the `checked` constructors refuse names that are no register, literals that
  are not hexadecimal and widths other than 8, 16 and 32 bits.
-/

import TraceReplay.Trace.Register

namespace TraceReplay

/-- What can be wrong with a single part of a record. -/
inductive RecordFault where
  | unknownRegister (name : String)
  | notHex (text : String)
  | badWidth (bits : Word)
  | segmentRelative (segment : String)
  deriving DecidableEq, Repr

def RecordFault.message : RecordFault → String
  | unknownRegister name => s!"unknown register name `{name}`"
  | notHex text => s!"`{text}` is not a hexadecimal literal"
  | badWidth bits => s!"unsupported operand width of {bits.toNat} bits"
  | segmentRelative segment =>
    s!"cannot compute a `{segment}:`-relative address from a register snapshot"

/-- A hexadecimal literal as it appears in a trace. -/
def Word.literal (text : String) : Except RecordFault Word :=
  match Word.ofHex? text with
  | some w => .ok w
  | none => .error (.notHex text)

/-- A register view by its name. -/
def RegisterView.named (name : String) : Except RecordFault RegisterView :=
  match RegisterView.ofName? name with
  | some v => .ok v
  | none => .error (.unknownRegister name)

/-- A whole register by its name; the names of narrower views are unknown here. -/
def Register.named (name : String) : Except RecordFault Register :=
  match Register.ofName? name with
  | some r => .ok r
  | none => .error (.unknownRegister name)

/-! ## Addresses -/

/-- A displacement, with its sign kept beside its magnitude. -/
inductive Displacement where
  | plus (offset : Word)
  | minus (offset : Word)
  deriving DecidableEq, Repr

namespace Displacement

def apply (base : Word) : Displacement → Word
  | plus offset => base + offset
  | minus offset => base - offset

def text : Displacement → String
  | plus offset => "+" ++ Word.hex offset
  | minus offset => "-" ++ Word.hex offset

end Displacement

/-- The shape of an address computation. -/
inductive AddressForm where
  | absolute (address : Word)
  | base (base : Register)
  | scaled (index : Register) (scale : Word)
  | baseDisp (base : Register) (disp : Displacement)
  | baseIndex (base index : Register) (scale : Word)
  | scaledDisp (index : Register) (scale : Word) (disp : Displacement)
  | full (base index : Register) (scale : Word) (disp : Displacement)
  deriving DecidableEq, Repr

namespace AddressForm

def tag : AddressForm → Nat
  | absolute .. => 1
  | base .. => 2
  | scaled .. => 3
  | baseDisp .. => 4
  | baseIndex .. => 5
  | scaledDisp .. => 6
  | full .. => 7

/-- The address under given register contents; it wraps at 32 bits. -/
def resolve (content : Register → Word) : AddressForm → Word
  | absolute address => address
  | base b => content b
  | scaled i scale => content i * scale
  | baseDisp b disp => disp.apply (content b)
  | baseIndex b i scale => content b + content i * scale
  | scaledDisp i scale disp => disp.apply (content i * scale)
  | full b i scale disp => disp.apply (content b + content i * scale)

def scaledText (index : Register) (scale : Word) : String := s!"{index.name}*{scale.toNat}"

def text : AddressForm → String
  | absolute address => Word.hex address
  | base b => b.name
  | scaled i scale => scaledText i scale
  | baseDisp b disp => b.name ++ disp.text
  | baseIndex b i scale => b.name ++ "+" ++ scaledText i scale
  | scaledDisp i scale disp => scaledText i scale ++ disp.text
  | full b i scale disp => b.name ++ "+" ++ scaledText i scale ++ disp.text

end AddressForm

/-- A memory access: where, in which segment if one is named, and how wide. -/
structure MemoryOperand where
  form : AddressForm
  segment : Option String := none
  bits : Word
  deriving DecidableEq, Repr

namespace MemoryOperand

def byteCount (m : MemoryOperand) : Nat := m.bits.toNat / 8

def sizeName (m : MemoryOperand) : String :=
  if m.bits = 8 then "byte" else if m.bits = 16 then "word" else "dword"

def text (m : MemoryOperand) : String :=
  match m.segment with
  | some segment => s!"{m.sizeName} ptr {segment}:[{m.form.text}]"
  | none => s!"{m.sizeName} ptr [{m.form.text}]"

end MemoryOperand

/-! ## Operands -/

inductive Operand where
  | immediate (value : Word)
  | register (name : String) (bits : Word)
  | memory (access : MemoryOperand)
  deriving DecidableEq, Repr

namespace Operand

/-- An immediate counts as a whole word. -/
def bits : Operand → Word
  | immediate _ => 32
  | register _ bits => bits
  | memory m => m.bits

def byteCount (o : Operand) : Nat := o.bits.toNat / 8

def isImmediate : Operand → Bool
  | immediate _ => true
  | _ => false

/-- The kind of operand, as listed when a shape is not modelled. -/
def kindName : Operand → String
  | immediate _ => "imm"
  | register .. => "reg"
  | memory _ => "mem"

def text : Operand → String
  | immediate value => Word.hex value
  | register name _ => name
  | memory m => m.text

def checkedImmediate (literal : String) : Except RecordFault Operand :=
  (Word.literal literal).map immediate

/-- The width of a register operand follows from its name. -/
def checkedRegister (name : String) : Except RecordFault Operand :=
  (RegisterView.named name).map fun view => register name (BitVec.ofNat 32 view.bits)

def checkedMemory (form : AddressForm) (bits : Word) : Except RecordFault Operand :=
  if bits = 8 ∨ bits = 16 ∨ bits = 32 then .ok (memory { form, bits }) else .error (.badWidth bits)

end Operand

end TraceReplay
