/-
  TraceReplay.Trace.Instruction — one executed instruction of a recorded trace.

  A record holds the mnemonic and the operands, destination first, the contents of the
  registers before the instruction ran, and the addresses that it read from and wrote to
  if the recorder knew them.
-/

import TraceReplay.Trace.Operand

namespace TraceReplay

/-- Register contents in the order of `Register.all`. -/
abbrev Snapshot := Vector Word 8

def Snapshot.zero : Snapshot := Vector.replicate 8 0

def Snapshot.content (s : Snapshot) (r : Register) : Word := s.get r.index

structure Instruction where
  id : BitVec 64 := 0
  address : Word
  mnemonic : String
  operands : List Operand := []
  context : Snapshot := Snapshot.zero
  readAddress : Option Word := none
  writeAddress : Option Word := none
  deriving DecidableEq, Repr

namespace Instruction

/-- The address that a memory operand refers to, from the recorded register contents. The
base of a segment is not recorded, so a segment-relative address has no answer. -/
def effectiveAddress (insn : Instruction) (m : MemoryOperand) : Except RecordFault Word :=
  match m.segment with
  | some segment => .error (.segmentRelative segment)
  | none => .ok (m.form.resolve insn.context.content)

def shapeText (insn : Instruction) : String :=
  ", ".intercalate (insn.operands.map Operand.kindName)

def text (insn : Instruction) : String :=
  let args := match insn.operands with
    | [] => ""
    | operands => " " ++ ", ".intercalate (operands.map Operand.text)
  Word.hex insn.address ++ ": " ++ insn.mnemonic ++ args

end Instruction

end TraceReplay
