/-
  TraceReplay.Trace.Register — the general-purpose registers and their names.

  There are eight 32-bit registers, in the order in which a trace records their contents.
  An operand names a whole register, its low half, or, for four of them, its low or its
  second byte. Each name belongs to exactly one view, and a view says which bits of its
  owner it covers.
-/

import TraceReplay.Bits

namespace TraceReplay

inductive Register where
  | eax
  | ebx
  | ecx
  | edx
  | esi
  | edi
  | esp
  | ebp
  deriving DecidableEq, Repr

namespace Register

def all : List Register := [eax, ebx, ecx, edx, esi, edi, esp, ebp]

/-- The position of the register in a recorded snapshot. -/
def index : Register → Fin 8
  | eax => 0
  | ebx => 1
  | ecx => 2
  | edx => 3
  | esi => 4
  | edi => 5
  | esp => 6
  | ebp => 7

def name : Register → String
  | eax => "eax"
  | ebx => "ebx"
  | ecx => "ecx"
  | edx => "edx"
  | esi => "esi"
  | edi => "edi"
  | esp => "esp"
  | ebp => "ebp"

def ofName? (name : String) : Option Register := all.find? (·.name == name)

/-- The name of the low half of the register. -/
def halfName : Register → String
  | eax => "ax"
  | ebx => "bx"
  | ecx => "cx"
  | edx => "dx"
  | esi => "si"
  | edi => "di"
  | esp => "sp"
  | ebp => "bp"

end Register

/-- The registers whose two low bytes have names of their own. -/
inductive ByteRegister where
  | a
  | b
  | c
  | d
  deriving DecidableEq, Repr

namespace ByteRegister

def all : List ByteRegister := [a, b, c, d]

def owner : ByteRegister → Register
  | a => .eax
  | b => .ebx
  | c => .ecx
  | d => .edx

def letter : ByteRegister → String
  | a => "a"
  | b => "b"
  | c => "c"
  | d => "d"

end ByteRegister

inductive RegisterView where
  | full (r : Register)
  | low16 (r : Register)
  | low8 (r : ByteRegister)
  | high8 (r : ByteRegister)
  deriving DecidableEq, Repr

namespace RegisterView

def all : List RegisterView :=
  Register.all.map full ++ Register.all.map low16 ++
    ByteRegister.all.map low8 ++ ByteRegister.all.map high8

def owner : RegisterView → Register
  | full r => r
  | low16 r => r
  | low8 r => r.owner
  | high8 r => r.owner

/-- The bits of the owner that the view covers. -/
def span : RegisterView → BitRange
  | full _ => ⟨0, 31⟩
  | low16 _ => ⟨0, 15⟩
  | low8 _ => ⟨0, 7⟩
  | high8 _ => ⟨8, 15⟩

def bits (v : RegisterView) : Nat := v.span.width

def name : RegisterView → String
  | full r => r.name
  | low16 r => r.halfName
  | low8 r => r.letter ++ "l"
  | high8 r => r.letter ++ "h"

def ofName? (name : String) : Option RegisterView := all.find? (·.name == name)

end RegisterView

end TraceReplay
