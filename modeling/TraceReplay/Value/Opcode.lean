/-
  TraceReplay.Value.Opcode — the operations that values are built with.

  Every mnemonic is an opcode. Ten of them have a rule on words (`apply`); the others are
  carried along as they are and have no meaning of their own.
-/

import TraceReplay.Word

namespace TraceReplay

inductive Opcode where
  | add
  | sub
  | imul
  | xor
  | and
  | or
  | shl
  | shr
  | neg
  | inc
  | adc
  | sbb
  | dec
  | not
  | sar
  | rol
  | ror
  | other (name : String)
  deriving DecidableEq, Repr

namespace Opcode

/-- `sal` is a second name of `shl`. -/
def ofMnemonic : String → Opcode
  | "add" => add
  | "sub" => sub
  | "imul" => imul
  | "xor" => xor
  | "and" => and
  | "or" => or
  | "shl" => shl
  | "sal" => shl
  | "shr" => shr
  | "neg" => neg
  | "inc" => inc
  | "adc" => adc
  | "sbb" => sbb
  | "dec" => dec
  | "not" => not
  | "sar" => sar
  | "rol" => rol
  | "ror" => ror
  | name => other name

def name : Opcode → String
  | add => "add"
  | sub => "sub"
  | imul => "imul"
  | xor => "xor"
  | and => "and"
  | or => "or"
  | shl => "shl"
  | shr => "shr"
  | neg => "neg"
  | inc => "inc"
  | adc => "adc"
  | sbb => "sbb"
  | dec => "dec"
  | not => "not"
  | sar => "sar"
  | rol => "rol"
  | ror => "ror"
  | other name => name

/-- Shift counts are taken modulo 32, as a 5-bit count is. -/
def shiftCount (w : Word) : Nat := w.toNat % 32

/-- The result on words, if the opcode has a rule for that many of them. -/
def apply : Opcode → List Word → Option Word
  | add, [a, b] => some (a + b)
  | sub, [a, b] => some (a - b)
  | imul, [a, b] => some (a * b)
  | xor, [a, b] => some (a ^^^ b)
  | and, [a, b] => some (a &&& b)
  | or, [a, b] => some (a ||| b)
  | shl, [a, b] => some (a <<< shiftCount b)
  | shr, [a, b] => some (a >>> shiftCount b)
  | neg, [a] => some (-a)
  | inc, [a] => some (a + 1)
  | _, _ => none

end Opcode

end TraceReplay
