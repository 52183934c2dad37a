/-
  TraceReplay.Fault — why a replay or a query about it stops, and the wording of each reason.
-/

import TraceReplay.Machine.AddressRange
import TraceReplay.Trace.Operand

namespace TraceReplay

/-- Whether an address is needed to read from it or to write to it. -/
inductive AccessKind where
  | read
  | write
  deriving DecidableEq, Repr

inductive Fault where
  | badRecord (cause : RecordFault)
  | unknownRegister (name : String)
  | unseededRegister (r : Register)
  | unsupportedShape (mnemonic shape : String)
  | unsupportedAddressForm (tag : Nat)
  | missingAddress (mnemonic : String) (access : AccessKind)
  | partialOverlap (access stored : AddressRange)
  | addressWrap (address : Word) (bytes : Nat)
  | oversizedRange (stored : AddressRange)
  | brokenPartition
  | unknownOperation (name : String)
  | bindingMismatch (unbound unexpected : Nat)
  | bindingArity (inputs values : Nat)
  | atInstruction (index : Nat) (address : Word) (mnemonic : String) (cause : Fault)
  deriving DecidableEq, Repr

def AccessKind.name : AccessKind → String
  | read => "read"
  | write => "write"

namespace Fault

def message : Fault → String
  | badRecord _ => "Malformed trace record"
  | unknownRegister name => s!"Unknown register name `{name}`"
  | unseededRegister r => s!"Register {r.name} was read before it held a value"
  | unsupportedShape mnemonic shape =>
    s!"xsym does not model `{mnemonic}` with operands ({shape})"
  | unsupportedAddressForm tag =>
    s!"lea is only modeled for base+index*scale addresses, not address tag {tag}"
  | missingAddress mnemonic access =>
    s!"`{mnemonic}` needs a {access.name} address that the trace does not record"
  | partialOverlap access stored =>
    s!"Access to {access.text} partially overlaps the stored range {stored.text}"
  | addressWrap address bytes =>
    s!"A {bytes}-byte access at {Word.hex address} runs past the end of the address space"
  | oversizedRange stored => s!"Stored range {stored.text} is wider than a machine word"
  | brokenPartition =>
    "Hybrid pieces must partition bits 0 through 31 without gaps or overlaps"
  | unknownOperation name => s!"No concrete or solver semantics for `{name}`"
  | bindingMismatch unbound unexpected =>
    s!"Bindings do not match the formula's inputs ({unbound} unbound, {unexpected} unexpected)"
  | bindingArity inputs values => s!"Got {values} values for {inputs} input symbols"
  | atInstruction index address mnemonic _ =>
    s!"Instruction {index} ({Word.hex address} {mnemonic}) failed"

/-- The fault itself, without the instructions at which it was met. -/
def rootCause : Fault → Fault
  | atInstruction _ _ _ cause => cause.rootCause
  | fault => fault

/-- The message of what directly caused a fault, if something did. -/
def causeMessage? : Fault → Option String
  | badRecord cause => some cause.message
  | atInstruction _ _ _ cause => some cause.message
  | _ => none

end Fault

end TraceReplay
