/-
  TraceReplay.Replay.Step — what an instruction does to a session.

  An instruction is first sorted into an `Action` by its mnemonic and the kinds of its
  operands. To perform an action, its destination is resolved and checked first, then the
  sources are read, and then the result is written. Recorded addresses come before
  addresses computed from the recorded register contents. Pushing and popping move data
  only: the stack pointer is left to the records.
-/

import TraceReplay.Replay.Session

namespace TraceReplay

/-! ## Actions -/

inductive Action where
  | nothing
  | unsupported
  | push (source : Operand)
  | pop (target : Operand)
  | move (target source : Operand)
  | exchange (a b : Operand)
  | loadAddress (target : Operand) (form : AddressForm)
  | unary (opcode : Opcode) (target : Operand)
  | binary (opcode : Opcode) (target source : Operand)
  /-- A shift of a register by a constant. -/
  | shift (opcode : Opcode) (target : Operand) (count : Word)
  /-- `and` or `or` of a register with a constant. -/
  | mask (opcode : Opcode) (target : Operand) (mask : Word)
  /-- A product of a register and a constant, put into a register. -/
  | multiply (target source : Operand) (factor : Word)
  deriving DecidableEq, Repr

namespace Action

def ofOneOperand (mnemonic : String) (o : Operand) : Action :=
  match mnemonic with
  | "push" => push o
  | "pop" => pop o
  | _ => if o.isImmediate then unsupported else unary (.ofMnemonic mnemonic) o

/-- Operations on a register and a constant have forms of their own. -/
def ofArithmetic (opcode : Opcode) (target source : Operand) : Action :=
  match opcode, target, source with
  | .shl, .register .., .immediate count => shift opcode target count
  | .shr, .register .., .immediate count => shift opcode target count
  | .and, .register .., .immediate word => mask opcode target word
  | .or, .register .., .immediate word => mask opcode target word
  | _, _, _ => binary opcode target source

def ofTwoOperands (mnemonic : String) (target source : Operand) : Action :=
  match mnemonic with
  | "mov" => move target source
  | "movzx" => move target source
  | "lea" =>
    match target, source with
    | .register .., .memory m => loadAddress target m.form
    | _, _ => unsupported
  | "xchg" => exchange target source
  | _ => ofArithmetic (.ofMnemonic mnemonic) target source

def ofThreeOperands (mnemonic : String) (target source third : Operand) : Action :=
  match mnemonic, target, source, third with
  | "imul", .register .., .register .., .immediate factor => multiply target source factor
  | _, _, _, _ => unsupported

def ofInstruction (insn : Instruction) : Action :=
  match insn.operands with
  | [] => nothing
  | [o] => ofOneOperand insn.mnemonic o
  | [target, source] => ofTwoOperands insn.mnemonic target source
  | [target, source, third] => ofThreeOperands insn.mnemonic target source third
  | _ => unsupported

end Action

/-! ## Places -/

/-- A destination that can be written. -/
inductive Place where
  | register (view : RegisterView)
  | memory (address : Word) (bytes : Nat)
  deriving DecidableEq, Repr

namespace Instruction

def unsupportedShape (insn : Instruction) : Fault := .unsupportedShape insn.mnemonic insn.shapeText

/-- The recorded address if there is one, otherwise the one computed from the record. -/
def accessAddress (insn : Instruction) (kind : AccessKind) (m : MemoryOperand) :
    Except Fault Word :=
  let recorded := match kind with
    | .read => insn.readAddress
    | .write => insn.writeAddress
  match recorded, insn.effectiveAddress m with
  | some address, _ => .ok address
  | none, .ok address => .ok address
  | none, .error _ => .error (.missingAddress insn.mnemonic kind)

/-- The slot that a push of so many bytes writes. -/
def pushAddress (insn : Instruction) (bytes : Nat) : Word :=
  insn.writeAddress.getD (insn.context.content .esp - BitVec.ofNat 32 bytes)

def popAddress (insn : Instruction) : Word := insn.readAddress.getD (insn.context.content .esp)

end Instruction

namespace Session

/-- Resolve a destination and make sure that it can be written. -/
def destination (s : Session) (insn : Instruction) : Operand → Except Fault Place
  | .immediate _ => .error insn.unsupportedShape
  | .register name _ => do
    let view ← RegisterFile.view name
    s.registers.checkWrite view
    return .register view
  | .memory m => do
    let address ← insn.accessAddress .write m
    s.memory.checkWrite address m.byteCount
    return .memory address m.byteCount

end Session

namespace Replay

def resolve (insn : Instruction) (o : Operand) : Replay Place := do
  check ((← get).destination insn o)

def read (insn : Instruction) : Operand → Replay ValueId
  | .immediate value => build (Build.constant value)
  | .register name _ => readNamed name
  | .memory m => do readMemory (← check (insn.accessAddress .read m)) m.byteCount

def write (value : ValueId) : Place → Replay Unit
  | .register view => writeRegister view value
  | .memory address bytes => writeMemory address bytes value

/-! ## Performing an action -/

def push (insn : Instruction) (source : Operand) : Replay Unit := do
  let bytes := source.byteCount
  let address := insn.pushAddress bytes
  check ((← get).memory.checkWrite address bytes)
  let value ← read insn source
  writeMemory address bytes value

def pop (insn : Instruction) (target : Operand) : Replay Unit := do
  let place ← resolve insn target
  let value ← readMemory insn.popAddress target.byteCount
  write value place

/-- Only a base plus a scaled index is modelled. -/
def loadAddress (insn : Instruction) (target : Operand) : AddressForm → Replay Unit
  | .baseIndex base index scale => do
    let place ← resolve insn target
    let b ← readRegister (.full base)
    let i ← readRegister (.full index)
    let sum ← build do
      let factor ← Build.constant scale
      let scaled ← Build.binary .imul i factor
      Build.binary .add b scaled
    write sum place
  | form => throw (.unsupportedAddressForm form.tag)

def exchange (insn : Instruction) (a b : Operand) : Replay Unit := do
  let placeA ← resolve insn a
  let placeB ← resolve insn b
  let valueA ← read insn a
  let valueB ← read insn b
  write valueB placeA
  write valueA placeB

/-- Apply an opcode to a value and a constant. -/
def withConstant (opcode : Opcode) (value : ValueId) (word : Word) : Build ValueId := do
  let operand ← Build.constant word
  Build.binary opcode value operand

/-- A hybrid word is shifted piece by piece. -/
def shiftValue (opcode : Opcode) (value : ValueId) (count : Word) : Replay ValueId := do
  if (← get).table.isHybrid value then attempt (Build.shiftHybrid value opcode count)
  else build (withConstant opcode value count)

/-- A hybrid word becomes a constant if the mask decides it. -/
def maskValue (opcode : Opcode) (value : ValueId) (mask : Word) : Build ValueId := do
  match ← Build.foldMask value opcode mask with
  | some folded => return folded
  | none => withConstant opcode value mask

def perform (insn : Instruction) : Action → Replay Unit
  | .nothing => return
  | .unsupported => throw insn.unsupportedShape
  | .push source => push insn source
  | .pop target => pop insn target
  | .move target source => do
    let place ← resolve insn target
    let value ← read insn source
    write value place
  | .exchange a b => exchange insn a b
  | .loadAddress target form => loadAddress insn target form
  | .unary opcode target => do
    let place ← resolve insn target
    let value ← read insn target
    let result ← build (Build.unary opcode value)
    write result place
  | .binary opcode target source => do
    let place ← resolve insn target
    let b ← read insn source
    let a ← read insn target
    let result ← build (Build.binary opcode a b)
    write result place
  | .shift opcode target count => do
    let place ← resolve insn target
    let value ← read insn target
    let result ← shiftValue opcode value count
    write result place
  | .mask opcode target word => do
    let place ← resolve insn target
    let value ← read insn target
    let result ← build (maskValue opcode value word)
    write result place
  | .multiply target source factor => do
    let place ← resolve insn target
    let value ← read insn source
    let result ← build (withConstant .imul value factor)
    write result place

/-- Apply one instruction. One that is passed over changes nothing and is not counted. -/
def step (insn : Instruction) : Replay Unit := do
  if (← get).skip.contains insn.mnemonic then return
  perform insn (.ofInstruction insn)
  modify fun s => { s with executed := s.executed + 1 }

/-- Apply the instructions in order, up to the first that fails; positions count from
`index`. -/
def runFrom (index : Nat) : List Instruction → Replay Unit
  | [] => return
  | insn :: rest => do
    (step insn).adaptExcept (Fault.atInstruction index insn.address insn.mnemonic)
    runFrom (index + 1) rest

def run (trace : List Instruction) : Replay Unit := runFrom 0 trace

end Replay

end TraceReplay
