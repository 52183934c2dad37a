/-
  TraceReplay.Replay.Session — the state of a replay.

  A session holds the value table, the registers and memory built from it, the mnemonics to
  pass over and the number of instructions applied. A `Replay` is a computation on a
  session that may stop with a fault; what it changed before stays changed.
-/

import TraceReplay.Machine.Memory
import TraceReplay.Machine.RegisterFile
import TraceReplay.Replay.SkipSet
import TraceReplay.Trace.Instruction

namespace TraceReplay

structure Session where
  skip : SkipSet
  table : Table
  registers : RegisterFile
  memory : Memory
  executed : Nat
  deriving DecidableEq

namespace Session

/-- No register holds a value. -/
def empty (skip : SkipSet) : Session := ⟨skip, .empty, .empty, .empty, 0⟩

/-- Give a register a fresh symbol. -/
def seed (s : Session) (r : Register) : ValueId × Session :=
  let ((entry, registers), table) := (s.registers.seed r).run s.table
  (entry, { s with registers, table })

def set (s : Session) (r : Register) (value : ValueId) : Session :=
  { s with registers := s.registers.set r value }

/-- Every register holds a fresh symbol. -/
def seeded (skip : SkipSet) : Session :=
  Register.all.foldl (fun s r => (s.seed r).2) (empty skip)

/-- Every register holds a known word. -/
def ofSnapshot (skip : SkipSet) (snapshot : Snapshot) : Session :=
  Register.all.foldl (fun s r =>
    let (value, table) := (Build.constant (snapshot.content r)).run s.table
    { s with registers := s.registers.set r value, table }) (empty skip)

/-- The values of registers, then of memory cells, that an operation produced. -/
def outputs (s : Session) : List ValueId :=
  (s.registers.held.map (·.2) ++ s.memory.cells.values).filter fun id =>
    (s.table.get? id).any (·.isOperation)

end Session

abbrev Replay := EStateM Fault Session

namespace Replay

variable {α : Type}

def build (b : Build α) : Replay α
  | ⟨skip, table, registers, memory, executed⟩ =>
    let (a, table) := b.run table
    .ok a ⟨skip, table, registers, memory, executed⟩

/-- Build what a decision allows. -/
def plan : Except Fault (Build α) → Replay α
  | .ok b => build b
  | .error fault => throw fault

/-- Build something that may turn out to be impossible. -/
def attempt (b : ExceptT Fault Build α) : Replay α := do
  match ← build b.run with
  | .ok a => return a
  | .error fault => throw fault

def readRegister (view : RegisterView) : Replay ValueId := do plan ((← get).registers.read view)

def writeRegister (view : RegisterView) (value : ValueId) : Replay Unit := do
  let registers ← plan ((← get).registers.write view value)
  modify fun s => { s with registers }

def readMemory (address : Word) (bytes : Nat) : Replay ValueId := do
  let (value, memory) ← plan ((← get).memory.read address bytes)
  modify fun s => { s with memory }
  return value

def writeMemory (address : Word) (bytes : Nat) (value : ValueId) : Replay Unit := do
  let memory ← plan ((← get).memory.write address bytes value)
  modify fun s => { s with memory }

/-- Stop with a fault that was found without touching the session. -/
def check (outcome : Except Fault α) : Replay α :=
  match outcome with
  | .ok a => return a
  | .error fault => throw fault

/-- A register by any of its names. -/
def readNamed (name : String) : Replay ValueId := do readRegister (← check (RegisterFile.view name))

end Replay

end TraceReplay
