/-
  TraceReplay.Replay.Report — reports on the formulas that a session holds.

  A report lists the input symbols of a value with the register or the bytes that each
  stands for, and then the formula.
-/

import TraceReplay.Formula.Evaluation
import TraceReplay.Formula.Text
import TraceReplay.Replay.Session

namespace TraceReplay

/-- What an input symbol stands for. -/
inductive InputLocation where
  | register (r : Register)
  | memory (range : AddressRange)
  deriving DecidableEq, Repr

def InputLocation.text : InputLocation → String
  | register r => r.name
  | memory range => s!"[{Word.hexDigits range.first}, {Word.hexDigits range.last}]"

structure Report where
  value : ValueId
  inputs : List (ValueId × Option InputLocation)
  formula : String
  deriving DecidableEq, Repr

namespace Report

def inputLine : ValueId × Option InputLocation → String
  | (id, some location) => s!"sym{id}: {location.text}\n"
  | (id, none) => s!"sym{id}:\n"

def text (r : Report) : String :=
  s!"{r.inputs.length} input symbols:\n" ++ String.join (r.inputs.map inputLine) ++
    s!"\nsym{r.value}=\n" ++ r.formula

end Report

namespace Session

def inputLocation? (s : Session) (id : ValueId) : Option InputLocation :=
  match s.registers.inputs.get? id with
  | some r => some (.register r)
  | none => (s.memory.inputs.get? id).map .memory

def report (s : Session) (style : Style) (value : ValueId) : Report where
  value := value
  inputs := (s.table.inputs value).map fun id => (id, s.inputLocation? id)
  formula := (s.table.formula value).text style

/-- The value stored at exactly the given bytes. -/
def memoryReport? (s : Session) (style : Style) (range : AddressRange) : Option Report :=
  (s.memory.get? range).map (s.report style)

/-- Every register that holds a value, with its report. -/
def registerDump (s : Session) (style : Style) : String :=
  String.join (s.registers.held.map fun (r, value) =>
    r.name ++ ": " ++ (s.report style value).text ++ "\n\n")

/-- Every memory cell with its report. -/
def memoryDump (s : Session) (style : Style) : String :=
  String.join (s.memory.cells.entries.map fun (range, value) =>
    s!"[{Word.hexDigits range.first},{Word.hexDigits range.last}]: " ++
      (s.report style value).text ++ "\n\n")

/-- The symbols made for first reads of memory. -/
def memoryInputs (s : Session) : String :=
  "Inputs in memory:\n" ++ String.join (s.memory.inputs.entries.map fun (id, range) =>
    Report.inputLine (id, some (.memory range)))

end Session

/-- A register by any of its names. -/
def Replay.registerReport (style : Style) (name : String) : Replay Report := do
  let value ← readNamed name
  return (← get).report style value

end TraceReplay
