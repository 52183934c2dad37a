/-
  TraceReplay.CommandLine.Workspace — what an invocation does.

  A command reads trace texts, replays them from a session whose registers hold fresh
  symbols, and gives a text to print or a file to write, or it fails with one message. A
  workspace is a directory of files together with the stored set of mnemonics to pass over.
  An invocation that the parser hands over stores its additions to that set first, whatever
  becomes of its command; a file is written only when the command succeeds. Where the parser
  ends the run, nothing changes.
-/

import TraceReplay.CommandLine.Arguments
import TraceReplay.Replay.Report
import TraceReplay.Replay.Step
import TraceReplay.Solver.Query

namespace TraceReplay

namespace CommandLine

/-! ## Commands -/

inductive Failure where
  | unreadable (trace : String)
  | malformed (trace : String)
  | fault (fault : Fault)
  | noPairs
  | missingDirectory
  deriving DecidableEq, Repr

/-- The lines of a cause are indented. -/
def indent (text : String) : String := "    " ++ "\n    ".intercalate (text.splitOn "\n")

def Failure.text : Failure → String
  | unreadable trace => s!"Error: reading {trace}"
  | malformed trace => s!"Error: parsing {trace}"
  | fault f =>
    match f.causeMessage? with
    | none => s!"Error: {f.message}\n"
    | some cause => s!"Error: {f.message}\n\nCaused by:\n{indent cause}\n"
  | noPairs => "Error: at least one --pair is needed to relate the two formulas\n"
  | missingDirectory => "Error: No such file or directory (os error 2)\n"

/-- What a successful command gives. -/
structure Product where
  printed : String := ""
  /-- The name and the content of a file. -/
  file : Option (String × String) := none
  deriving DecidableEq, Repr

/-- The texts of trace files, as far as they can be read. -/
abbrev Texts := String → Option String

def load (texts : Texts) (trace : String) : Except Failure (List Instruction) :=
  match texts trace with
  | none => .error (.unreadable trace)
  | some text =>
    match Record.trace? text with
    | none => .error (.malformed trace)
    | some records => .ok records

def lift {α : Type} : Except Fault α → Except Failure α
  | .ok a => .ok a
  | .error f => .error (.fault f)

def perform {α : Type} (r : Replay α) (s : Session) : Except Failure (α × Session) :=
  match r s with
  | .ok a s => .ok (a, s)
  | .error f _ => .error (.fault f)

def replay (texts : Texts) (skip : SkipSet) (trace : String) : Except Failure Session := do
  let records ← load texts trace
  let (_, s) ← perform (Replay.run records) (.seeded skip)
  return s

def subject (s : Session) (register : String) : Except Failure Subject := do
  let (value, s) ← perform (Replay.readNamed register) s
  return ⟨s.table, value⟩

def reportText (s : Session) (style : Style) : String :=
  s.registerDump style ++ s.memoryDump style ++ s.memoryInputs ++ "\n"

def Command.execute (texts : Texts) (skip : SkipSet) : Command → Except Failure Product
  | .report trace style => do
    let s ← replay texts skip trace
    return { printed := reportText s style }
  | .term source output => do
    let s ← replay texts skip source.trace
    let target ← subject s source.register
    let text ← lift (target.table.solverText target.root)
    return { file := some (output, text) }
  | .comparison first second pairs output => do
    let a ← replay texts skip first.trace
    let b ← replay texts skip second.trace
    let a ← subject a first.register
    let b ← subject b second.register
    if pairs.isEmpty then throw .noPairs
    let query ← lift (Solver.EquivalenceQuery.build a b pairs)
    return { file := some (output, query.text) }

/-- The trace files that a command reads. -/
def Command.traces : Command → List String
  | .report trace _ => [trace]
  | .term source _ => [source.trace]
  | .comparison first second _ _ => [first.trace, second.trace]

/-! ## Workspaces -/

structure Workspace where
  skip : SkipSet := .standard
  files : SortedMap String String := .empty
  deriving DecidableEq

namespace Workspace

/-- The file that a path names; there are no directories but the one at hand. -/
def fileName? (path : String) : Option String :=
  let parts := path.splitOn "/"
  match parts.filter (fun part => part ≠ "" ∧ part ≠ ".") with
  | [name] =>
    if parts.head? ≠ some "" ∧ parts.getLast? = some name ∧ name ≠ ".." then some name else none
  | _ => none

def texts (w : Workspace) : Texts := fun path => (fileName? path).bind w.files.get?

def store (w : Workspace) (path content : String) : Except Failure Workspace :=
  match fileName? path with
  | some name => .ok { w with files := w.files.insert name content }
  | none => .error .missingDirectory

/-- Carry out what a command gives. -/
def deliver (w : Workspace) (product : Product) : Except Failure (Outcome × Workspace) := do
  let w ← match product.file with
    | some (path, content) => w.store path content
    | none => pure w
  return ({ code := 0, stdout := product.printed }, w)

def invoke (w : Workspace) (arguments : List String) (parse : Parser := Invocation.parse) :
    Outcome × Workspace :=
  match parse arguments with
  | .error outcome => (outcome, w)
  | .ok invocation =>
    let w := { w with skip := w.skip.extend invocation.skip }
    match invocation.command.execute w.texts w.skip >>= w.deliver with
    | .ok result => result
    | .error failure => ({ code := 1, stderr := failure.text }, w)

end Workspace

end CommandLine

end TraceReplay
