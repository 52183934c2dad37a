/-
  TraceReplay.Main — the program.

  Reads the arguments, the stored settings and the trace files, lets
  `CommandLine.Command.execute` do the work, and prints or writes what it gives.
-/

import TraceReplay.CommandLine.Workspace
import TraceReplay.Json.Printer

namespace TraceReplay.CommandLine

/-- The directory of the stored settings, under the usual place for them. -/
def settingsDirectory : IO String := do
  let base ← match ← IO.getEnv "XDG_CONFIG_HOME" with
    | some directory => pure directory
    | none => pure ((← IO.getEnv "HOME").getD "." ++ "/.config")
  return base ++ "/trace-replay"

def readText? (path : String) : IO (Option String) :=
  try return some (← IO.FS.readFile path) catch _ => return none

def loadSkip (directory : String) : IO SkipSet := do
  let text ← readText? (directory ++ "/settings.json")
  return ((text.bind Json.parse?).bind SkipSet.ofJson?).getD .standard

def storeSkip (directory : String) (skip : SkipSet) : IO Unit := do
  IO.FS.createDirAll directory
  IO.FS.writeFile (directory ++ "/settings.json") skip.toJson.render

def readTexts (paths : List String) : IO Texts := do
  let texts ← paths.mapM fun path => return (path, ← readText? path)
  return fun path => (texts.lookup path).join

def invoke (invocation : Invocation) : IO UInt32 := do
  let directory ← settingsDirectory
  let stored ← loadSkip directory
  let skip := stored.extend invocation.skip
  if skip ≠ stored then storeSkip directory skip
  match invocation.command.execute (← readTexts invocation.command.traces) skip with
  | .error failure =>
    IO.eprint failure.text
    return 1
  | .ok product =>
    if let some (path, content) := product.file then IO.FS.writeFile path content
    IO.print product.printed
    return 0

end TraceReplay.CommandLine

open TraceReplay.CommandLine in
def main (arguments : List String) : IO UInt32 := do
  match Invocation.parse arguments with
  | .error outcome =>
    IO.print outcome.stdout
    IO.eprint outcome.stderr
    return outcome.code.toUInt32
  | .ok invocation =>
    try invoke invocation
    catch e =>
      IO.eprintln s!"Error: {e}"
      return 1
