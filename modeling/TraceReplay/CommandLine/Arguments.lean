/-
  TraceReplay.CommandLine.Arguments — the meaning of a list of arguments.

  The command is the first argument that is not an option. `--skip` may stand before or
  after it; where it stands on both sides, those after the command count. Other options
  and words follow the command in any order, and behind `--` every argument is a word. The
  value of an option is attached to it or is the next argument, which then must not look
  like an option.

  Whatever reads arguments is a parser (`Parser`). One that does not hand over an invocation
  ends the run itself. `Invocation.parse` does so with code 0 where help or the version is
  asked for, and with code 2 where the arguments are no proper use of the program; what it
  prints then has no further description.
-/

import TraceReplay.Formula.Text
import TraceReplay.Value.Table

namespace TraceReplay

namespace CommandLine

/-! ## Commands -/

/-- A register after the replay of a trace. -/
structure Source where
  trace : String
  register : String
  deriving DecidableEq, Repr

inductive Command where
  /-- Print every register and memory formula. -/
  | report (trace : String) (style : Style)
  /-- Write the solver's term for a register. -/
  | term (source : Source) (output : String)
  /-- Write a query that compares two registers. -/
  | comparison (first second : Source) (pairs : List (ValueId × ValueId)) (output : String)
  deriving DecidableEq, Repr

structure Invocation where
  /-- Mnemonics to pass over from now on. -/
  skip : List String
  command : Command
  deriving DecidableEq, Repr

/-- How a run ends. -/
structure Outcome where
  code : Nat
  stdout : String := ""
  stderr : String := ""
  deriving DecidableEq, Repr

/-- What reads arguments: it hands over an invocation, or ends the run. -/
abbrev Parser := List String → Except Outcome Invocation

/-- Help or the version was asked for. -/
def Outcome.shown : Outcome := { code := 0 }

/-- The arguments are no proper use of the program. -/
def Outcome.misused : Outcome := { code := 2 }

def require {α : Type} : Option α → Except Outcome α
  | some a => .ok a
  | none => .error .misused

/-! ## Options and words -/

inductive CommandName where
  | run
  | cvc
  | chkeq
  deriving DecidableEq, Repr

def CommandName.ofText? : String → Option CommandName
  | "run" => some run
  | "cvc" => some cvc
  | "chkeq" => some chkeq
  | _ => none

inductive OptionName where
  | skip
  | debug
  | output
  | pair
  deriving DecidableEq, Repr

def OptionName.takesValue : OptionName → Bool
  | debug => false
  | _ => true

/-- The options that are known before a command, or after the given one. -/
def optionName? (key : String) : Option CommandName → Option OptionName
  | none => match key with
    | "--skip" => some .skip
    | _ => none
  | some .run => match key with
    | "--skip" => some .skip
    | "--debug" => some .debug
    | _ => none
  | some .cvc => match key with
    | "--skip" => some .skip
    | "--output" => some .output
    | "-o" => some .output
    | _ => none
  | some .chkeq => match key with
    | "--skip" => some .skip
    | "--pair" => some .pair
    | "--output" => some .output
    | "-o" => some .output
    | _ => none

inductive Argument where
  | word (text : String)
  | endOfOptions
  | option (key : String) (attached : Option String)
  deriving DecidableEq, Repr

/-- The text behind the first equals sign, if there is one. -/
def afterEquals? (cs : List Char) : Option String :=
  match cs.dropWhile (· ≠ '=') with
  | [] => none
  | _ :: value => some (String.ofList value)

/-- A single dash is a word. A short option is one letter, and the rest of the argument is
its value, with or without an equals sign. -/
def Argument.ofText (text : String) : Argument :=
  match text.toList with
  | ['-', '-'] => .endOfOptions
  | '-' :: '-' :: rest =>
    .option ("--" ++ String.ofList (rest.takeWhile (· ≠ '='))) (afterEquals? rest)
  | '-' :: letter :: rest =>
    .option (String.ofList ['-', letter]) (match rest with
      | [] => none
      | '=' :: value => some (String.ofList value)
      | value => some (String.ofList value))
  | _ => .word text

/-- Options that ask for help, or before the command for the version. A short one is heard
even if something is attached to it. -/
def showsText (command : Option CommandName) (key : String) (attached : Option String) : Bool :=
  match key with
  | "-h" => true
  | "-V" => command.isNone
  | "--help" => attached.isNone
  | "--version" => command.isNone && attached.isNone
  | _ => false

/-- The command `help`, and what it is asked about. -/
def help : List String → Outcome
  | [] => .shown
  | ["help"] => .shown
  | [name] => if (CommandName.ofText? name).isSome then .shown else .misused
  | _ => .misused

structure Scan where
  command : CommandName
  /-- Options before the command, then options after it; in order, with their values. -/
  outer : List (OptionName × String) := []
  inner : List (OptionName × String) := []
  words : List String := []

namespace Scan

def addOption (s : Scan) (before : Bool) (option : OptionName × String) : Scan :=
  if before then { s with outer := option :: s.outer } else { s with inner := option :: s.inner }

def addWord (s : Scan) (word : String) : Scan := { s with words := word :: s.words }

/-- Sort the arguments that follow `command`, or all of them if it is not known yet. -/
def ofArguments (command : Option CommandName) : List String → Except Outcome Scan
  | [] => do return { command := ← require command }
  | argument :: rest =>
    match Argument.ofText argument, command with
    | .word text, none =>
      if text = "help" then .error (help rest)
      else do ofArguments (some (← require (CommandName.ofText? text))) rest
    | .word text, some _ => return (← ofArguments command rest).addWord text
    | .endOfOptions, none => .error .misused
    | .endOfOptions, some c => return { command := c, words := rest }
    | .option key attached, _ =>
      if showsText command key attached then .error .shown
      else do
        let name ← require (optionName? key command)
        match name.takesValue, attached with
        | true, some value =>
          return (← ofArguments command rest).addOption command.isNone (name, value)
        | true, none =>
          match rest with
          | [] => .error .misused
          | next :: rest =>
            match Argument.ofText next with
            | .word value =>
              return (← ofArguments command rest).addOption command.isNone (name, value)
            | _ => .error .misused
        | false, none => return (← ofArguments command rest).addOption command.isNone (name, "")
        | false, some _ => .error .misused

def valuesIn (options : List (OptionName × String)) (name : OptionName) : List String :=
  (options.filter (·.1 = name)).map (·.2)

def values (s : Scan) (name : OptionName) : List String := valuesIn s.inner name

/-- An option that may be given once. -/
def single? (s : Scan) (name : OptionName) : Option (Option String) :=
  match s.values name with
  | [] => some none
  | [value] => some (some value)
  | _ => none

def skips (s : Scan) : List String :=
  match s.values .skip with
  | [] => valuesIn s.outer .skip
  | given => given

end Scan

/-! ## Invocations -/

/-- A file name is not empty. -/
def path? (text : String) : Option String := if text = "" then none else some text

/-- Two ids, divided by the first colon. -/
def pair? (text : String) : Option (ValueId × ValueId) :=
  let cs := text.toList
  match cs.dropWhile (· ≠ ':') with
  | [] => none
  | _ :: second => do
    let a ← Word.ofDecimal? (String.ofList (cs.takeWhile (· ≠ ':')))
    let b ← Word.ofDecimal? (String.ofList second)
    return (a.toNat, b.toNat)

def output? (s : Scan) (usual : String) : Option String := do path? ((← s.single? .output).getD usual)

def command? (s : Scan) : Option Command :=
  match s.command, s.words with
  | .run, [trace] => do
    let detailed ← s.single? .debug
    return .report (← path? trace) (if detailed.isSome then .detailed else .plain)
  | .cvc, [trace, register] =>
    return .term ⟨← path? trace, register⟩ (← output? s "formula.cvc")
  | .chkeq, [firstTrace, firstRegister, secondTrace, secondRegister] => do
    let first : Source := ⟨← path? firstTrace, firstRegister⟩
    let second : Source := ⟨← path? secondTrace, secondRegister⟩
    return .comparison first second (← (s.values .pair).mapM pair?) (← output? s "ChkEq.cvc")
  | _, _ => none

/-- The parser of the program. -/
def Invocation.parse : Parser := fun arguments => do
  let s ← Scan.ofArguments none arguments
  return ⟨s.skips, ← require (command? s)⟩

end CommandLine

end TraceReplay
