/-
  TraceReplay.Json.Reader — reading JSON text.

  The text is cut into tokens in one pass over its characters, and the tokens are folded
  into a value by a machine with a stack of unfinished arrays and objects. The grammar is
  strict: no comments, no trailing commas, blanks are space, tab, line feed and carriage
  return, and nothing follows the value.
-/

import TraceReplay.Json

namespace TraceReplay.Json

/-! ## String literals -/

/-- A character of a string literal, or the 16-bit unit that a `\u` escape names. -/
inductive TextUnit where
  | char (c : Char)
  | unit (n : Nat)

def shortEscape? : Char → Option Char
  | '"' => some '"'
  | '\\' => some '\\'
  | '/' => some '/'
  | 'b' => some '\x08'
  | 'f' => some '\x0c'
  | 'n' => some '\n'
  | 'r' => some '\r'
  | 't' => some '\t'
  | _ => none

/-- The units between the quotes, or nothing if an escape is unknown or a control character
stands by itself. -/
def textUnits? : List Char → Option (List TextUnit)
  | [] => some []
  | '\\' :: 'u' :: a :: b :: c :: d :: rest => do
    let n ← Word.ofDigits? 16 Word.hexDigit? [a, b, c, d]
    return .unit n :: (← textUnits? rest)
  | '\\' :: e :: rest => do
    let c ← shortEscape? e
    return .char c :: (← textUnits? rest)
  | c :: rest =>
    if c = '\\' ∨ c.toNat < 0x20 then none
    else do return .char c :: (← textUnits? rest)

def isHighSurrogate (n : Nat) : Bool := 0xd800 ≤ n && n < 0xdc00

def isLowSurrogate (n : Nat) : Bool := 0xdc00 ≤ n && n < 0xe000

/-- Join surrogate pairs; half a pair leaves the literal without a text. -/
def joinUnits? : List TextUnit → Option (List Char)
  | [] => some []
  | .char c :: rest => (joinUnits? rest).map (c :: ·)
  | .unit h :: .unit l :: rest =>
    if isHighSurrogate h && isLowSurrogate l then
      (joinUnits? rest).map (Char.ofNat (0x10000 + (h - 0xd800) * 0x400 + (l - 0xdc00)) :: ·)
    else if isHighSurrogate h || isLowSurrogate h then none
    else (joinUnits? (.unit l :: rest)).map (Char.ofNat h :: ·)
  | .unit h :: rest =>
    if isHighSurrogate h || isLowSurrogate h then none
    else (joinUnits? rest).map (Char.ofNat h :: ·)

def literalText? (body : List Char) : Option (Option String) :=
  (textUnits? body).map fun units => (joinUnits? units).map String.ofList

/-! ## Numbers and names -/

/-- Drop one or more digits. -/
def dropDigits? (cs : List Char) : Option (List Char) :=
  match cs with
  | c :: _ => if c.isDigit then some (cs.dropWhile Char.isDigit) else none
  | [] => none

/-- The integer part is a lone zero or starts with another digit. -/
def dropInteger? : List Char → Option (List Char)
  | '0' :: rest => some rest
  | cs => dropDigits? cs

def dropFraction? : List Char → Option (List Char)
  | '.' :: rest => dropDigits? rest
  | cs => some cs

def dropSign : List Char → List Char
  | '+' :: rest => rest
  | '-' :: rest => rest
  | cs => cs

def dropExponent? : List Char → Option (List Char)
  | 'e' :: rest => dropDigits? (dropSign rest)
  | 'E' :: rest => dropDigits? (dropSign rest)
  | cs => some cs

def isNumber (cs : List Char) : Bool :=
  let magnitude := match cs with | '-' :: rest => rest | _ => cs
  ((dropInteger? magnitude).bind fun r => (dropFraction? r).bind dropExponent?) == some []

def Number.ofChars? (cs : List Char) : Option Number :=
  if isNumber cs then
    match Word.ofDigits? 10 Word.decimalDigit? cs with
    | some n => some (.natural n)
    | none => some (.other (String.ofList cs))
  else none

/-- A bare word is one of three names or a number. -/
def bareWord? (cs : List Char) : Option Json :=
  if cs = ['n', 'u', 'l', 'l'] then some null
  else if cs = ['t', 'r', 'u', 'e'] then some (bool true)
  else if cs = ['f', 'a', 'l', 's', 'e'] then some (bool false)
  else (Number.ofChars? cs).map number

/-! ## Tokens -/

inductive Token where
  | openBrace
  | closeBrace
  | openBracket
  | closeBracket
  | comma
  | colon
  | text (s : Option String)
  | scalar (value : Json)

/-- What the last characters belong to; the characters seen so far are in reverse. -/
inductive Pending where
  | blank
  | bare (seen : List Char)
  | quoted (seen : List Char) (escaped : Bool)

structure Lexer where
  pending : Pending := .blank
  /-- In reverse. -/
  tokens : List Token := []

namespace Lexer

def isBlank (c : Char) : Bool := c = ' ' || c = '\t' || c = '\n' || c = '\r'

def punctuation? : Char → Option Token
  | '\x7b' => some .openBrace
  | '\x7d' => some .closeBrace
  | '[' => some .openBracket
  | ']' => some .closeBracket
  | ',' => some .comma
  | ':' => some .colon
  | _ => none

/-- End a bare word. -/
def settle (s : Lexer) : Option Lexer :=
  match s.pending with
  | .blank => some s
  | .bare seen => (bareWord? seen.reverse).map fun v => ⟨.blank, .scalar v :: s.tokens⟩
  | .quoted .. => none

/-- Outside strings a blank, a quote and punctuation end a bare word. -/
def step (s : Lexer) (c : Char) : Option Lexer :=
  match s.pending with
  | .quoted seen escaped =>
    if escaped then some { s with pending := .quoted (c :: seen) false }
    else if c = '"' then
      (literalText? seen.reverse).map fun t => ⟨.blank, .text t :: s.tokens⟩
    else some { s with pending := .quoted (c :: seen) (c = '\\') }
  | _ =>
    if isBlank c then s.settle
    else if c = '"' then s.settle.map fun s => { s with pending := .quoted [] false }
    else
      match punctuation? c with
      | some t => s.settle.map fun s => { s with tokens := t :: s.tokens }
      | none =>
        match s.pending with
        | .bare seen => some { s with pending := .bare (c :: seen) }
        | _ => some { s with pending := .bare [c] }

def tokens? (cs : List Char) : Option (List Token) :=
  (cs.foldlM step {}).bind fun s => s.settle.map (·.tokens.reverse)

end Lexer

/-! ## Values -/

/-- An unfinished array or object; items and members are in reverse. -/
inductive Frame where
  | array (items : List Json)
  | object (members : List (Option String × Json))
  | member (members : List (Option String × Json)) (key : Option String)

/-- What the next token may be. -/
inductive Expected where
  | value
  | firstItem
  | firstKey
  | key
  | colon
  | separator
  | nothing (result : Json)

structure Machine where
  stack : List Frame
  expected : Expected

namespace Machine

/-- Hand a finished value to the innermost unfinished array or object. -/
def complete (v : Json) : List Frame → Option Machine
  | [] => some ⟨[], .nothing v⟩
  | .array items :: rest => some ⟨.array (v :: items) :: rest, .separator⟩
  | .member members key :: rest => some ⟨.object ((key, v) :: members) :: rest, .separator⟩
  | .object _ :: _ => none

def start (stack : List Frame) : Token → Option Machine
  | .openBracket => some ⟨.array [] :: stack, .firstItem⟩
  | .openBrace => some ⟨.object [] :: stack, .firstKey⟩
  | .text s => complete (.string s) stack
  | .scalar v => complete v stack
  | _ => none

def step : Machine → Token → Option Machine
  | ⟨stack, .value⟩, t => start stack t
  | ⟨.array items :: rest, .firstItem⟩, .closeBracket => complete (.array items.reverse) rest
  | ⟨stack, .firstItem⟩, t => start stack t
  | ⟨.object members :: rest, .firstKey⟩, .closeBrace =>
    complete (.object members.reverse) rest
  | ⟨.object members :: rest, .firstKey⟩, .text key => some ⟨.member members key :: rest, .colon⟩
  | ⟨.object members :: rest, .key⟩, .text key => some ⟨.member members key :: rest, .colon⟩
  | ⟨stack, .colon⟩, .colon => some ⟨stack, .value⟩
  | ⟨.array items :: rest, .separator⟩, .comma => some ⟨.array items :: rest, .value⟩
  | ⟨.array items :: rest, .separator⟩, .closeBracket => complete (.array items.reverse) rest
  | ⟨.object members :: rest, .separator⟩, .comma => some ⟨.object members :: rest, .key⟩
  | ⟨.object members :: rest, .separator⟩, .closeBrace =>
    complete (.object members.reverse) rest
  | _, _ => none

end Machine

/-- The value that a text spells. -/
def parse? (text : String) : Option Json := do
  let tokens ← Lexer.tokens? text.toList
  let final ← tokens.foldlM Machine.step ⟨[], .value⟩
  match final.expected with
  | .nothing v => some v
  | _ => none

end TraceReplay.Json
