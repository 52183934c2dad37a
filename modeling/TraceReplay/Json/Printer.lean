/-
  TraceReplay.Json.Printer — writing JSON text.

  Values are written without blanks. In strings the quote, the backslash and the control
  characters are escaped and every other character stands for itself.
-/

import TraceReplay.Json

namespace TraceReplay.Json

def escapeChar (c : Char) : String :=
  if c = '"' then "\\\""
  else if c = '\\' then "\\\\"
  else if c.toNat < 0x20 then
    "\\u" ++ String.ofList ((Word.hex8 (BitVec.ofNat 32 c.toNat)).toList.drop 4)
  else c.toString

/-- A literal without a text is written as half a surrogate pair. -/
def quote : Option String → String
  | none => "\"\\ud800\""
  | some s => s.toList.foldl (fun written c => written ++ escapeChar c) "\"" ++ "\""

def Number.text : Number → String
  | .natural n => toString n
  | .other text => text

mutual

/-- Write a value behind what is already written. -/
def renderAfter (written : String) : Json → String
  | null => written ++ "null"
  | bool true => written ++ "true"
  | bool false => written ++ "false"
  | number n => written ++ n.text
  | string text => written ++ quote text
  | array items => renderItemsAfter (written ++ "[") items ++ "]"
  | object members => renderMembersAfter (written ++ "\x7b") members ++ "\x7d"

def renderItemsAfter (written : String) : List Json → String
  | [] => written
  | [item] => renderAfter written item
  | item :: rest => renderItemsAfter (renderAfter written item ++ ",") rest

def renderMembersAfter (written : String) : List (Option String × Json) → String
  | [] => written
  | [(key, value)] => renderAfter (written ++ quote key ++ ":") value
  | (key, value) :: rest =>
    renderMembersAfter (renderAfter (written ++ quote key ++ ":") value ++ ",") rest

end

def render (j : Json) : String := renderAfter "" j

end TraceReplay.Json
