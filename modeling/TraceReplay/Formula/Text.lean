/-
  TraceReplay.Formula.Text — formulas as text.

  An operation is its name and its operands in parentheses. A hybrid word is a name, or, in
  the detailed style, the list of its pieces.
-/

import TraceReplay.Formula

namespace TraceReplay

inductive Style where
  | plain
  | detailed
  deriving DecidableEq, Repr

namespace Formula

mutual

def text (style : Style) : Formula → String
  | symbol id _ => s!"sym{id}"
  | constant value => Word.hex value
  | hybrid id parts =>
    match style with
    | .plain => s!"hyb{id}"
    | .detailed => s!"[hyb{id}" ++ partsText style parts ++ "]"
  | operation opcode args => "(" ++ opcode.name ++ argsText style args ++ ")"

def partsText (style : Style) : List (BitRange × Formula) → String
  | [] => ""
  | (range, part) :: rest => " " ++ range.text ++ ":" ++ text style part ++ partsText style rest

def argsText (style : Style) : List Formula → String
  | [] => ""
  | arg :: rest => " " ++ text style arg ++ argsText style rest

end

end Formula

end TraceReplay
