/-
  TraceReplay.Json — the data in which traces are written.

  A number keeps what a record can use: a natural number written with digits alone is read
  as such, and any other literal is kept as text. A string literal has no text when its
  escapes name half of a surrogate pair; such a literal is well formed and may stand
  wherever it is not looked at. The members of an object keep their order and repetitions.
-/

import TraceReplay.Word

namespace TraceReplay

namespace Json

inductive Number where
  | natural (n : Nat)
  | other (text : String)
  deriving DecidableEq, Repr

end Json

inductive Json where
  | null
  | bool (b : Bool)
  | number (n : Json.Number)
  | string (text : Option String)
  | array (items : List Json)
  | object (members : List (Option String × Json))
  deriving Inhabited, Repr

namespace Json

/-! ## Writing data -/

def ofText (s : String) : Json := string (some s)

def ofNat (n : Nat) : Json := number (.natural n)

def ofWord (w : Word) : Json := ofNat w.toNat

def ofOption {α : Type} (write : α → Json) : Option α → Json
  | none => null
  | some a => write a

def ofList {α : Type} (write : α → Json) (items : List α) : Json := array (items.map write)

def ofFields (fields : List (String × Json)) : Json := object (fields.map fun f => (some f.1, f.2))

/-! ## Reading data -/

def toText? : Json → Option String
  | string text => text
  | _ => none

def toNat? : Json → Option Nat
  | number (.natural n) => some n
  | _ => none

def toWord? (j : Json) : Option Word := j.toNat?.bind Word.ofNat?

/-- `null` stands for no value. -/
def toOption? {α : Type} (read : Json → Option α) : Json → Option (Option α)
  | null => some none
  | j => (read j).map some

def toList? {α : Type} (read : Json → Option α) : Json → Option (List α)
  | array items => items.mapM read
  | _ => none

/-- The value of a member; a repeated member counts with its last value. -/
def member? (name : String) : Json → Option Json
  | object members => (members.reverse.find? (·.1 == some name)).map (·.2)
  | _ => none

end Json

end TraceReplay
