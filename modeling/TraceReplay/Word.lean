/-
  TraceReplay.Word — machine words and their text.

  A word is 32 bits; arithmetic on words wraps. Words are written in hexadecimal, with
  lower-case digits and no leading zeros behind `0x` (`hex`) or with all eight digits
  (`hex8`). They are read from `0x` literals (`ofHex?`) and from decimal text
  (`ofDecimal?`); both readers take an optional plus sign and any number of leading zeros,
  and refuse what does not fit in 32 bits.
-/

namespace TraceReplay

abbrev Word := BitVec 32

namespace Word

/-! ## Writing -/

def hexDigits (w : Word) : String := String.ofList (Nat.toDigits 16 w.toNat)

def hex (w : Word) : String := "0x" ++ hexDigits w

def hex8 (w : Word) : String :=
  let digits := Nat.toDigits 16 w.toNat
  String.ofList (List.replicate (8 - digits.length) '0' ++ digits)

/-! ## Reading -/

def ofNat? (n : Nat) : Option Word := if n < 0x100000000 then some (BitVec.ofNat 32 n) else none

def decimalDigit? (c : Char) : Option Nat :=
  if '0' ≤ c ∧ c ≤ '9' then some (c.toNat - '0'.toNat) else none

def hexDigit? (c : Char) : Option Nat :=
  if '0' ≤ c ∧ c ≤ '9' then some (c.toNat - '0'.toNat)
  else if 'a' ≤ c ∧ c ≤ 'f' then some (c.toNat - 'a'.toNat + 10)
  else if 'A' ≤ c ∧ c ≤ 'F' then some (c.toNat - 'A'.toNat + 10)
  else none

/-- The number that the digits spell, most significant first. -/
def ofDigits? (base : Nat) (digit? : Char → Option Nat) (digits : List Char) : Option Nat :=
  digits.foldlM (fun n c => (digit? c).map (n * base + ·)) 0

/-- A word from one or more digits behind an optional plus sign. -/
def unsigned? (base : Nat) (digit? : Char → Option Nat) (text : List Char) : Option Word :=
  match (match text with | '+' :: rest => rest | _ => text) with
  | [] => none
  | digits => (ofDigits? base digit? digits).bind ofNat?

def ofDecimal? (text : String) : Option Word := unsigned? 10 decimalDigit? text.toList

/-- A hexadecimal literal is `0x` or `0X` and the digits of a word. -/
def ofHex? (text : String) : Option Word :=
  match text.toList with
  | '0' :: 'x' :: digits => unsigned? 16 hexDigit? digits
  | '0' :: 'X' :: digits => unsigned? 16 hexDigit? digits
  | _ => none

end Word

end TraceReplay
