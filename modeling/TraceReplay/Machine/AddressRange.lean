/-
  TraceReplay.Machine.AddressRange — stretches of byte addresses, inclusive at both ends.
-/

import TraceReplay.Word

namespace TraceReplay

structure AddressRange where
  first : Word
  last : Word
  deriving DecidableEq, Repr

namespace AddressRange

/-- Ranges are ordered by their first address, then by their last. -/
instance : Ord AddressRange := ⟨compareLex (compareOn first) (compareOn last)⟩

instance : Std.TransOrd AddressRange :=
  inferInstanceAs (Std.TransCmp (compareLex (compareOn first) (compareOn last)))

/-- The bytes that an access touches; an access of no bytes touches one. An access that runs
past the last address has no range. -/
def ofAccess? (address : Word) (bytes : Nat) : Option AddressRange :=
  (Word.ofNat? (address.toNat + (max bytes 1 - 1))).map fun last => ⟨address, last⟩

/-- The number of bytes, modulo the size of the address space. -/
def size (r : AddressRange) : Nat := (r.last - r.first + 1).toNat

def contains (r s : AddressRange) : Bool := r.first ≤ s.first && s.last ≤ r.last

def intersects (r s : AddressRange) : Bool := r.first ≤ s.last && s.first ≤ r.last

def text (r : AddressRange) : String := s!"[{Word.hex r.first},{Word.hex r.last}]"

end AddressRange

end TraceReplay
