/-
  TraceReplay.Bits — bit positions within a word.

  A bit range is inclusive at both ends. `Bits` is a known stretch of a word: the word is
  kept as it was given and the range selects the bits that count, so its number is those
  bits moved down to position 0 and its text is derived from that number.
-/

import TraceReplay.Word

namespace TraceReplay

structure BitRange where
  low : Nat
  high : Nat
  deriving DecidableEq, Repr

namespace BitRange

/-- Ranges are ordered by their low end, then by their high end. -/
instance : Ord BitRange := ⟨compareLex (compareOn low) (compareOn high)⟩

instance : Std.TransOrd BitRange :=
  inferInstanceAs (Std.TransCmp (compareLex (compareOn low) (compareOn high)))

def word : BitRange := ⟨0, 31⟩

/-- The lowest `bits` bits; at least one bit and at most a whole word. -/
def lowBits (bits : Nat) : BitRange := ⟨0, min (max bits 1) 32 - 1⟩

def width (r : BitRange) : Nat := r.high - r.low + 1

/-- The word with exactly the bits of the range set. -/
def mask (r : BitRange) : Word := (BitVec.allOnes 32 >>> (32 - r.width)) <<< r.low

/-- A number moved up to its place in the word. -/
def place (r : BitRange) (v : Word) : Word := (v <<< r.low) &&& r.mask

def text (r : BitRange) : String := s!"[{r.low},{r.high}]"

end BitRange

structure Bits where
  word : Word
  range : BitRange
  deriving DecidableEq, Repr

namespace Bits

def value (b : Bits) : Word := (b.word &&& b.range.mask) >>> b.range.low

def hex (b : Bits) : String := Word.hex b.value

end Bits

end TraceReplay
