/-
  TraceReplay.Value.Hybrid — words of which some bits are known and others are not.

  The pieces of a hybrid word tile its 32 bits (`Pieces.isPartition`). Shifting such a word
  by a constant moves its pieces instead of hiding it inside a shift (`Build.shiftHybrid`),
  and masking it with a constant gives a known word when the mask decides every unknown bit
  (`Build.foldMask`).
-/

import TraceReplay.Value.Table

namespace TraceReplay

/-! ## Partitions -/

namespace Pieces

/-- The ranges cover the bits from `next` to 31, each from where the one before ends. -/
def tile (next : Nat) : List BitRange → Bool
  | [] => next == 32
  | r :: rest => r.low == next && r.low ≤ r.high && tile (r.high + 1) rest

def isPartition (pieces : Pieces) : Bool := tile 0 pieces.keys

def isSymbolic (pieces : Pieces) (t : Table) : Bool := pieces.values.any t.isSymbolic

/-- The word whose pieces are all known. -/
def known (pieces : Pieces) (t : Table) : Option Word :=
  pieces.entries.foldlM (fun word e => (t.known e.2).map (word ||| e.1.place ·)) 0

end Pieces

namespace Build

/-- A hybrid word from pieces that tile it. -/
def hybrid (pieces : Pieces) (_tiles : pieces.isPartition) : Build ValueId := fun t =>
  append { width := 32, node := .hybrid pieces, symbolic := pieces.isSymbolic t,
           known := pieces.known t } t

def checkedHybrid (pieces : Pieces) : Except Fault (Build ValueId) :=
  if tiles : pieces.isPartition then .ok (hybrid pieces tiles) else .error .brokenPartition

end Build

/-! ## Shifts by a constant -/

inductive Direction where
  | left
  | right
  deriving DecidableEq, Repr

namespace Direction

def ofOpcode? : Opcode → Option Direction
  | .shl => some left
  | .shr => some right
  | _ => none

def shift (n : Nat) (w : Word) : Direction → Word
  | left => w <<< n
  | right => w >>> n

/-- Where a range is after the shift; nothing if all of it leaves the word. -/
def move? (n : Nat) (r : BitRange) : Direction → Option BitRange
  | left => if r.low + n > 31 then none else some ⟨r.low + n, min (r.high + n) 31⟩
  | right => if r.high < n then none else some ⟨r.low - n, r.high - n⟩

/-- The bits that a shift by `n` fills with zeros. -/
def vacated (n : Nat) : Direction → BitRange
  | left => ⟨0, n - 1⟩
  | right => ⟨32 - n, 31⟩

end Direction

namespace Build

/-- The piece that takes the place of `piece` at `target`. The bits of a constant move with
it. Any other piece stays as it is, unless its low bits leave the word to the right: then
it is shifted down by as many bits as are lost. -/
def movePiece (d : Direction) (n : Nat) (range target : BitRange) (piece : ValueId) :
    Build ValueId := do
  match (← getThe Table).constant? piece with
  | some b => bits ⟨d.shift n b.word, target⟩
  | none =>
    if d = .right ∧ range.low < n then
      let lost ← constant (BitVec.ofNat 32 (n - range.low))
      binary .shr piece lost
    else return piece

/-- The pieces that stay in the word, moved to their new places. -/
def movePieces (d : Direction) (n : Nat) (entries : List (BitRange × ValueId)) : Build Pieces :=
  entries.foldlM (fun moved e => do
    match d.move? n e.1 with
    | none => return moved
    | some target => return moved.insert target (← movePiece d n e.1 target e.2)) .empty

/-- Shift a hybrid word by a constant count. A count of no bits gives the same pieces again,
whatever the opcode. -/
def shiftHybrid (id : ValueId) (opcode : Opcode) (count : Word) : ExceptT Fault Build ValueId := do
  let some pieces := (← getThe Table).pieces? id | throw .brokenPartition
  let n := Opcode.shiftCount count
  if n = 0 then
    liftM (← checkedHybrid pieces)
  else
    let some d := Direction.ofOpcode? opcode | throw (.unknownOperation opcode.name)
    let moved ← movePieces d n pieces.entries
    let filling ← bits ⟨0, d.vacated n⟩
    liftM (← checkedHybrid (moved.insert (d.vacated n) filling))

/-! ## Masks -/

/-- What a piece contributes to the masked word, if that is known. -/
def maskedPiece? (t : Table) (opcode : Opcode) (mask : Word) (range : BitRange) (piece : ValueId) :
    Option Word :=
  if t.isSymbolic piece then
    match opcode with
    | .and => if mask &&& range.mask = 0 then some 0 else none
    | .or => if mask &&& range.mask = range.mask then some range.mask else none
    | _ => none
  else
    match opcode, t.known piece with
    | .and, some v => some (range.place v &&& mask)
    | .or, some v => some ((range.place v ||| mask) &&& range.mask)
    | _, _ => none

def maskedWord? (t : Table) (opcode : Opcode) (mask : Word) (pieces : Pieces) : Option Word :=
  pieces.entries.foldlM (fun word e => (maskedPiece? t opcode mask e.1 e.2).map (word ||| ·)) 0

/-- The constant that a hybrid word becomes under `and` or `or` with a mask that decides all
its unknown bits; nothing is built otherwise. -/
def foldMask (id : ValueId) (opcode : Opcode) (mask : Word) : Build (Option ValueId) := fun t =>
  match (t.pieces? id).bind (maskedWord? t opcode mask) with
  | some word => (some <$> constant word : Build (Option ValueId)) t
  | none => (none, t)

end Build

end TraceReplay
