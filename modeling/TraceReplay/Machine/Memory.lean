/-
  TraceReplay.Machine.Memory — symbolic memory, byte-addressed and little-endian.

  Memory is a set of disjoint cells, each a range of addresses with the value stored there.
  An access that meets no cell reads a fresh input symbol, which becomes a cell of its own.
  An access inside a cell of at most four bytes reads and replaces part of its value. A
  write over whole cells replaces them, a read over them is refused, and an access that
  crosses the border of a cell is refused. Whether an access is possible depends on the
  cells alone, and is decided before anything is built.
-/

import TraceReplay.Value.Table

namespace TraceReplay

/-- How an access lies among the stored cells. -/
inductive Placement where
  /-- The range of the access is a cell. -/
  | exact (stored : ValueId)
  /-- No cell shares a byte with the access. -/
  | fresh
  /-- A wider cell contains the access. -/
  | within (cell : AddressRange) (stored : ValueId)
  /-- The access contains every cell that it meets; these are `first` and `rest`. -/
  | covering (first : AddressRange) (rest : List AddressRange)
  /-- The access meets the cell, and neither contains the other. -/
  | straddling (cell : AddressRange)
  deriving DecidableEq, Repr

structure Memory where
  cells : SortedMap AddressRange ValueId
  /-- The bytes that each input symbol stands for. -/
  inputs : SortedMap ValueId AddressRange
  deriving DecidableEq

namespace Memory

def empty : Memory := ⟨.empty, .empty⟩

def get? (m : Memory) (range : AddressRange) : Option ValueId := m.cells.get? range

def touched (m : Memory) (access : AddressRange) : List (AddressRange × ValueId) :=
  m.cells.entries.filter fun cell => cell.1.intersects access

/-- Of several cells that would do, the one with the lowest address is taken. -/
def classify (m : Memory) (access : AddressRange) : Placement :=
  match m.get? access with
  | some stored => .exact stored
  | none =>
    match m.touched access with
    | [] => .fresh
    | first :: rest =>
      match (first :: rest).find? (·.1.contains access) with
      | some cell => .within cell.1 cell.2
      | none =>
        match (first :: rest).find? (fun cell => !access.contains cell.1) with
        | some cell => .straddling cell.1
        | none => .covering first.1 (rest.map (·.1))

def access (address : Word) (bytes : Nat) : Except Fault AddressRange :=
  match AddressRange.ofAccess? address bytes with
  | some range => .ok range
  | none => .error (.addressWrap address bytes)

/-- The bits of a cell's word that an access inside it covers; the lowest address holds the
lowest byte. -/
def lane (cell access : AddressRange) : BitRange :=
  let offset := (access.first - cell.first).toNat
  ⟨offset * 8, (offset + access.size) * 8 - 1⟩

/-- Only a cell of at most four bytes is a word with lanes. -/
def lane? (cell access : AddressRange) : Except Fault BitRange :=
  if cell.size > 4 then .error (.oversizedRange cell) else .ok (lane cell access)

/-- Whether the bytes can be written: the fault is the one that writing them meets. -/
def checkWrite (m : Memory) (address : Word) (bytes : Nat) : Except Fault Unit := do
  let range ← access address bytes
  match m.classify range with
  | .straddling cell => .error (.partialOverlap range cell)
  | .within cell _ => if cell.size > 4 then .error (.oversizedRange cell) else .ok ()
  | _ => .ok ()

def readLane (stored : ValueId) (lane : BitRange) (width : Nat) : Build ValueId := do
  let mask ← Build.constant lane.mask
  let masked ← Build.binary .and stored mask
  let count ← Build.constant (BitVec.ofNat 32 lane.low)
  Build.binarySized .shr masked count width

def writeLane (stored value : ValueId) (lane : BitRange) : Build ValueId := do
  let mask ← Build.constant (~~~lane.mask)
  let kept ← Build.binary .and stored mask
  let count ← Build.constant (BitVec.ofNat 32 lane.low)
  let moved ← Build.binary .shl value count
  Build.binary .or kept moved

/-- Untouched bytes become an input, remembered so that later reads of them agree. -/
def readFresh (m : Memory) (range : AddressRange) (width : Nat) : Build (ValueId × Memory) := do
  let input ← Build.symbol width
  return (input, ⟨m.cells.insert range input, m.inputs.insert input range⟩)

def read (m : Memory) (address : Word) (bytes : Nat) :
    Except Fault (Build (ValueId × Memory)) := do
  let range ← access address bytes
  match m.classify range with
  | .exact stored => .ok (return (stored, m))
  | .fresh => .ok (m.readFresh range (bytes * 8))
  | .within cell stored =>
    let lane ← lane? cell range
    .ok (return (← readLane stored lane (bytes * 8), m))
  | .covering first _ => .error (.partialOverlap range first)
  | .straddling cell => .error (.partialOverlap range cell)

def store (m : Memory) (range : AddressRange) (value : ValueId) : Memory :=
  { m with cells := m.cells.insert range value }

def write (m : Memory) (address : Word) (bytes : Nat) (value : ValueId) :
    Except Fault (Build Memory) := do
  let range ← access address bytes
  match m.classify range with
  | .exact _ => .ok (return m.store range value)
  | .fresh => .ok (return m.store range value)
  | .covering first rest =>
    .ok (return { m with cells := ((first :: rest).foldl (·.erase ·) m.cells).insert range value })
  | .within cell stored =>
    let lane ← lane? cell range
    .ok (return m.store cell (← writeLane stored value lane))
  | .straddling cell => .error (.partialOverlap range cell)

end Memory

end TraceReplay
