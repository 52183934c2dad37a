/-
  TraceReplay.Machine.RegisterFile — symbolic register contents.

  Only whole registers are stored. A narrower view is extracted from its owner when it is
  read and merged into its owner when it is written, so a register that never got a value
  can be written whole but neither read nor written in part. Whether a read or a write is
  possible depends on the register file alone, and is decided before anything is built.
-/

import TraceReplay.Value.Hybrid

namespace TraceReplay

/-! ## Views of a word -/

namespace RegisterView

/-- The low bits of a word: the piece that covers them, or the word under a mask. -/
def extractLow (range : BitRange) (owner : ValueId) : Build ValueId := do
  match (← getThe Table).piece? owner range with
  | some piece => return piece
  | none =>
    let mask ← Build.constant range.mask
    Build.binarySized .and owner mask range.width

/-- Bits that do not start at 0: the piece that covers them, or the masked word moved down. -/
def extractHigh (range : BitRange) (owner : ValueId) : Build ValueId := do
  match (← getThe Table).piece? owner range with
  | some piece => return piece
  | none =>
    let mask ← Build.constant range.mask
    let masked ← Build.binary .and owner mask
    let count ← Build.constant (BitVec.ofNat 32 range.low)
    Build.binarySized .shr masked count range.width

def extract (owner : ValueId) (view : RegisterView) : Build ValueId :=
  match view with
  | full _ => return owner
  | low16 _ => extractLow view.span owner
  | low8 _ => extractLow view.span owner
  | high8 _ => extractHigh view.span owner

def mergeLow (range : BitRange) (owner value : ValueId) : Build ValueId := do
  let mask ← Build.constant (~~~range.mask)
  let kept ← Build.binary .and owner mask
  Build.binary .or kept value

/-- A known word with the byte at bits 8 to 15 replaced by a value. -/
def splitAround (word : Word) (value : ValueId) : Build ValueId := do
  let below ← Build.bits ⟨word, ⟨0, 7⟩⟩
  let above ← Build.bits ⟨word, ⟨16, 31⟩⟩
  Build.hybrid (.ofList [(⟨0, 7⟩, below), (⟨8, 15⟩, value), (⟨16, 31⟩, above)]) rfl

/-- A symbolic byte in a word that is known and not hybrid splits it into pieces; any other
byte is moved to its place under a mask. -/
def mergeHigh (range : BitRange) (owner value : ValueId) : Build ValueId := do
  let t ← getThe Table
  match t.concrete? owner with
  | some word =>
    if t.isSymbol value then splitAround word value else mask
  | none => mask
where
  mask : Build ValueId := do
    let mask ← Build.constant (~~~range.mask)
    let kept ← Build.binary .and owner mask
    let count ← Build.constant (BitVec.ofNat 32 range.low)
    let moved ← Build.binary .shl value count
    Build.binary .or kept moved

def merge (owner value : ValueId) (view : RegisterView) : Build ValueId :=
  match view with
  | full _ => return value
  | low16 _ => mergeLow view.span owner value
  | low8 _ => mergeLow view.span owner value
  | high8 _ => mergeHigh view.span owner value

end RegisterView

/-! ## The registers -/

structure RegisterFile where
  slots : Vector (Option ValueId) 8
  /-- The register that each entry symbol was made for. -/
  inputs : SortedMap ValueId Register
  deriving DecidableEq

namespace RegisterFile

def empty : RegisterFile := ⟨Vector.replicate 8 none, .empty⟩

def get? (regs : RegisterFile) (r : Register) : Option ValueId := regs.slots.get r.index

def set (regs : RegisterFile) (r : Register) (value : ValueId) : RegisterFile :=
  { regs with slots := regs.slots.set r.index (some value) r.index.isLt }

/-- Give a register a fresh symbol for its contents on entry. -/
def seed (regs : RegisterFile) (r : Register) : Build (ValueId × RegisterFile) := do
  let entry ← Build.symbol 32
  return (entry, { regs.set r entry with inputs := regs.inputs.insert entry r })

/-- The registers that hold a value, in order. -/
def held (regs : RegisterFile) : List (Register × ValueId) :=
  Register.all.filterMap fun r => (regs.get? r).map (r, ·)

def owner (regs : RegisterFile) (r : Register) : Except Fault ValueId :=
  match regs.get? r with
  | some value => .ok value
  | none => .error (.unseededRegister r)

/-- Whether the view can be written: the fault is the one that writing it meets. -/
def checkWrite (regs : RegisterFile) (view : RegisterView) : Except Fault Unit :=
  match view with
  | .full _ => .ok ()
  | _ => (regs.owner view.owner).map fun _ => ()

def read (regs : RegisterFile) (view : RegisterView) : Except Fault (Build ValueId) :=
  (regs.owner view.owner).map fun owner => view.extract owner

def write (regs : RegisterFile) (view : RegisterView) (value : ValueId) :
    Except Fault (Build RegisterFile) :=
  match view with
  | .full r => .ok (return regs.set r value)
  | _ => (regs.owner view.owner).map fun owner =>
    return regs.set view.owner (← view.merge owner value)

/-- A view by its name. -/
def view (name : String) : Except Fault RegisterView :=
  match RegisterView.ofName? name with
  | some v => .ok v
  | none => .error (.unknownRegister name)

end RegisterFile

end TraceReplay
