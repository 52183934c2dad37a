/-
  TraceReplay.Proofs.Checked.Arithmetic — numbers that have to fit.

  A replay counts bits with numbers of 8 bits and everything else with words. Here every sum,
  difference, product and shift is checked: one whose result does not fit, or that shifts a word
  by all of its bits or more, has no result, and neither has a range of bits that does not lie in
  a word. What is computed in this way from ranges that do lie in one always has a result, and it
  is the one that is computed without checks: widths and masks (`width_eq`, `mask_eq`), known bits
  (`value_eq`), moved and vacated ranges (`move_eq`, `vacated_eq`), and the bytes of an access
  inside a cell of at most four bytes (`byteMask_eq`).
-/

import TraceReplay.Proofs.Hybrid
import TraceReplay.Proofs.Memory.ByteStore

namespace TraceReplay

namespace Checked

/-! ## Operations -/

def add (bits a b : Nat) : Option Nat := if a + b < 2 ^ bits then some (a + b) else none

def sub (a b : Nat) : Option Nat := if b ≤ a then some (a - b) else none

def mul (bits a b : Nat) : Option Nat := if a * b < 2 ^ bits then some (a * b) else none

def shiftLeft (w : Word) (n : Nat) : Option Word := if n < 32 then some (w <<< n) else none

def shiftRight (w : Word) (n : Nat) : Option Word := if n < 32 then some (w >>> n) else none

variable {bits a b n : Nat}

theorem add_eq (h : a + b < 2 ^ bits) : add bits a b = some (a + b) := if_pos h

theorem sub_eq (h : b ≤ a) : sub a b = some (a - b) := if_pos h

theorem mul_eq (h : a * b < 2 ^ bits) : mul bits a b = some (a * b) := if_pos h

theorem shiftLeft_eq (w : Word) (h : n < 32) : shiftLeft w n = some (w <<< n) := if_pos h

theorem shiftRight_eq (w : Word) (h : n < 32) : shiftRight w n = some (w >>> n) := if_pos h

/-! ## Ranges of bits -/

def range (low high : Nat) : Option BitRange := if BitRange.InWord ⟨low, high⟩ then some ⟨low, high⟩ else none

def lowBits (bits : Nat) : Option BitRange := do range 0 (← sub (min (max bits 1) 32) 1)

def width (r : BitRange) : Option Nat := do add 32 (← sub r.high r.low) 1

def ones (count : Nat) : Option Word := do
  if count = 32 then return BitVec.allOnes 32
  else return BitVec.ofNat 32 (← sub (← shiftLeft 1 count).toNat 1)

def mask (r : BitRange) : Option Word := do shiftLeft (← ones (← width r)) r.low

/-- Moving a number to its place may push bits out of the word. -/
def place (r : BitRange) (v : Word) : Option Word := do return (v <<< (r.low % 32)) &&& (← mask r)

def value (b : Bits) : Option Word := do shiftRight (b.word &&& (← mask b.range)) b.range.low

variable {r : BitRange}

theorem range_eq (h : r.InWord) : range r.low r.high = some r := if_pos h

theorem lowBits_eq (bits : Nat) : lowBits bits = some (.lowBits bits) := by
  rw [lowBits, sub_eq (by omega), Option.bind_eq_bind, Option.bind_some]
  exact range_eq (BitRange.lowBits_inWord bits)

theorem width_eq (h : r.InWord) : width r = some r.width := by
  have ⟨hle, hlt⟩ := h
  rw [width, sub_eq hle, Option.bind_eq_bind, Option.bind_some, add_eq (by omega)]
  rfl

theorem ones_eq : ∀ count ≤ 32, 0 < count → ones count = some (BitVec.allOnes 32 >>> (32 - count)) := by
  decide

theorem mask_eq (h : r.InWord) : mask r = some r.mask := by
  have ⟨hle, hlt⟩ := h
  have hwidth : r.width = r.high - r.low + 1 := rfl
  rw [mask, width_eq h, Option.bind_eq_bind, Option.bind_some, ones_eq r.width (by omega) (by omega),
    Option.bind_eq_bind, Option.bind_some, shiftLeft_eq _ (by omega), BitRange.mask]

theorem place_eq (h : r.InWord) (v : Word) : place r v = some (r.place v) := by
  have ⟨hle, hlt⟩ := h
  rw [place, mask_eq h, Nat.mod_eq_of_lt (by omega)]
  rfl

theorem value_eq {b : Bits} (h : b.range.InWord) : value b = some b.value := by
  have ⟨hle, hlt⟩ := h
  rw [value, mask_eq h, Option.bind_eq_bind, Option.bind_some, shiftRight_eq _ (by omega), Bits.value]

/-! ## Shifts by a constant -/

def shift (n : Nat) (w : Word) : Direction → Option Word
  | .left => shiftLeft w n
  | .right => shiftRight w n

def move (n : Nat) (r : BitRange) : Direction → Option (Option BitRange)
  | .left => do
    let low ← add 8 r.low n
    if low > 31 then return none else return some (← range low (min (← add 8 r.high n) 31))
  | .right => do
    if r.high < n then return none else return some (← range (r.low - n) (← sub r.high n))

def vacated (n : Nat) : Direction → Option BitRange
  | .left => do range 0 (← sub n 1)
  | .right => do range (← sub 32 n) 31

variable {d : Direction}

theorem shift_eq (h : n < 32) (w : Word) (d : Direction) : shift n w d = some (d.shift n w) := by
  cases d with
  | left => exact shiftLeft_eq w h
  | right => exact shiftRight_eq w h

theorem move_eq (h : r.InWord) (hn : n < 32) (d : Direction) : move n r d = some (d.move? n r) := by
  have ⟨hle, hlt⟩ := h
  cases d with
  | left =>
    rw [move, add_eq (by omega), Option.bind_eq_bind, Option.bind_some, Direction.move?]
    split
    · rfl
    · have hmoved : BitRange.InWord ⟨r.low + n, min (r.high + n) 31⟩ := by
        simp only [BitRange.InWord]
        omega
      rw [add_eq (by omega), Option.bind_eq_bind, Option.bind_some, range_eq hmoved]
      rfl
  | right =>
    rw [move, Direction.move?]
    split
    · rfl
    · have hmoved : BitRange.InWord ⟨r.low - n, r.high - n⟩ := by
        simp only [BitRange.InWord]
        omega
      rw [sub_eq (by omega), Option.bind_eq_bind, Option.bind_some, range_eq hmoved]
      rfl

theorem vacated_eq (hn : n < 32) (h0 : n ≠ 0) (d : Direction) : vacated n d = some (d.vacated n) := by
  have hin := Direction.vacated_inWord (d := d) hn h0
  cases d with
  | left =>
    rw [vacated, sub_eq (by omega)]
    exact range_eq hin
  | right =>
    rw [vacated, sub_eq (by omega)]
    exact range_eq hin

/-! ## Bytes of a cell -/

def access (address : Word) (bytes : Nat) : ExceptT Fault Option AddressRange := do
  match Word.ofNat? (address.toNat + (← sub (max bytes 1) 1)) with
  | some last => return ⟨address, last⟩
  | none => throw (.addressWrap address bytes)

def size (r : AddressRange) : Option Nat := do add 32 (← sub r.last.toNat r.first.toNat) 1

def byteOnes (offset count : Nat) : Option Word :=
  (List.range' offset count).foldlM (fun ones byte => do return ones ||| (← shiftLeft 0xff (← mul 32 byte 8))) 0

def byteMask (cell access : AddressRange) : Option (Word × Word) := do
  let offset ← sub access.first.toNat cell.first.toNat
  let stop ← add 32 offset (← size access)
  let mask ← byteOnes offset (stop - offset)
  return (mask, BitVec.ofNat 32 (← mul 32 offset 8))

theorem access_eq (address : Word) (bytes : Nat) : (access address bytes).run = some (Memory.access address bytes) := by
  have hsub : sub (max bytes 1) 1 = some (max bytes 1 - 1) := sub_eq (by omega)
  rw [access, hsub, Memory.access, AddressRange.ofAccess?]
  show (match Word.ofNat? (address.toNat + (max bytes 1 - 1)) with
    | some last => pure ⟨address, last⟩
    | none => throw (.addressWrap address bytes) : ExceptT Fault Option AddressRange).run = _
  cases Word.ofNat? (address.toNat + (max bytes 1 - 1)) <;> rfl

theorem size_eq_count {r : AddressRange} (hle : r.first ≤ r.last) (hlt : r.last.toNat - r.first.toNat + 1 < 2 ^ 32) :
    r.size = r.last.toNat - r.first.toNat + 1 := by
  have hle := BitVec.le_def.mp hle
  have hlast := r.last.isLt
  have hone : (1 : Word).toNat = 1 := rfl
  simp only [AddressRange.size, BitVec.toNat_add, BitVec.toNat_sub, hone]
  omega

theorem size_eq {r : AddressRange} (hle : r.first ≤ r.last) (hlt : r.last.toNat - r.first.toNat + 1 < 2 ^ 32) :
    size r = some r.size := by
  rw [size, sub_eq (BitVec.le_def.mp hle), Option.bind_eq_bind, Option.bind_some, add_eq hlt, size_eq_count hle hlt]

theorem byteOnes_eq : ∀ offset < 4, ∀ count ≤ 4, offset + count ≤ 4 → 1 ≤ count →
    byteOnes offset count = some (BitRange.mask ⟨offset * 8, (offset + count) * 8 - 1⟩) := by
  decide

theorem byteMask_eq {cell access : AddressRange} (hc : cell.Small) (h : cell.contains access = true)
    (ha : access.first ≤ access.last) : byteMask cell access =
      some ((Memory.lane cell access).mask, BitVec.ofNat 32 (Memory.lane cell access).low) := by
  obtain ⟨hoffset, hle⟩ := hc.offset h ha
  have hsmall := hc.of_contains h ha
  have hpos := hsmall.size_pos
  have hsize := hc.size_le
  have hfirst : cell.first.toNat ≤ access.first.toNat := by
    have := AddressRange.contains_iff.mp h
    exact BitVec.le_def.mp this.1
  have hcount : size access = some access.size := size_eq ha (by have := hsmall.2; omega)
  have hlane : Memory.lane cell access = ⟨(access.first.toNat - cell.first.toNat) * 8,
      (access.first.toNat - cell.first.toNat + access.size) * 8 - 1⟩ := by
    rw [Memory.lane, hoffset]
  rw [byteMask, sub_eq hfirst, Option.bind_eq_bind, Option.bind_some, hcount, Option.bind_eq_bind, Option.bind_some,
    add_eq (by omega), Option.bind_some, Nat.add_sub_cancel_left,
    byteOnes_eq _ (by omega) _ (by omega) (by omega) hpos, Option.bind_some, mul_eq (by omega), hlane]
  rfl

/-- A longer cell has bytes that no shift of a word reaches. -/
example : byteMask ⟨0, 7⟩ ⟨5, 5⟩ = none := by decide

end Checked

end TraceReplay
