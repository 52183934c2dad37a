/-
  TraceReplay.Proofs.Solver.Semantics — what the solver's language means.

  A term denotes a bit string, given one for each of its names (`Term.value`): sums, differences
  and products are taken modulo 2^32, a left shift by a number appends zeros, a shift by a term
  moves zeros in and leaves nothing once the count reaches the width. `HasWidth` is the typing of
  terms, under the widths of the names; a well-typed term denotes a string of its width
  (`HasWidth.value_width`).

  A script declares names, asserts equations and asks for others. It is valid if every equation
  that it asks for holds wherever the widths and equations before it do (`Script.Valid`).
-/

import Mathlib
import TraceReplay.Solver.Term

namespace TraceReplay

namespace Solver

abbrev BitString := (n : Nat) × BitVec n

namespace BitString

/-- An operation on words; an operand of another width is cut or filled up. -/
def onWords (f : Word → Word → Word) (x y : BitString) : BitString := ⟨32, f (x.2.setWidth 32) (y.2.setWidth 32)⟩

def onBits (f : {n : Nat} → BitVec n → BitVec n → BitVec n) (x y : BitString) : BitString :=
  ⟨x.1, f x.2 (y.2.setWidth x.1)⟩

def onBits₁ (f : {n : Nat} → BitVec n → BitVec n) (x : BitString) : BitString := ⟨x.1, f x.2⟩

def appendZeros (x : BitString) (k : Nat) : BitString := ⟨x.1 + k, x.2 ++ 0#k⟩

def extract (x : BitString) (high low : Nat) : BitString := ⟨high - low + 1, x.2.extractLsb high low⟩

def union : List BitString → BitString
  | [] => ⟨0, 0⟩
  | [x] => x
  | x :: rest => onBits (· ||| ·) x (union rest)

theorem onWords_word (f : Word → Word → Word) (x y : Word) : onWords f ⟨32, x⟩ ⟨32, y⟩ = ⟨32, f x y⟩ := by
  simp [onWords]

theorem onBits_same (f : {n : Nat} → BitVec n → BitVec n → BitVec n) {n : Nat} (x y : BitVec n) :
    onBits f ⟨n, x⟩ ⟨n, y⟩ = ⟨n, f x y⟩ := by
  simp [onBits]

theorem union_width {xs : List BitString} {n : Nat} (hne : xs ≠ []) (h : ∀ x ∈ xs, x.1 = n) : (union xs).1 = n := by
  match xs with
  | [] => exact absurd rfl hne
  | [x] => exact h x (List.mem_singleton.mpr rfl)
  | x :: _ :: _ => exact h x List.mem_cons_self

end BitString

/-! ## Terms -/

namespace Term

variable {ν μ : Type}

mutual

def value (ρ : ν → BitString) : Term ν → BitString
  | symbol name => ρ name
  | constant w => ⟨32, w⟩
  | plus a b => .onWords (· + ·) (a.value ρ) (b.value ρ)
  | minus a b => .onWords (· - ·) (a.value ρ) (b.value ρ)
  | times a b => .onWords (· * ·) (a.value ρ) (b.value ρ)
  | xor a b => .onBits (· ^^^ ·) (a.value ρ) (b.value ρ)
  | and a b => .onBits (· &&& ·) (a.value ρ) (b.value ρ)
  | or parts => .union (values ρ parts)
  | negate a => (a.value ρ).onBits₁ (- ·)
  | appendZeros a count => (a.value ρ).appendZeros count
  | extract a high low => (a.value ρ).extract high low
  | shiftRight a count => (a.value ρ).onBits₁ (· >>> count)
  | shiftLeftBy a count => (a.value ρ).onBits₁ (· <<< (count.value ρ).2.toNat)
  | shiftRightBy a count => (a.value ρ).onBits₁ (· >>> (count.value ρ).2.toNat)

def values (ρ : ν → BitString) : List (Term ν) → List BitString
  | [] => []
  | part :: rest => part.value ρ :: values ρ rest

end

mutual

def map (f : ν → μ) : Term ν → Term μ
  | symbol name => symbol (f name)
  | constant w => constant w
  | plus a b => plus (a.map f) (b.map f)
  | minus a b => minus (a.map f) (b.map f)
  | times a b => times (a.map f) (b.map f)
  | xor a b => xor (a.map f) (b.map f)
  | and a b => and (a.map f) (b.map f)
  | or parts => or (mapParts f parts)
  | negate a => negate (a.map f)
  | appendZeros a count => appendZeros (a.map f) count
  | extract a high low => extract (a.map f) high low
  | shiftRight a count => shiftRight (a.map f) count
  | shiftLeftBy a count => shiftLeftBy (a.map f) (count.map f)
  | shiftRightBy a count => shiftRightBy (a.map f) (count.map f)

def mapParts (f : ν → μ) : List (Term ν) → List (Term μ)
  | [] => []
  | part :: rest => part.map f :: mapParts f rest

end

theorem values_eq (ρ : ν → BitString) (parts : List (Term ν)) : values ρ parts = parts.map (value ρ) := by
  induction parts with
  | nil => rw [values]; rfl
  | cons part rest ih => rw [values, ih]; rfl

theorem mapParts_eq (f : ν → μ) (parts : List (Term ν)) : mapParts f parts = parts.map (map f) := by
  induction parts with
  | nil => rw [mapParts]; rfl
  | cons part rest ih => rw [mapParts, ih]; rfl

inductive HasWidth (Γ : List (ν × Nat)) : Term ν → Nat → Prop
  | symbol {x : ν} {n : Nat} : (x, n) ∈ Γ → HasWidth Γ (symbol x) n
  | constant (w : Word) : HasWidth Γ (constant w) 32
  | plus {a b : Term ν} : HasWidth Γ a 32 → HasWidth Γ b 32 → HasWidth Γ (plus a b) 32
  | minus {a b : Term ν} : HasWidth Γ a 32 → HasWidth Γ b 32 → HasWidth Γ (minus a b) 32
  | times {a b : Term ν} : HasWidth Γ a 32 → HasWidth Γ b 32 → HasWidth Γ (times a b) 32
  | xor {a b : Term ν} {n : Nat} : HasWidth Γ a n → HasWidth Γ b n → HasWidth Γ (xor a b) n
  | and {a b : Term ν} {n : Nat} : HasWidth Γ a n → HasWidth Γ b n → HasWidth Γ (and a b) n
  | or {parts : List (Term ν)} {n : Nat} : parts ≠ [] → (∀ p ∈ parts, HasWidth Γ p n) → HasWidth Γ (or parts) n
  | negate {a : Term ν} {n : Nat} : HasWidth Γ a n → HasWidth Γ (negate a) n
  | appendZeros {a : Term ν} {n : Nat} (k : Nat) : HasWidth Γ a n → HasWidth Γ (appendZeros a k) (n + k)
  | extract {a : Term ν} {n high low : Nat} : HasWidth Γ a n → low ≤ high → high < n →
      HasWidth Γ (extract a high low) (high - low + 1)
  | shiftRight {a : Term ν} {n : Nat} (k : Nat) : HasWidth Γ a n → HasWidth Γ (shiftRight a k) n
  | shiftLeftBy {a count : Term ν} {n : Nat} : HasWidth Γ a n → HasWidth Γ count n →
      HasWidth Γ (shiftLeftBy a count) n
  | shiftRightBy {a count : Term ν} {n : Nat} : HasWidth Γ a n → HasWidth Γ count n →
      HasWidth Γ (shiftRightBy a count) n

namespace HasWidth

variable {Γ Δ : List (ν × Nat)} {t : Term ν} {n : Nat}

theorem mono (h : t.HasWidth Γ n) (hΓ : Γ ⊆ Δ) : t.HasWidth Δ n := by
  induction h with
  | symbol hx => exact .symbol (hΓ hx)
  | constant w => exact .constant w
  | plus _ _ iha ihb => exact .plus iha ihb
  | minus _ _ iha ihb => exact .minus iha ihb
  | times _ _ iha ihb => exact .times iha ihb
  | xor _ _ iha ihb => exact .xor iha ihb
  | and _ _ iha ihb => exact .and iha ihb
  | or hne _ ih => exact .or hne ih
  | negate _ ih => exact .negate ih
  | appendZeros k _ ih => exact .appendZeros k ih
  | extract _ hl hh ih => exact .extract ih hl hh
  | shiftRight k _ ih => exact .shiftRight k ih
  | shiftLeftBy _ _ iha ihc => exact .shiftLeftBy iha ihc
  | shiftRightBy _ _ iha ihc => exact .shiftRightBy iha ihc

theorem map (h : t.HasWidth Γ n) (f : ν → μ) : (t.map f).HasWidth (Γ.map fun e => (f e.1, e.2)) n := by
  induction h with
  | symbol hx => exact .symbol (List.mem_map.mpr ⟨_, hx, rfl⟩)
  | constant w => exact .constant w
  | plus _ _ iha ihb => exact .plus iha ihb
  | minus _ _ iha ihb => exact .minus iha ihb
  | times _ _ iha ihb => exact .times iha ihb
  | xor _ _ iha ihb => exact .xor iha ihb
  | and _ _ iha ihb => exact .and iha ihb
  | or hne _ ih =>
    rw [Term.map, mapParts_eq]
    refine .or (mt List.map_eq_nil_iff.mp hne) fun p hp => ?_
    obtain ⟨part, hpart, rfl⟩ := List.mem_map.mp hp
    exact ih part hpart
  | negate _ ih => exact .negate ih
  | appendZeros k _ ih => exact .appendZeros k ih
  | extract _ hl hh ih => exact .extract ih hl hh
  | shiftRight k _ ih => exact .shiftRight k ih
  | shiftLeftBy _ _ iha ihc => exact .shiftLeftBy iha ihc
  | shiftRightBy _ _ iha ihc => exact .shiftRightBy iha ihc

/-- A well-typed term denotes a string of its width. -/
theorem value_width (h : t.HasWidth Γ n) {ρ : ν → BitString} (hρ : ∀ e ∈ Γ, (ρ e.1).1 = e.2) :
    (t.value ρ).1 = n := by
  induction h with
  | symbol hx => exact hρ _ hx
  | constant w => rfl
  | plus | minus | times => rfl
  | xor _ _ iha _ => exact iha
  | and _ _ iha _ => exact iha
  | or hne _ ih =>
    rw [value, values_eq]
    refine BitString.union_width (mt List.map_eq_nil_iff.mp hne) fun x hx => ?_
    obtain ⟨part, hpart, rfl⟩ := List.mem_map.mp hx
    exact ih part hpart
  | negate _ ih => exact ih
  | appendZeros k _ ih => exact congrArg (· + k) ih
  | extract => rfl
  | shiftRight k _ ih => exact ih
  | shiftLeftBy _ _ iha _ => exact iha
  | shiftRightBy _ _ iha _ => exact iha

/-- Renamed, a term denotes the same if the new names stand for what the old ones do. -/
theorem value_map (h : t.HasWidth Γ n) {f : ν → μ} {ρ : μ → BitString} {ρ' : ν → BitString}
    (hρ : ∀ e ∈ Γ, ρ (f e.1) = ρ' e.1) : (t.map f).value ρ = t.value ρ' := by
  induction h with
  | symbol hx => exact hρ _ hx
  | constant w => rfl
  | plus _ _ iha ihb => simp only [Term.map, value, iha, ihb]
  | minus _ _ iha ihb => simp only [Term.map, value, iha, ihb]
  | times _ _ iha ihb => simp only [Term.map, value, iha, ihb]
  | xor _ _ iha ihb => simp only [Term.map, value, iha, ihb]
  | and _ _ iha ihb => simp only [Term.map, value, iha, ihb]
  | or _ _ ih =>
    simp only [Term.map, value, mapParts_eq, values_eq, List.map_map]
    exact congrArg BitString.union (List.map_congr_left ih)
  | negate _ ih => simp only [Term.map, value, ih]
  | appendZeros k _ ih => simp only [Term.map, value, ih]
  | extract _ _ _ ih => simp only [Term.map, value, ih]
  | shiftRight k _ ih => simp only [Term.map, value, ih]
  | shiftLeftBy _ _ iha ihc => rw [Term.map, value, iha, ihc, value]
  | shiftRightBy _ _ iha ihc => rw [Term.map, value, iha, ihc, value]

end HasWidth

end Term

/-! ## Scripts -/

inductive Command where
  | declare (name : String) (width : Nat)
  | assert (a b : Term String)
  | query (a b : Term String)
  | counterexample

abbrev Environment := String → BitString

namespace Command

/-- What the command adds to the facts that hold from there on. -/
def Assumes (ρ : Environment) : Command → Prop
  | declare x n => (ρ x).1 = n
  | assert a b => a.value ρ = b.value ρ
  | query _ _ => True
  | counterexample => True

/-- What the command asks, where the facts so far are `P`. -/
def Asks (P : Environment → Prop) : Command → Prop
  | query a b => ∀ ρ, P ρ → a.value ρ = b.value ρ
  | _ => True

end Command

abbrev Script := List Command

namespace Script

def declarations : Script → List (String × Nat)
  | [] => []
  | .declare x n :: rest => (x, n) :: declarations rest
  | _ :: rest => declarations rest

/-- Every name is declared once and before its use, and the sides of an equation have one width. -/
inductive WellTyped : List (String × Nat) → Script → Prop
  | nil (Γ : List (String × Nat)) : WellTyped Γ []
  | declare {Γ : List (String × Nat)} {x : String} {n : Nat} {rest : Script} : x ∉ Γ.map (·.1) →
      WellTyped (Γ ++ [(x, n)]) rest → WellTyped Γ (.declare x n :: rest)
  | assert {Γ : List (String × Nat)} {a b : Term String} {n : Nat} {rest : Script} : a.HasWidth Γ n →
      b.HasWidth Γ n → WellTyped Γ rest → WellTyped Γ (.assert a b :: rest)
  | query {Γ : List (String × Nat)} {a b : Term String} {n : Nat} {rest : Script} : a.HasWidth Γ n →
      b.HasWidth Γ n → WellTyped Γ rest → WellTyped Γ (.query a b :: rest)
  | counterexample {Γ : List (String × Nat)} {rest : Script} : WellTyped Γ rest →
      WellTyped Γ (.counterexample :: rest)

/-- The queries hold in every environment that satisfies `P` and what stands before them. -/
def ValidUnder (P : Environment → Prop) : Script → Prop
  | [] => True
  | c :: rest => c.Asks P ∧ ValidUnder (fun ρ => P ρ ∧ c.Assumes ρ) rest

def Valid (s : Script) : Prop := s.ValidUnder fun _ => True

end Script

end Solver

end TraceReplay
