/-
  TraceReplay.Proofs.Digits — written numbers are read back.

  In any base a number is read back from its digits (`ofDigits?_toDigits`), with or without
  leading zeros (`ofDigits?_zeros`); so a word is read back from its eight hexadecimal digits
  (`ofDigits?_hex8`). No digit ends a word of a text (`isAlphanum_toDigits`).
-/

import Mathlib
import TraceReplay.Word

namespace TraceReplay

namespace Word

variable {base : Nat} {digit? : Char → Option Nat}

theorem ofDigits?_append (xs ys : List Char) :
    ofDigits? base digit? (xs ++ ys) =
      (ofDigits? base digit? xs).bind fun n => ys.foldlM (fun n c => (digit? c).map (n * base + ·)) n := by
  rw [ofDigits?, List.foldlM_append]
  rfl

/-- A number is read back from its digits in the same base. -/
theorem ofDigits?_toDigits (hbase : 1 < base) (hdigit : ∀ d < base, digit? d.digitChar = some d) (n : Nat) :
    ofDigits? base digit? (Nat.toDigits base n) = some n := by
  induction n using Nat.strongRecOn with
  | ind n ih =>
    rw [Nat.toDigits_eq_if hbase]
    split
    · rename_i hlt
      simp [ofDigits?, hdigit n hlt]
    · rename_i hge
      have hpos : 0 < n := by omega
      have hmod : n % base < base := Nat.mod_lt _ (by omega)
      rw [ofDigits?_append, ih _ (Nat.div_lt_self hpos hbase), Option.bind_some]
      simp [hdigit _ hmod, Nat.div_add_mod']

theorem ofDigits?_zeros (h0 : digit? '0' = some 0) (k : Nat) (digits : List Char) :
    ofDigits? base digit? (List.replicate k '0' ++ digits) = ofDigits? base digit? digits := by
  induction k with
  | zero => rfl
  | succ k ih =>
    rw [List.replicate_succ, List.cons_append, ← ih]
    simp [ofDigits?, List.foldlM_cons, h0]

theorem decimalDigit?_digitChar {d : Nat} (h : d < 10) : decimalDigit? d.digitChar = some d := by
  interval_cases d <;> rfl

theorem hexDigit?_digitChar {d : Nat} (h : d < 16) : hexDigit? d.digitChar = some d := by
  interval_cases d <;> rfl

theorem ofDigits?_decimal (n : Nat) : ofDigits? 10 decimalDigit? (Nat.toDigits 10 n) = some n :=
  ofDigits?_toDigits (by decide) (fun _ h => decimalDigit?_digitChar h) n

theorem ofDigits?_hex (n : Nat) : ofDigits? 16 hexDigit? (Nat.toDigits 16 n) = some n :=
  ofDigits?_toDigits (by decide) (fun _ h => hexDigit?_digitChar h) n

theorem isAlphanum_toDigits {n : Nat} (hbase : 1 < base) (h16 : base ≤ 16) {c : Char}
    (h : c ∈ Nat.toDigits base n) : c.isAlphanum = true := by
  induction n using Nat.strongRecOn with
  | ind n ih =>
    have digit {d : Nat} (hd : d < base) : d.digitChar.isAlphanum = true := by
      have : d < 16 := by omega
      interval_cases d <;> rfl
    rw [Nat.toDigits_eq_if hbase] at h
    split at h
    · rename_i hlt
      rw [List.mem_singleton.mp h]
      exact digit hlt
    · rename_i hge
      have hpos : 0 < n := by omega
      rcases List.mem_append.mp h with h | h
      · exact ih _ (Nat.div_lt_self hpos hbase) h
      · rw [List.mem_singleton.mp h]
        exact digit (Nat.mod_lt _ (by omega))

theorem length_toDigits_le (w : Word) : (Nat.toDigits 16 w.toNat).length ≤ 8 := by
  rw [Nat.length_toDigits_le_iff (by decide) (by decide)]
  exact w.isLt

theorem toList_hex8 (w : Word) :
    (hex8 w).toList = List.replicate (8 - (Nat.toDigits 16 w.toNat).length) '0' ++ Nat.toDigits 16 w.toNat := by
  simp [hex8]

theorem length_hex8 (w : Word) : (hex8 w).toList.length = 8 := by
  have := length_toDigits_le w
  rw [toList_hex8, List.length_append, List.length_replicate]
  omega

/-- All eight digits give the word back. -/
theorem ofDigits?_hex8 (w : Word) : ofDigits? 16 hexDigit? (hex8 w).toList = some w.toNat := by
  rw [toList_hex8, ofDigits?_zeros rfl, ofDigits?_hex]

theorem isAlphanum_hex8 {w : Word} {c : Char} (h : c ∈ (hex8 w).toList) : c.isAlphanum = true := by
  rw [toList_hex8] at h
  rcases List.mem_append.mp h with h | h
  · rw [List.eq_of_mem_replicate h]
    rfl
  · exact isAlphanum_toDigits (by decide) (by decide) h

end Word

end TraceReplay
