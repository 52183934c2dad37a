/-
  TraceReplay.Proofs.Trace.Literals — which texts are hexadecimal literals, and of which word.

  A literal is `0x` or `0X` and one or more of the digits `0`-`9`, `a`-`f`, `A`-`F`, in any number, whose
  value in base 16 is a word (`Word.Literal []`). The reader takes exactly these, leading zeros of any
  length included, and one more kind of text: it also takes a plus sign between the mark and the digits
  (`Word.Literal ['+']`), which is no part of a literal. Everything else is refused, and the fault
  carries the text.

  Proved, of every text (`a_literal_is_exact_but_for_a_plus_sign`): what is read, what is refused, and
  that the plus sign is the only difference between what is read and the literals.
-/

import TraceReplay.Proofs.Digits
import TraceReplay.Trace.Operand

namespace TraceReplay

namespace Word

/-! ## Digits and numbers -/

def IsHexDigit (c : Char) (d : Nat) : Prop := d < 16 ∧ (c = d.digitChar ∨ c = d.digitChar.toUpper)

def Spells (digits : List Char) (n : Nat) : Prop :=
  ∃ ds, List.Forall₂ IsHexDigit digits ds ∧ Nat.ofDigits 16 ds.reverse = n

/-- The text is `0x` or `0X`, then the given sign, then one or more digits whose value is the word. -/
def Literal (sign : List Char) (text : String) (w : Word) : Prop :=
  ∃ mark digits, (mark = 'x' ∨ mark = 'X') ∧ digits ≠ [] ∧ text.toList = '0' :: mark :: (sign ++ digits) ∧
    Spells digits w.toNat

theorem hexDigit?_eq_some_iff {c : Char} {d : Nat} : hexDigit? c = some d ↔ IsHexDigit c d := by
  constructor
  · intro h
    -- a character is its code, and each range of codes is short
    have hcode : Char.ofNat c.toNat = c := Char.ofNat_toNat c
    unfold hexDigit? at h
    simp only [Char.le_def, UInt32.le_iff_toNat_le] at h
    change (if 48 ≤ c.toNat ∧ c.toNat ≤ 57 then some (c.toNat - 48)
      else if 97 ≤ c.toNat ∧ c.toNat ≤ 102 then some (c.toNat - 97 + 10)
      else if 65 ≤ c.toNat ∧ c.toNat ≤ 70 then some (c.toNat - 65 + 10) else none) = some d at h
    generalize c.toNat = n at h hcode
    subst hcode
    split at h
    · rename_i hn
      obtain ⟨hlow, hhigh⟩ := hn
      cases h
      interval_cases n <;> exact ⟨by decide, .inl rfl⟩
    · split at h
      · rename_i hn
        obtain ⟨hlow, hhigh⟩ := hn
        cases h
        interval_cases n <;> exact ⟨by decide, .inl rfl⟩
      · split at h
        · rename_i hn
          obtain ⟨hlow, hhigh⟩ := hn
          cases h
          interval_cases n <;> exact ⟨by decide, .inr rfl⟩
        · cases h
  · rintro ⟨hd, rfl | rfl⟩
    · exact hexDigit?_digitChar hd
    · interval_cases d <;> rfl

/-- Digits that are read one by one, behind those of `n`. -/
theorem foldlM_digits_eq_some_iff {base n m : Nat} {digit? : Char → Option Nat} {cs : List Char} :
    cs.foldlM (fun n c => (digit? c).map (n * base + ·)) n = some m ↔
      ∃ ds, List.Forall₂ (fun c d => digit? c = some d) cs ds ∧
        n * base ^ ds.length + Nat.ofDigits base ds.reverse = m := by
  induction cs generalizing n with
  | nil => simp
  | cons c cs ih =>
    have value (d : Nat) (ds : List Nat) : (n * base + d) * base ^ ds.length + Nat.ofDigits base ds.reverse =
        n * base ^ (d :: ds).length + Nat.ofDigits base (d :: ds).reverse := by
      rw [List.reverse_cons, Nat.ofDigits_append, Nat.ofDigits_singleton, List.length_reverse, List.length_cons]
      ring
    rw [List.foldlM_cons]
    constructor
    · intro h
      obtain ⟨k, hk, hrest⟩ := Option.bind_eq_some_iff.mp h
      obtain ⟨d, hd, rfl⟩ := Option.map_eq_some_iff.mp hk
      obtain ⟨ds, hds, rfl⟩ := ih.mp hrest
      exact ⟨d :: ds, .cons hd hds, (value d ds).symm⟩
    · rintro ⟨_, hds, rfl⟩
      obtain _ | ⟨hd, hds⟩ := hds
      refine Option.bind_eq_some_iff.mpr ⟨_, Option.map_eq_some_iff.mpr ⟨_, hd, rfl⟩, ?_⟩
      exact ih.mpr ⟨_, hds, value _ _⟩

theorem ofDigits?_eq_some_iff {digits : List Char} {n : Nat} :
    ofDigits? 16 hexDigit? digits = some n ↔ Spells digits n := by
  simp only [ofDigits?, foldlM_digits_eq_some_iff, hexDigit?_eq_some_iff, Nat.zero_mul, Nat.zero_add, Spells]

theorem ofNat?_eq_some_iff {n : Nat} {w : Word} : ofNat? n = some w ↔ n = w.toNat := by
  unfold ofNat?
  constructor
  · intro h
    split at h
    · rename_i hlt
      cases h
      rw [BitVec.toNat_ofNat, Nat.mod_eq_of_lt hlt]
    · cases h
  · rintro rfl
    rw [if_pos w.isLt, BitVec.ofNat_toNat, BitVec.setWidth_eq]

theorem not_spells_plus {digits : List Char} {n : Nat} : ¬ Spells ('+' :: digits) n := by
  rintro ⟨_, hds, -⟩
  obtain _ | ⟨hplus, -⟩ := hds
  cases hexDigit?_eq_some_iff.mpr hplus

/-- What is read behind the mark: digits, with or without a plus sign. -/
theorem unsigned?_eq_some_iff {cs : List Char} {w : Word} :
    unsigned? 16 hexDigit? cs = some w ↔
      ∃ sign digits, (sign = [] ∨ sign = ['+']) ∧ digits ≠ [] ∧ cs = sign ++ digits ∧ Spells digits w.toNat := by
  have signed (digits : List Char) :
      unsigned? 16 hexDigit? ('+' :: digits) = some w ↔ digits ≠ [] ∧ Spells digits w.toNat := by
    cases digits with
    | nil => simp [unsigned?]
    | cons c rest => simp [unsigned?, Option.bind_eq_some_iff, ofDigits?_eq_some_iff, ofNat?_eq_some_iff]
  have bare (h : ∀ digits, cs ≠ '+' :: digits) :
      unsigned? 16 hexDigit? cs = some w ↔ cs ≠ [] ∧ Spells cs w.toNat := by
    cases cs with
    | nil => simp [unsigned?]
    | cons c rest => simp [unsigned?, Option.bind_eq_some_iff, ofDigits?_eq_some_iff, ofNat?_eq_some_iff]
  by_cases hplus : ∃ digits, cs = '+' :: digits
  · obtain ⟨digits, rfl⟩ := hplus
    rw [signed]
    constructor
    · rintro ⟨hne, hspells⟩
      exact ⟨['+'], digits, .inr rfl, hne, rfl, hspells⟩
    · rintro ⟨_, rest, rfl | rfl, hne, heq, hspells⟩
      · rw [List.nil_append] at heq
        exact absurd (heq ▸ hspells) not_spells_plus
      · cases heq
        exact ⟨hne, hspells⟩
  · rw [bare (not_exists.mp hplus)]
    constructor
    · rintro ⟨hne, hspells⟩
      exact ⟨[], cs, .inl rfl, hne, rfl, hspells⟩
    · rintro ⟨_, rest, rfl | rfl, hne, heq, hspells⟩
      · rw [List.nil_append] at heq
        exact heq ▸ ⟨hne, hspells⟩
      · exact absurd ⟨rest, heq⟩ hplus

/-! ## Literals -/

theorem ofHex?_eq_some_iff {text : String} {w : Word} :
    ofHex? text = some w ↔ Literal [] text w ∨ Literal ['+'] text w := by
  have marked {mark : Char} {cs : List Char} (hmark : mark = 'x' ∨ mark = 'X')
      (htext : text.toList = '0' :: mark :: cs) :
      unsigned? 16 hexDigit? cs = some w ↔ Literal [] text w ∨ Literal ['+'] text w := by
    rw [unsigned?_eq_some_iff]
    constructor
    · rintro ⟨_, digits, rfl | rfl, hne, heq, hspells⟩
      · exact .inl ⟨mark, digits, hmark, hne, heq ▸ htext, hspells⟩
      · exact .inr ⟨mark, digits, hmark, hne, heq ▸ htext, hspells⟩
    · rintro (⟨_, digits, -, hne, heq, hspells⟩ | ⟨_, digits, -, hne, heq, hspells⟩)
      · cases htext.symm.trans heq
        exact ⟨[], digits, .inl rfl, hne, rfl, hspells⟩
      · cases htext.symm.trans heq
        exact ⟨['+'], digits, .inr rfl, hne, rfl, hspells⟩
  unfold ofHex?
  split
  · rename_i digits htext
    exact marked (.inl rfl) htext
  · rename_i digits htext
    exact marked (.inr rfl) htext
  · rename_i hx hX
    -- without a mark the text is no literal, signed or not
    have unmarked (sign : List Char) : ¬ Literal sign text w := by
      rintro ⟨_, digits, rfl | rfl, -, htext, -⟩
      · exact hx _ htext
      · exact hX _ htext
    simp [unmarked]

/-- A text is read as a word exactly if it is a literal of that word, or would be without a plus sign
    behind the mark. Any other text is refused with a fault that carries it. So what is read are the
    literals, exactly if the text is none with a plus sign. -/
theorem a_literal_is_exact_but_for_a_plus_sign (text : String) :
    (∀ w, literal text = .ok w ↔ Literal [] text w ∨ Literal ['+'] text w) ∧
    (∀ fault, literal text = .error fault ↔
      fault = .notHex text ∧ ∀ w, ¬ Literal [] text w ∧ ¬ Literal ['+'] text w) ∧
    ((∀ w, literal text = .ok w ↔ Literal [] text w) ↔ ∀ w, ¬ Literal ['+'] text w) := by
  have read (w : Word) : literal text = .ok w ↔ Literal [] text w ∨ Literal ['+'] text w := by
    rw [← ofHex?_eq_some_iff, literal]
    cases ofHex? text <;> simp
  have exclusive {w : Word} (hsigned : Literal ['+'] text w) (hplain : Literal [] text w) : False := by
    obtain ⟨_, digits, -, -, htext, -⟩ := hsigned
    obtain ⟨_, digits', -, -, htext', hspells⟩ := hplain
    cases htext.symm.trans htext'
    exact not_spells_plus hspells
  refine ⟨read, fun fault => ?_, ?_⟩
  · simp only [← not_or, ← ofHex?_eq_some_iff, literal]
    cases ofHex? text <;> simp [eq_comm]
  · constructor
    · intro hexact w hsigned
      exact exclusive hsigned ((hexact w).mp ((read w).mpr (.inr hsigned)))
    · intro hunsigned w
      rw [read]
      exact or_iff_left (hunsigned w)

/-- A plus sign is taken, so not only literals are read. -/
theorem a_plus_sign_is_read_too :
    literal "0x+5" = .ok 5 ∧ ¬ ∀ w, (literal "0x+5" = .ok w ↔ Literal [] "0x+5" w) := by
  have hsigned : Literal ['+'] "0x+5" 5 :=
    ⟨'x', ['5'], .inl rfl, by decide, rfl, [5], .cons ⟨by decide, .inl rfl⟩ .nil, rfl⟩
  obtain ⟨hread, -, hexact⟩ := a_literal_is_exact_but_for_a_plus_sign "0x+5"
  exact ⟨(hread 5).mpr (.inr hsigned), fun h => hexact.mp h 5 hsigned⟩

end Word

end TraceReplay
