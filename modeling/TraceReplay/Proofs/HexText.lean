/-
  TraceReplay.Proofs.HexText — known bits and their hexadecimal text.

  The number of known bits is derived from the word that they are part of, and their text from the
  number. A text is read back as the number that it was written for (`Word.literal_hex`), and no text
  of a formula is read as a number but that of a constant (`Formula.literal_text_iff`): a digit starts
  none of the others.

  Proved (`known_bits_are_read_back_from_their_text`):
  - the text of known bits is read as their number, whose binary digits are the bits of the range and
    no others, so that it is less than two to the width;
  - in every table that is built from nothing, the text of a value is read as a literal with the same
    known word exactly if the value is a constant, in either style; the hexadecimal text of a concrete
    value whose word is known, constant or computed, is read back too;
  - an operand is built again from its text, as an immediate, exactly if it is one.
-/

import TraceReplay.Proofs.Construction
import TraceReplay.Proofs.Trace.Literals

namespace TraceReplay

namespace Word

/-- What is written for a word is a literal of it. -/
theorem hex_isLiteral (w : Word) : Literal [] (hex w) w := by
  refine ⟨'x', Nat.toDigits 16 w.toNat, .inl rfl, Nat.toDigits_ne_nil, ?_, ?_⟩
  · simp [hex, hexDigits]
  · exact ofDigits?_eq_some_iff.mp (ofDigits?_hex w.toNat)

theorem literal_eq_ok_iff {text : String} {w : Word} : literal text = .ok w ↔ ofHex? text = some w := by
  rw [literal]
  cases ofHex? text <;> simp

theorem literal_hex (w : Word) : literal (hex w) = .ok w :=
  literal_eq_ok_iff.mpr (ofHex?_eq_some_iff.mpr (.inl (hex_isLiteral w)))

theorem head?_of_literal {text : String} {w : Word} (h : literal text = .ok w) : text.toList.head? = some '0' := by
  rcases ofHex?_eq_some_iff.mp (literal_eq_ok_iff.mp h) with hplain | hsigned
  · obtain ⟨mark, digits, -, -, htext, -⟩ := hplain
    rw [htext, List.head?_cons]
  · obtain ⟨mark, digits, -, -, htext, -⟩ := hsigned
    rw [htext, List.head?_cons]

end Word

/-- The text of a formula is read as a word exactly if the formula is that constant. -/
theorem Formula.literal_text_iff {f : Formula} {style : Style} {w : Word} :
    Word.literal (f.text style) = .ok w ↔ f = .constant w := by
  constructor
  · intro h
    have hhead := Word.head?_of_literal h
    cases f with
    | constant value =>
      rw [text, Word.literal_hex] at h
      cases h
      rfl
    | symbol id width => simp [text, toString] at hhead
    | hybrid id parts => cases style <;> simp [text, toString] at hhead
    | operation opcode args => simp [text] at hhead
  · intro h
    rw [h, text]
    exact Word.literal_hex w

namespace Bits

/-- The binary digits of the number are the bits of the range, from the lowest up. -/
theorem toNat_value {b : Bits} (h : b.range.InWord) :
    b.value.toNat = Nat.ofBits fun i : Fin b.range.width => b.word.getLsbD (b.range.low + i) := by
  refine Nat.eq_of_testBit_eq fun k => ?_
  have hbit : b.value.toNat.testBit k = (decide (k < b.range.width) && b.word.getLsbD (b.range.low + k)) := by
    rw [value_eq_field h]
    exact BitRange.getLsbD_field h b.word k
  rw [hbit, Nat.testBit_ofBits]
  by_cases hk : k < b.range.width <;> simp [hk]

theorem value_lt {b : Bits} (h : b.range.InWord) : b.value.toNat < 2 ^ b.range.width := by
  rw [toNat_value h]
  exact Nat.ofBits_lt_two_pow _

end Bits

namespace Table

variable {t : Table} {id : ValueId} {v : Value} {text : String} {w : Word}

/-- The word of the value is known, and the text, taken for a literal, gives a value with that word. -/
def ReadsBack (t : Table) (id : ValueId) (text : String) : Prop :=
  ∃ w, t.known id = some w ∧ ∃ build, Build.literal text = .ok build ∧ (build t).2.known (build t).1 = some w

theorem known_constant (t : Table) (w : Word) : (Build.constant w t).2.known (Build.constant w t).1 = some w := by
  have hget : (Build.constant w t).2.get? (Build.constant w t).1 = some _ := t.get?_push_self _
  rw [known_of_get? hget, Bits.value_word]

theorem readsBack_iff : t.ReadsBack id text ↔ ∃ w, t.known id = some w ∧ Word.literal text = .ok w := by
  refine exists_congr fun w => and_congr_right fun _ => ?_
  rw [Build.literal]
  cases hl : Word.literal text with
  | error fault => simp
  | ok x => simp [known_constant]

theorem formula_eq_constant_iff (hv : t.get? id = some v) :
    t.formula id = .constant w ↔ ∃ bits, v.node = .constant bits ∧ bits.value = w := by
  rw [formula, interpret_eq _ hv, Interpretation.value]
  cases v.node <;> simp [Formula.syntactic]

theorem WellFormed.known_of_constant (ht : t.WellFormed) (hv : t.get? id = some v) {bits : Bits}
    (hn : v.node = .constant bits) : t.known id = some bits.value := by
  rw [ht.known_eq hv, hn, Node.known]

/-- Of all values, constants are those whose text is read back. -/
theorem WellFormed.readsBack_text_iff (ht : t.WellFormed) (hv : t.get? id = some v) (style : Style) :
    t.ReadsBack id ((t.formula id).text style) ↔ ∃ bits, v.node = .constant bits := by
  simp only [readsBack_iff, Formula.literal_text_iff, formula_eq_constant_iff hv]
  constructor
  · intro h
    obtain ⟨w, -, bits, hn, -⟩ := h
    exact ⟨bits, hn⟩
  · intro h
    obtain ⟨bits, hn⟩ := h
    exact ⟨bits.value, ht.known_of_constant hv hn, bits, hn, rfl⟩

/-- Known words are read back from their own text, however they came about. -/
theorem WellFormed.readsBack_hex? (ht : t.WellFormed) (hv : t.get? id = some v) (hw : t.concrete? id = some w) :
    ∃ text, v.hex? = some text ∧ t.ReadsBack id text := by
  rw [concrete?, hv, Option.bind_some] at hw
  split at hw
  · rename_i hkind
    have hknown : t.known id = some w := (known_of_get? hv).trans hw
    refine ⟨Word.hex w, ?_, readsBack_iff.mpr ⟨w, hknown, Word.literal_hex w⟩⟩
    cases hn : v.node with
    | constant bits =>
      have hvalue : bits.value = w := Option.some.inj ((ht.known_of_constant hv hn).symm.trans hknown)
      simp [Value.hex?, hn, Bits.hex, hvalue]
    | operation opcode operands => simp [Value.hex?, hn, hw]
    | symbol => simp [Value.kind, hn] at hkind
    | hybrid pieces => simp [Value.kind, hn] at hkind
  · cases hw

end Table

theorem Operand.checkedImmediate_text_iff (o : Operand) :
    checkedImmediate o.text = .ok o ↔ o.isImmediate = true := by
  have immediate_of_ok {literal : String} (h : checkedImmediate literal = .ok o) : o.isImmediate = true := by
    rw [checkedImmediate] at h
    cases hl : Word.literal literal with
    | error fault => rw [hl] at h; cases h
    | ok w => rw [hl] at h; cases h; rfl
  refine ⟨immediate_of_ok, fun h => ?_⟩
  cases o with
  | immediate value =>
    rw [checkedImmediate, text, Word.literal_hex]
    rfl
  | register name bits => cases h
  | memory access => cases h

namespace Table

/-- The text of known bits is read as their number, which consists of the bits of their range. So
    constants, and they alone, are read back from their text, known words from their hexadecimal text,
    and immediates from theirs. -/
theorem known_bits_are_read_back_from_their_text :
    (∀ b : Bits, b.range.low ≤ b.range.high → b.range.high ≤ 31 →
      Word.literal b.hex = .ok b.value ∧
      b.value.toNat = Nat.ofBits (fun i : Fin b.range.width => b.word.getLsbD (b.range.low + i)) ∧
      b.value.toNat < 2 ^ b.range.width) ∧
    (∀ cs, empty.Admits cs → ∀ id v, (empty.construct cs).get? id = some v →
      (∀ style, (empty.construct cs).ReadsBack id (((empty.construct cs).formula id).text style) ↔
        ∃ bits, v.node = .constant bits) ∧
      ∀ w, (empty.construct cs).concrete? id = some w →
        ∃ text, v.hex? = some text ∧ (empty.construct cs).ReadsBack id text) ∧
    ∀ o : Operand, Operand.checkedImmediate o.text = .ok o ↔ o.isImmediate = true := by
  refine ⟨fun b hle hhigh => ?_, fun cs h id v hv => ?_, Operand.checkedImmediate_text_iff⟩
  · have hin : b.range.InWord := ⟨hle, by omega⟩
    exact ⟨Word.literal_hex b.value, Bits.toNat_value hin, Bits.value_lt hin⟩
  · have ht := construct_wellFormed wellFormed_empty h
    exact ⟨fun style => ht.readsBack_text_iff hv style, fun w hw => ht.readsBack_hex? hv hw⟩

def knownParts : List Construction :=
  [.bits ⟨0xaabbcc08, ⟨16, 31⟩⟩, .bits ⟨0xaabbcc08, ⟨3, 3⟩⟩, .binary .add 0 1]

/-- Parts of a word are read back from their text; their sum is known, and read back from its
    hexadecimal text, but not from that of the operation. -/
theorem a_sum_is_not_read_back_from_its_formula :
    empty.Admits knownParts ∧ Word.literal "0xaabb" = .ok 0xaabb ∧
    (empty.construct knownParts).ReadsBack 0 "0xaabb" ∧ (empty.construct knownParts).ReadsBack 1 "0x1" ∧
    (empty.construct knownParts).ReadsBack 2 "0xaabc" ∧
    ¬ (empty.construct knownParts).ReadsBack 2 "(add 0xaabb 0x1)" ∧
    Operand.checkedImmediate "0xaabbcc08" = .ok (.immediate 0xaabbcc08) := by
  obtain ⟨hbits, htable, hoperand⟩ := known_bits_are_read_back_from_their_text
  have hadmits : empty.Admits knownParts := ⟨by decide, by decide, by decide, trivial⟩
  obtain ⟨hhalf, -⟩ := htable knownParts hadmits 0 _ rfl
  obtain ⟨hbit, -⟩ := htable knownParts hadmits 1 _ rfl
  obtain ⟨hformula, hsum⟩ := htable knownParts hadmits 2 _ rfl
  obtain ⟨text, htext, hreads⟩ := hsum 0xaabc (by decide)
  refine ⟨hadmits, (hbits ⟨0xaabbcc08, ⟨16, 31⟩⟩ (by decide) (by decide)).1, (hhalf .plain).mpr ⟨_, rfl⟩,
    (hbit .detailed).mpr ⟨_, rfl⟩, ?_, ?_, (hoperand (.immediate 0xaabbcc08)).mpr rfl⟩
  · cases htext
    exact hreads
  · intro h
    obtain ⟨bits, hn⟩ := (hformula .plain).mp h
    cases hn

end Table

end TraceReplay
