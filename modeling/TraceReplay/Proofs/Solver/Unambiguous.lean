/-
  TraceReplay.Proofs.Solver.Unambiguous — what a text says of a value.

  A text is read as one term, and no two symbols are spelled alike, so the text of a value gives
  its term back (`solverTerm_eq_of_text`). The term does not say how the value was built: a narrow
  symbol and a masked one have the same term, and so have a hybrid word and the union of its
  masked pieces. But it says what the value means. Read with counts taken modulo 32
  (`Term.word`), it has the word of the value (`ofFormula_word`); and the inputs of the value are
  the names that it needs (`ofFormula_inputs`), since what is left out of it, a known count, has
  none.

  Proved, of any two values in any two well-formed tables (`equal_texts_have_equal_meanings`): if
  their texts are equal, so are their terms, their inputs, and what evaluation gives under every
  binding, the faults included.
-/

import TraceReplay.Proofs.Solver.Agreement

namespace TraceReplay

namespace Solver.Term

/-! ## Names -/

section

variable {ν μ : Type} {Γ : List (ν × Nat)} {t : Term ν} {n : Nat}

/-- Renamed back, a term is what it was. -/
theorem HasWidth.map_map (h : t.HasWidth Γ n) {f : ν → μ} {g : μ → ν} (hg : Function.LeftInverse g f) :
    (t.map f).map g = t := by
  induction h with
  | symbol _ => simp only [Term.map, hg _]
  | constant w => rfl
  | plus _ _ iha ihb | minus _ _ iha ihb | times _ _ iha ihb => simp only [Term.map, iha, ihb]
  | xor _ _ iha ihb | and _ _ iha ihb => simp only [Term.map, iha, ihb]
  | or _ _ ih =>
    simp only [Term.map, mapParts_eq, List.map_map, or.injEq]
    exact (List.map_congr_left ih).trans (List.map_id _)
  | negate _ ih | appendZeros _ _ ih | extract _ _ _ ih | shiftRight _ _ ih => simp only [Term.map, ih]
  | shiftLeftBy _ _ iha ihc | shiftRightBy _ _ iha ihc => simp only [Term.map, iha, ihc]

end

/-! ## Words -/

mutual

/-- The word of a term whose counts are taken modulo 32. -/
def word (σ : Assignment) : Term ValueId → Word
  | symbol s => σ s
  | constant w => w
  | plus a b => a.word σ + b.word σ
  | minus a b => a.word σ - b.word σ
  | times a b => a.word σ * b.word σ
  | xor a b => a.word σ ^^^ b.word σ
  | and a b => a.word σ &&& b.word σ
  | or parts => unionWord σ parts
  | negate a => -a.word σ
  | appendZeros a count => a.word σ <<< count
  | extract a high low => BitRange.field ⟨low, high⟩ (a.word σ)
  | shiftRight a count => a.word σ >>> count
  | shiftLeftBy a count => a.word σ <<< Opcode.shiftCount (count.word σ)
  | shiftRightBy a count => a.word σ >>> Opcode.shiftCount (count.word σ)

def unionWord (σ : Assignment) : List (Term ValueId) → Word
  | [] => 0
  | part :: rest => part.word σ ||| unionWord σ rest

end

variable {σ : Assignment} {Γ : List (ValueId × Nat)} {f : Formula} {t : Term ValueId} {n : Nat} {opcode : Opcode}
  {count : Option Word} {args : List (Term ValueId)}

theorem unionWord_eq (parts : List (Term ValueId)) : unionWord σ parts = (parts.map (word σ)).foldl (· ||| ·) 0 := by
  rw [List.foldl_eq_foldr]
  induction parts with
  | nil => rw [unionWord]; rfl
  | cons part rest ih => rw [unionWord, ih]; rfl

theorem word_ofSymbol (id width : Nat) : (ofSymbol id width).word σ = σ id &&& (BitRange.lowBits width).mask := by
  rw [ofSymbol]
  split
  · simp only [word]
  · rename_i hwidth
    rw [and_mask_lowBits hwidth, word]

theorem word_ofPart (r : BitRange) (t : Term ValueId) : (ofPart r t).word σ = r.place (t.word σ) := by
  simp only [ofPart, word, mul_and_mask]

/-- The term of an operation has the result of the operation on the words of its operands. -/
theorem apply_words (h : ofOperation? opcode count args = some t)
    (hcount : ∀ k, count = some k → (args.map (word σ))[1]? = some k) :
    opcode.apply (args.map (word σ)) = some (t.word σ) := by
  unfold ofOperation? at h
  split at h
  case h_11 => cases h
  case h_7 =>
    split at h
    · -- the shifted word, cut to all of its bits
      cases h
      cases hcount _ rfl
      rw [word, word]
      exact congrArg some (BitRange.field_word _).symm
    · cases h
      simp only [List.map_cons, List.map_nil, Opcode.apply, word]
  case h_8 =>
    split at h
    · cases h
      cases hcount _ rfl
      simp only [List.map_cons, List.map_nil, Opcode.apply, word]
    · cases h
      simp only [List.map_cons, List.map_nil, Opcode.apply, word]
  case h_6 =>
    cases h
    simp [Opcode.apply, word, unionWord]
  all_goals
    cases h
    simp only [List.map_cons, List.map_nil, Opcode.apply, word]

theorem map_eq_words {α : Type} {R : α → Term ValueId → Prop} {e : α → Except Opcode Word} {l : List α}
    {terms : List (Term ValueId)} (h : List.Forall₂ R l terms)
    (he : ∀ a ∈ l, ∀ t, R a t → e a = .ok (t.word σ)) : l.map e = (terms.map (word σ)).map .ok := by
  induction h with
  | nil => rfl
  | cons hR _ ih =>
    simp only [List.map_cons, he _ List.mem_cons_self _ hR, ih fun a ha => he a (List.mem_cons_of_mem _ ha)]

/-- The term of a formula has the word that the formula evaluates to. -/
theorem ofFormula_word (h : ofFormula f = .ok t) : f.eval σ = .ok (t.word σ) := by
  induction f using Formula.structural generalizing t with
  | symbol id width =>
    rw [ofFormula] at h
    cases h
    rw [word_ofSymbol]
    rfl
  | constant value =>
    rw [ofFormula] at h
    cases h
    rw [word]
    rfl
  | hybrid id parts ih =>
    obtain ⟨terms, rfl, hterms⟩ := ofFormula_hybrid_inv h
    rw [word, unionWord_eq]
    refine Formula.eval_hybrid_of_placed (map_eq_words hterms fun p hp u hu => ?_)
    obtain ⟨part, hpart, rfl⟩ := hu
    rw [ih p hp hpart, word_ofPart]
    rfl
  | operation opcode args ih =>
    obtain ⟨terms, hterms, hop⟩ := ofFormula_operation_inv h
    have hargs : args.map (Formula.eval σ) = (terms.map (word σ)).map .ok :=
      map_eq_words hterms fun a ha u hu => ih a ha hu
    rw [Formula.eval_operation]
    exact Rules.standard.evaluation_operation σ hargs
      (apply_words hop fun k hk => Formula.count_of_known? hargs hk)

/-! ## Inputs -/

/-- The operands of an operation are parts of its term, except for a known count. -/
theorem operands_haveWidth (h : ofOperation? opcode count args = some t) (hw : t.HasWidth Γ n) :
    (∀ a ∈ args, ∃ m, a.HasWidth Γ m) ∨ ∃ a b m k, args = [a, b] ∧ a.HasWidth Γ m ∧ count = some k := by
  have both {a b : Term ValueId} {m m' : Nat} (ha : a.HasWidth Γ m) (hb : b.HasWidth Γ m') :
      ∀ c ∈ [a, b], ∃ m, c.HasWidth Γ m := by
    intro c hc
    rcases List.mem_pair.mp hc with rfl | rfl
    · exact ⟨m, ha⟩
    · exact ⟨m', hb⟩
  have single {a : Term ValueId} {m : Nat} (ha : a.HasWidth Γ m) : ∀ c ∈ [a], ∃ m, c.HasWidth Γ m := by
    intro c hc
    cases List.mem_singleton.mp hc
    exact ⟨m, ha⟩
  unfold ofOperation? at h
  split at h
  case h_11 => cases h
  case h_1 => cases h; cases hw with | plus ha hb => exact .inl (both ha hb)
  case h_2 => cases h; cases hw with | minus ha hb => exact .inl (both ha hb)
  case h_3 => cases h; cases hw with | times ha hb => exact .inl (both ha hb)
  case h_4 => cases h; cases hw with | xor ha hb => exact .inl (both ha hb)
  case h_5 => cases h; cases hw with | and ha hb => exact .inl (both ha hb)
  case h_6 => cases h; cases hw with | or _ hparts => exact .inl fun c hc => ⟨n, hparts c hc⟩
  case h_7 =>
    split at h
    · cases h
      cases hw with
      | extract hzeros _ _ => cases hzeros with
        | appendZeros _ ha => exact .inr ⟨_, _, _, _, rfl, ha, rfl⟩
    · cases h; cases hw with | shiftLeftBy ha hb => exact .inl (both ha hb)
  case h_8 =>
    split at h
    · cases h; cases hw with | shiftRight _ ha => exact .inr ⟨_, _, _, _, rfl, ha, rfl⟩
    · cases h; cases hw with | shiftRightBy ha hb => exact .inl (both ha hb)
  case h_9 => cases h; cases hw with | negate ha => exact .inl (single ha)
  case h_10 => cases h; cases hw with | plus ha _ => exact .inl (single ha)

/-- Whatever gives widths to the names of the term gives one to every input of the formula. -/
theorem ofFormula_inputs (h : ofFormula f = .ok t) (hw : t.HasWidth Γ n) {s : ValueId} (hs : s ∈ f.inputs) :
    ∃ m, (s, m) ∈ Γ := by
  induction f using Formula.structural generalizing t n with
  | symbol id width =>
    rw [ofFormula] at h
    cases h
    cases Formula.mem_inputs_symbol.mp hs
    rw [ofSymbol] at hw
    split at hw
    · cases hw with
      | and ha _ => cases ha with
        | symbol hx => exact ⟨_, hx⟩
    · cases hw with
      | symbol hx => exact ⟨_, hx⟩
  | constant value => cases hs
  | hybrid id parts ih =>
    obtain ⟨terms, rfl, hterms⟩ := ofFormula_hybrid_inv h
    obtain ⟨p, hp, hs⟩ := Formula.mem_inputs_hybrid.mp hs
    obtain ⟨u, hu, part, hpart, rfl⟩ := exists_of_forall₂ hterms.flip hp
    cases hw with
    | or _ hparts =>
      cases hparts _ hu with
      | and hplaced _ =>
        cases hplaced with
        | times hwidth _ => exact ih p hp hpart hwidth hs
  | operation opcode args ih =>
    obtain ⟨terms, hterms, hop⟩ := ofFormula_operation_inv h
    obtain ⟨a, ha, hsa⟩ := Formula.mem_inputs_operation.mp hs
    rcases operands_haveWidth hop hw with hall | ⟨u, v, m, k, rfl, hwidth, hk⟩
    · obtain ⟨u, hu, hterm⟩ := exists_of_forall₂ hterms.flip ha
      obtain ⟨m, hwidth⟩ := hall u hu
      exact ih a ha hterm hwidth hsa
    · -- the other operand is known, so it has no inputs
      cases hterms with
      | cons hx hrest =>
        cases hrest with
        | cons hy hnil =>
          cases hnil
          rcases List.mem_pair.mp ha with rfl | rfl
          · exact ih _ ha hx hwidth hsa
          · exact absurd hsa (Formula.not_mem_inputs_of_known? hk s)

end Solver.Term

/-! ## Texts -/

namespace Table

open Solver (Term symbolText)

variable {t₁ t₂ : Table} {id₁ id₂ : ValueId} {text : String} {term : Term ValueId}

/-- The text of a value gives its term back. -/
theorem solverTerm_eq_of_text (ht₁ : t₁.WellFormed) (ht₂ : t₂.WellFormed) (h₁ : t₁.solverText id₁ = .ok text)
    (h₂ : t₂.solverText id₂ = .ok text) : ∃ term, t₁.solverTerm id₁ = .ok term ∧ t₂.solverTerm id₂ = .ok term := by
  obtain ⟨term₁, hterm₁, hread₁⟩ := ht₁.readTerm_solverText h₁
  obtain ⟨term₂, hterm₂, hread₂⟩ := ht₂.readTerm_solverText h₂
  have hinj : Function.Injective (symbolText "") := fun s s' hs =>
    (Solver.symbolText_inj Solver.isSide_plain Solver.isSide_plain hs).2
  have hback := Function.leftInverse_invFun hinj
  have hspelled : term₁.map (symbolText "") = term₂.map (symbolText "") := Option.some.inj (hread₁.symm.trans hread₂)
  have hterms : term₁ = term₂ := by
    rw [← (ht₁.solverTerm_hasWidth hterm₁).map_map hback, hspelled, (ht₂.solverTerm_hasWidth hterm₂).map_map hback]
  exact ⟨term₁, hterm₁, hterms ▸ hterm₂⟩

theorem eval_of_solverTerm (h : t₁.solverTerm id₁ = .ok term) (σ : Assignment) :
    t₁.eval σ id₁ = .ok (term.word σ) := by
  rw [← eval_formula]
  exact Term.ofFormula_word (solverTerm_eq_ok h)

theorem inputs_subset_of_solverTerm (ht₂ : t₂.WellFormed) (h₁ : t₁.solverTerm id₁ = .ok term)
    (h₂ : t₂.solverTerm id₂ = .ok term) : t₁.inputs id₁ ⊆ t₂.inputs id₂ := by
  intro s hs
  rw [← inputs_formula] at hs
  obtain ⟨m, hm⟩ := Term.ofFormula_inputs (solverTerm_eq_ok h₁) (ht₂.solverTerm_hasWidth h₂) hs
  obtain ⟨s', hs', heq⟩ := List.mem_map.mp hm
  cases heq
  exact hs'

/-- Values whose texts are equal have the same term and the same inputs, and evaluate alike under
    every binding. -/
theorem equal_texts_have_equal_meanings (ht₁ : t₁.WellFormed) (ht₂ : t₂.WellFormed)
    (h₁ : t₁.solverText id₁ = .ok text) (h₂ : t₂.solverText id₂ = .ok text) :
    t₁.solverTerm id₁ = t₂.solverTerm id₂ ∧ t₁.inputs id₁ = t₂.inputs id₂ ∧
      ∀ b, t₁.evaluate id₁ b = t₂.evaluate id₂ b := by
  obtain ⟨term, hterm₁, hterm₂⟩ := solverTerm_eq_of_text ht₁ ht₂ h₁ h₂
  have hinputs : t₁.inputs id₁ = t₂.inputs id₂ := by
    refine (t₁.pairwise_inputs id₁).eq_of_mem_iff (t₂.pairwise_inputs id₂) fun s => ⟨fun hs => ?_, fun hs => ?_⟩
    · exact inputs_subset_of_solverTerm ht₂ hterm₁ hterm₂ hs
    · exact inputs_subset_of_solverTerm ht₁ hterm₂ hterm₁ hs
  refine ⟨hterm₁.trans hterm₂.symm, hinputs, fun b => ?_⟩
  rw [evaluate, evaluate, hinputs, eval_of_solverTerm hterm₁, eval_of_solverTerm hterm₂]

def halfWord : Table := empty.construct
  [.symbol 16, .bits ⟨0x12340000, ⟨16, 31⟩⟩, .hybrid (.ofList [(⟨0, 15⟩, 0), (⟨16, 31⟩, 1)])]

def halfUnion : Table := empty.construct
  [.symbol 32, .constant 0xffff, .binary .and 0 1, .constant 1, .binary .imul 2 3, .binary .and 4 1,
    .constant 0x1234, .constant 0x10000, .binary .imul 6 7, .constant 0xffff0000, .binary .and 8 9, .binary .or 5 10]

/-- A hybrid word and a union have the same text, so they evaluate alike, whether their one input is
    bound or not. -/
theorem a_hybrid_word_reads_as_a_union : ∃ text, halfWord.solverText 2 = .ok text ∧
    halfUnion.solverText 11 = .ok text ∧ halfWord.evaluate 2 (.ofList [(0, 0xabcd5678)]) = .ok 0x12345678 ∧
    halfUnion.evaluate 11 (.ofList [(0, 0xabcd5678)]) = .ok 0x12345678 ∧
    halfUnion.evaluate 11 (.ofList []) = .error (.bindingMismatch 1 0) := by
  have hword : halfWord.WellFormed := construct_wellFormed wellFormed_empty ⟨by decide, by decide, by decide, trivial⟩
  have hunion : halfUnion.WellFormed := construct_wellFormed wellFormed_empty
    ⟨by decide, by decide, by decide, by decide, by decide, by decide, by decide, by decide, by decide, by decide,
      by decide, by decide, trivial⟩
  have htext : halfWord.solverText 2 = .ok ("((BVMULT(32, (sym0 & 0hex0000ffff), 0hex00000001) & 0hex0000ffff) | " ++
      "(BVMULT(32, 0hex00001234, 0hex00010000) & 0hexffff0000))") := eq_ok_of_toOption (by decide +kernel)
  have htext' : halfUnion.solverText 11 = .ok ("((BVMULT(32, (sym0 & 0hex0000ffff), 0hex00000001) & 0hex0000ffff) | " ++
      "(BVMULT(32, 0hex00001234, 0hex00010000) & 0hexffff0000))") := eq_ok_of_toOption (by decide +kernel)
  obtain ⟨-, -, hevaluate⟩ := equal_texts_have_equal_meanings hword hunion htext htext'
  have heval : halfWord.evaluate 2 (.ofList [(0, 0xabcd5678)]) = .ok 0x12345678 := by cbv
  exact ⟨_, htext, htext', heval, (hevaluate _).symm.trans heval, (hevaluate _).symm.trans (by cbv)⟩

end Table

end TraceReplay
