/-
  TraceReplay.Proofs.Solver.Translation — the term of a formula denotes the formula's word.

  The term of a formula is a word over the formula's inputs (`ofFormula_hasWidth`), and denotes
  what the formula evaluates to (`ofFormula_value`). The parts of a hybrid word, each multiplied up
  to its place and cut, make up the word; a left shift appends zeros and the result is cut back to
  a word; and a narrow symbol is cut to its own bits on both sides.

  One operation is not followed exactly. Where the count of a shift is not known, the term leaves
  the count to the solver, which does not take it modulo 32 (`DenotesResult`). So the result is
  for formulas in which such counts are below 32 (`CountsFit`).
-/

import TraceReplay.Proofs.Formulas
import TraceReplay.Proofs.Solver.Reader

namespace TraceReplay

namespace Solver

/-! ## Words as bit strings -/

def words (σ : Assignment) : ValueId → BitString := fun s => ⟨32, σ s⟩

theorem BitString.union_words {ws : List Word} (hne : ws ≠ []) :
    union (ws.map fun w => ⟨32, w⟩) = ⟨32, ws.foldr (· ||| ·) 0⟩ := by
  induction ws with
  | nil => exact absurd rfl hne
  | cons w ws ih =>
    cases ws with
    | nil => simp [union]
    | cons w' ws =>
      have hrest := ih (List.cons_ne_nil w' ws)
      rw [List.map_cons] at hrest
      rw [List.map_cons, List.map_cons, union, hrest, onBits_same]
      · rfl
      · exact List.cons_ne_nil _ _

namespace Term

variable {Γ : List (ValueId × Nat)} {ρ : ValueId → BitString} {σ : Assignment} {t : Term ValueId} {w : Word}

theorem ofSymbol_hasWidth {id width : Nat} (h : (id, 32) ∈ Γ) : (ofSymbol id width).HasWidth Γ 32 := by
  rw [ofSymbol]
  split
  · exact .and (.symbol h) (.constant _)
  · exact .symbol h

/-- A symbol that is as wide as a word is not cut. -/
theorem and_mask_lowBits {width : Nat} (h : ¬ width < 32) (w : Word) : w &&& (BitRange.lowBits width).mask = w := by
  have hhigh : min (max width 1) 32 - 1 = 31 := by omega
  have hmask : (BitRange.lowBits width).mask = BitVec.allOnes 32 := by
    rw [BitRange.lowBits, hhigh]
    decide
  rw [hmask, BitVec.and_allOnes]

theorem ofSymbol_value (id width : Nat) :
    (ofSymbol id width).value (words σ) = ⟨32, σ id &&& (BitRange.lowBits width).mask⟩ := by
  rw [ofSymbol]
  split
  · exact BitString.onBits_same _ _ _
  · rename_i hwidth
    rw [and_mask_lowBits hwidth]
    rfl

theorem ofPart_hasWidth (r : BitRange) (h : t.HasWidth Γ 32) : (ofPart r t).HasWidth Γ 32 :=
  .and (.times h (.constant _)) (.constant _)

/-- A product with a power of two moves a piece up to its place. -/
theorem mul_and_mask (r : BitRange) (w : Word) : w * (1 <<< r.low) &&& r.mask = r.place w := by
  have hshift : w * (1 <<< r.low) = w <<< r.low := by
    rw [BitVec.shiftLeft_eq_mul_twoPow]
    rfl
  rw [hshift]
  rfl

theorem ofPart_value (r : BitRange) (h : t.value ρ = ⟨32, w⟩) : (ofPart r t).value ρ = ⟨32, r.place w⟩ := by
  simp only [ofPart, value, h, BitString.onWords_word, BitString.onBits_same, mul_and_mask]

end Term

/-! ## Operations -/

def Overshifts (opcode : Opcode) (count : Option Word) (ws : List Word) : Prop :=
  (opcode = .shl ∨ opcode = .shr) ∧ count = none ∧ ∃ c, ws[1]? = some c ∧ 32 ≤ c.toNat

namespace Term

variable {Γ : List (ValueId × Nat)} {ρ : ValueId → BitString} {opcode : Opcode} {count : Option Word}
  {args : List (Term ValueId)} {t : Term ValueId} {ws : List Word}

theorem ofOperation?_hasWidth (h : ofOperation? opcode count args = some t)
    (hargs : ∀ a ∈ args, a.HasWidth Γ 32) : t.HasWidth Γ 32 := by
  unfold ofOperation? at h
  split at h
  case h_11 => cases h
  all_goals simp only [List.forall_mem_cons, List.not_mem_nil, false_implies, implies_true, and_true] at hargs
  case h_1 => cases h; exact .plus hargs.1 hargs.2
  case h_2 => cases h; exact .minus hargs.1 hargs.2
  case h_3 => cases h; exact .times hargs.1 hargs.2
  case h_4 => cases h; exact .xor hargs.1 hargs.2
  case h_5 => cases h; exact .and hargs.1 hargs.2
  case h_6 =>
    cases h
    refine .or (List.cons_ne_nil _ _) ?_
    simpa using hargs
  case h_7 =>
    split at h
    · cases h
      exact .extract (.appendZeros _ hargs.1) (by decide) (by omega)
    · cases h
      exact .shiftLeftBy hargs.1 hargs.2
  case h_8 =>
    split at h
    · cases h
      exact .shiftRight _ hargs.1
    · cases h
      exact .shiftRightBy hargs.1 hargs.2
  case h_9 => cases h; exact .negate hargs
  case h_10 => cases h; exact .plus hargs (.constant 1)

theorem map_value_pair {a b : Term ValueId} (h : [a, b].map (value ρ) = ws.map fun w => ⟨32, w⟩) :
    ∃ x y, ws = [x, y] ∧ a.value ρ = ⟨32, x⟩ ∧ b.value ρ = ⟨32, y⟩ := by
  match ws with
  | [x, y] =>
    simp only [List.map_cons, List.map_nil, List.cons.injEq, and_true] at h
    exact ⟨x, y, rfl, h.1, h.2⟩
  | [] => simp at h
  | [_] => simp at h
  | _ :: _ :: _ :: _ => simp at h

theorem map_value_single {a : Term ValueId} (h : [a].map (value ρ) = ws.map fun w => ⟨32, w⟩) :
    ∃ x, ws = [x] ∧ a.value ρ = ⟨32, x⟩ := by
  match ws with
  | [x] =>
    simp only [List.map_cons, List.map_nil, List.cons.injEq, and_true] at h
    exact ⟨x, rfl, h⟩
  | [] => simp at h
  | _ :: _ :: _ => simp at h

/-- A widened left shift, cut back to a word, is a shift of the word. -/
theorem extract_appendZeros_value {a : Term ValueId} {x : Word} (ha : a.value ρ = ⟨32, x⟩) (k : Nat) :
    (extract (appendZeros a k) 31 0).value ρ = ⟨32, x <<< k⟩ := by
  have hbits : (x ++ 0#k).extractLsb 31 0 = x <<< k := by
    apply BitVec.eq_of_getLsbD_eq
    intro i hi
    simp only [BitVec.getLsbD_extractLsb, BitVec.getLsbD_append, BitVec.getLsbD_shiftLeft, BitVec.getLsbD_zero]
    grind
  rw [value, value, ha]
  exact congrArg (Sigma.mk 32) hbits

/-- The term denotes the result of the operation, but nothing is left of a shift beyond the word. -/
def DenotesResult (ρ : ValueId → BitString) (t : Term ValueId) (opcode : Opcode) (count : Option Word)
    (ws : List Word) : Prop :=
  ∃ w, opcode.apply ws = some w ∧ (¬ Overshifts opcode count ws → t.value ρ = ⟨32, w⟩) ∧
    (Overshifts opcode count ws → t.value ρ = ⟨32, 0⟩)

theorem denotesResult_of_not_overshifts {w : Word} (hw : opcode.apply ws = some w)
    (ho : ¬ Overshifts opcode count ws) (hv : t.value ρ = ⟨32, w⟩) : DenotesResult ρ t opcode count ws :=
  ⟨w, hw, fun _ => hv, fun h => absurd h ho⟩

theorem not_overshifts_of_ne (hl : opcode ≠ .shl) (hr : opcode ≠ .shr) : ¬ Overshifts opcode count ws :=
  fun h => h.1.elim hl hr

theorem not_overshifts_of_known (k : Word) : ¬ Overshifts opcode (some k) ws := fun h => nomatch h.2.1

theorem overshifts_iff {x c : Word} (hop : opcode = .shl ∨ opcode = .shr) :
    Overshifts opcode none [x, c] ↔ 32 ≤ c.toNat := by
  simp [Overshifts, hop]

theorem denotesResult_shiftLeftBy {a b : Term ValueId} {x c : Word} (ha : a.value ρ = ⟨32, x⟩)
    (hb : b.value ρ = ⟨32, c⟩) : DenotesResult ρ (shiftLeftBy a b) .shl none [x, c] := by
  have hv : (shiftLeftBy a b).value ρ = ⟨32, x <<< c.toNat⟩ := by rw [value, ha, hb]; rfl
  refine ⟨_, rfl, fun ho => ?_, fun ho => ?_⟩
  · have hc : c.toNat < 32 := by simpa [overshifts_iff] using ho
    rw [hv, Opcode.shiftCount, Nat.mod_eq_of_lt hc]
  · rw [hv, BitVec.shiftLeft_eq_zero ((overshifts_iff (.inl rfl)).mp ho)]
    rfl

theorem denotesResult_shiftRightBy {a b : Term ValueId} {x c : Word} (ha : a.value ρ = ⟨32, x⟩)
    (hb : b.value ρ = ⟨32, c⟩) : DenotesResult ρ (shiftRightBy a b) .shr none [x, c] := by
  have hv : (shiftRightBy a b).value ρ = ⟨32, x >>> c.toNat⟩ := by rw [value, ha, hb]; rfl
  refine ⟨_, rfl, fun ho => ?_, fun ho => ?_⟩
  · have hc : c.toNat < 32 := by simpa [overshifts_iff] using ho
    rw [hv, Opcode.shiftCount, Nat.mod_eq_of_lt hc]
  · rw [hv, BitVec.ushiftRight_eq_zero ((overshifts_iff (.inr rfl)).mp ho)]
    rfl

theorem ofOperation?_denotes (h : ofOperation? opcode count args = some t)
    (hargs : args.map (value ρ) = ws.map fun w => ⟨32, w⟩) (hcount : ∀ k, count = some k → ws[1]? = some k) :
    DenotesResult ρ t opcode count ws := by
  -- One case for each rule: the seventh and eighth are the shifts, the next two take one operand.
  unfold ofOperation? at h
  split at h
  case h_11 => cases h
  case h_9 =>
    obtain ⟨x, rfl, hx⟩ := map_value_single hargs
    cases h
    refine denotesResult_of_not_overshifts rfl (not_overshifts_of_ne (by decide) (by decide)) ?_
    rw [value, hx]
    rfl
  case h_10 =>
    obtain ⟨x, rfl, hx⟩ := map_value_single hargs
    cases h
    refine denotesResult_of_not_overshifts rfl (not_overshifts_of_ne (by decide) (by decide)) ?_
    simp only [value, hx, BitString.onWords_word]
  all_goals obtain ⟨x, y, rfl, hx, hy⟩ := map_value_pair hargs
  case h_7 =>
    split at h
    · cases h
      cases hcount _ rfl
      exact denotesResult_of_not_overshifts rfl (not_overshifts_of_known _) (extract_appendZeros_value hx _)
    · cases h
      exact denotesResult_shiftLeftBy hx hy
  case h_8 =>
    split at h
    · cases h
      cases hcount _ rfl
      refine denotesResult_of_not_overshifts rfl (not_overshifts_of_known _) ?_
      rw [value, hx]
      rfl
    · cases h
      exact denotesResult_shiftRightBy hx hy
  all_goals
    cases h
    refine denotesResult_of_not_overshifts rfl (not_overshifts_of_ne (by decide) (by decide)) ?_
    simp only [value, values, hx, hy, BitString.union, BitString.onWords_word, BitString.onBits_same]

end Term

end Solver

/-! ## Formulas -/

namespace Formula

def PartsGiven (f : Formula) : Prop := ∀ id parts, (hybrid id parts).Within f → parts ≠ []

def CountsFit (σ : Assignment) (f : Formula) : Prop :=
  ∀ opcode args ws, (operation opcode args).Within f → args.map (eval σ) = ws.map .ok →
    ¬ Solver.Overshifts opcode (args[1]?.bind known?) ws

theorem PartsGiven.part {id : ValueId} {parts : List (BitRange × Formula)} (h : (hybrid id parts).PartsGiven)
    {p : BitRange × Formula} (hp : p ∈ parts) : p.2.PartsGiven := fun id' parts' hw => h id' parts' (.part hp hw)

theorem PartsGiven.arg {opcode : Opcode} {args : List Formula} (h : (operation opcode args).PartsGiven)
    {a : Formula} (ha : a ∈ args) : a.PartsGiven := fun id parts hw => h id parts (.arg ha hw)

theorem CountsFit.part {σ : Assignment} {id : ValueId} {parts : List (BitRange × Formula)}
    (h : (hybrid id parts).CountsFit σ) {p : BitRange × Formula} (hp : p ∈ parts) : p.2.CountsFit σ :=
  fun opcode args ws hw => h opcode args ws (.part hp hw)

theorem CountsFit.arg {σ : Assignment} {opcode : Opcode} {args : List Formula}
    (h : (operation opcode args).CountsFit σ) {a : Formula} (ha : a ∈ args) : a.CountsFit σ :=
  fun opcode' args' ws hw => h opcode' args' ws (.arg ha hw)

theorem eval_hybrid_of_placed {σ : Assignment} {id : ValueId} {parts : List (BitRange × Formula)} {ws : List Word}
    (h : (parts.map fun p => (p.2.eval σ).map p.1.place) = ws.map .ok) :
    (hybrid id parts).eval σ = .ok (ws.foldl (· ||| ·) 0) := by
  rw [eval_hybrid]
  generalize (0 : Word) = acc
  induction parts generalizing ws acc with
  | nil =>
    cases ws with
    | nil => rfl
    | cons w ws => cases h
  | cons p parts ih =>
    cases ws with
    | nil => cases h
    | cons w ws =>
      obtain ⟨hp, hparts⟩ := List.cons.inj h
      replace hp : (p.2.eval σ).map p.1.place = .ok w := hp
      cases he : p.2.eval σ with
      | error e => rw [he] at hp; cases hp
      | ok x =>
        rw [he] at hp
        cases hp
        rw [List.map_cons, List.foldlM_cons, he]
        exact ih hparts _

/-- A count that is known is the word that evaluation gives it. -/
theorem count_of_known? {σ : Assignment} {args : List Formula} {ws : List Word} {k : Word}
    (hws : args.map (eval σ) = ws.map .ok) (h : args[1]?.bind known? = some k) : ws[1]? = some k := by
  obtain ⟨count, hcount, hknown⟩ := Option.bind_eq_some_iff.mp h
  have hmap : (args.map (eval σ))[1]? = some (.ok k) := by
    rw [List.getElem?_map, hcount, Option.map_some, eval_of_known? hknown]
  rw [hws, List.getElem?_map] at hmap
  obtain ⟨w, hw, hwk⟩ := Option.map_eq_some_iff.mp hmap
  rw [hw, Except.ok.inj hwk]

end Formula

namespace Solver.Term

variable {σ : Assignment} {ρ : ValueId → BitString} {opcode : Opcode} {t : Term ValueId} {f : Formula}

theorem ofParts_inv {parts : List (BitRange × Formula)} {terms : List (Term ValueId)}
    (h : ofParts parts = .ok terms) :
    List.Forall₂ (fun p t => ∃ part, ofFormula p.2 = .ok part ∧ t = ofPart p.1 part) parts terms := by
  induction parts generalizing terms with
  | nil => rw [ofParts] at h; cases h; exact .nil
  | cons p parts ih =>
    rw [ofParts] at h
    split at h
    · cases h
    · rename_i part hpart
      cases hrest : ofParts parts with
      | error e => rw [hrest] at h; cases h
      | ok rest =>
        rw [hrest] at h
        cases h
        exact .cons ⟨part, hpart, rfl⟩ (ih hrest)

theorem ofArgs_inv {args : List Formula} {terms : List (Term ValueId)} (h : ofArgs args = .ok terms) :
    List.Forall₂ (fun a t => ofFormula a = .ok t) args terms := by
  induction args generalizing terms with
  | nil => rw [ofArgs] at h; cases h; exact .nil
  | cons a args ih =>
    rw [ofArgs] at h
    split at h
    · cases h
    · rename_i term hterm
      cases hrest : ofArgs args with
      | error e => rw [hrest] at h; cases h
      | ok rest =>
        rw [hrest] at h
        cases h
        exact .cons hterm (ih hrest)

theorem ofFormula_hybrid_inv {id : ValueId} {parts : List (BitRange × Formula)}
    (h : ofFormula (.hybrid id parts) = .ok t) : ∃ terms, t = .or terms ∧
      List.Forall₂ (fun p t => ∃ part, ofFormula p.2 = .ok part ∧ t = ofPart p.1 part) parts terms := by
  rw [ofFormula] at h
  cases hparts : ofParts parts with
  | error e => rw [hparts] at h; cases h
  | ok terms =>
    rw [hparts] at h
    cases h
    exact ⟨terms, rfl, ofParts_inv hparts⟩

theorem ofFormula_operation_inv {args : List Formula} (h : ofFormula (.operation opcode args) = .ok t) :
    ∃ terms, List.Forall₂ (fun a t => ofFormula a = .ok t) args terms ∧
      ofOperation? opcode (args[1]?.bind Formula.known?) terms = some t := by
  rw [ofFormula] at h
  split at h
  · cases h
  · rename_i terms hterms
    split at h
    · rename_i hop
      cases h
      exact ⟨terms, ofArgs_inv hterms, hop⟩
    · cases h

theorem exists_words {α : Type} {R : α → Term ValueId → Prop} {e : α → Except Opcode Word} {l : List α}
    {terms : List (Term ValueId)} (h : List.Forall₂ R l terms)
    (he : ∀ a ∈ l, ∀ t, R a t → ∃ w, e a = .ok w ∧ t.value ρ = ⟨32, w⟩) :
    ∃ ws : List Word, l.map e = ws.map .ok ∧ terms.map (value ρ) = ws.map fun w => ⟨32, w⟩ := by
  induction h with
  | nil => exact ⟨[], rfl, rfl⟩
  | cons hR _ ih =>
    obtain ⟨w, hw, hv⟩ := he _ List.mem_cons_self _ hR
    obtain ⟨ws, hws, hvs⟩ := ih fun a ha => he a (List.mem_cons_of_mem _ ha)
    exact ⟨w :: ws, by rw [List.map_cons, List.map_cons, hw, hws], by rw [List.map_cons, List.map_cons, hv, hvs]⟩

theorem exists_of_forall₂ {α β : Type} {R : α → β → Prop} {l : List α} {l' : List β} (h : List.Forall₂ R l l')
    {b : β} (hb : b ∈ l') : ∃ a ∈ l, R a b := by
  induction h with
  | nil => cases hb
  | cons hR _ ih =>
    rcases List.mem_cons.mp hb with rfl | hb
    · exact ⟨_, List.mem_cons_self, hR⟩
    · obtain ⟨a, ha, hR'⟩ := ih hb
      exact ⟨a, List.mem_cons_of_mem _ ha, hR'⟩

/-- The term of a formula is a word over the inputs of the formula. -/
theorem ofFormula_hasWidth (h : ofFormula f = .ok t) (hf : f.PartsGiven) :
    t.HasWidth (f.inputs.map (·, 32)) 32 := by
  induction f using Formula.structural generalizing t with
  | symbol id width =>
    rw [ofFormula] at h
    cases h
    exact ofSymbol_hasWidth (List.mem_map.mpr ⟨id, Formula.mem_inputs_symbol.mpr rfl, rfl⟩)
  | constant value =>
    rw [ofFormula] at h
    cases h
    exact .constant value
  | hybrid id parts ih =>
    obtain ⟨terms, rfl, hterms⟩ := ofFormula_hybrid_inv h
    have hne : terms ≠ [] := by
      intro hnil
      rw [hnil, List.forall₂_nil_right_iff] at hterms
      exact hf id parts .refl hterms
    refine .or hne fun term hterm => ?_
    obtain ⟨p, hp, part, hpart, rfl⟩ := exists_of_forall₂ hterms hterm
    refine ofPart_hasWidth p.1 ((ih p hp hpart (hf.part hp)).mono (List.map_subset _ fun s hs => ?_))
    exact Formula.mem_inputs_hybrid.mpr ⟨p, hp, hs⟩
  | operation opcode args ih =>
    obtain ⟨terms, hterms, hop⟩ := ofFormula_operation_inv h
    refine ofOperation?_hasWidth hop fun term hterm => ?_
    obtain ⟨a, ha, hterm'⟩ := exists_of_forall₂ hterms hterm
    refine (ih a ha hterm' (hf.arg ha)).mono (List.map_subset _ fun s hs => ?_)
    exact Formula.mem_inputs_operation.mpr ⟨a, ha, hs⟩

theorem ofFormula_operation_denotes {args : List Formula} (h : ofFormula (.operation opcode args) = .ok t)
    (hargs : ∀ a ∈ args, ∀ u, ofFormula a = .ok u → ∃ w, a.eval σ = .ok w ∧ u.value ρ = ⟨32, w⟩) :
    ∃ ws, args.map (Formula.eval σ) = ws.map .ok ∧ DenotesResult ρ t opcode (args[1]?.bind Formula.known?) ws := by
  obtain ⟨terms, hterms, hop⟩ := ofFormula_operation_inv h
  obtain ⟨ws, hws, hvs⟩ := exists_words hterms hargs
  exact ⟨ws, hws, ofOperation?_denotes hop hvs fun k hk => Formula.count_of_known? hws hk⟩

/-- The term of a formula denotes its word, as long as no shift goes beyond the word. -/
theorem ofFormula_value (h : ofFormula f = .ok t) (hf : f.PartsGiven) (hc : f.CountsFit σ) :
    ∃ w, f.eval σ = .ok w ∧ t.value (words σ) = ⟨32, w⟩ := by
  induction f using Formula.structural generalizing t with
  | symbol id width =>
    rw [ofFormula] at h
    cases h
    exact ⟨_, rfl, ofSymbol_value id width⟩
  | constant value =>
    rw [ofFormula] at h
    cases h
    exact ⟨value, rfl, rfl⟩
  | hybrid id parts ih =>
    obtain ⟨terms, rfl, hterms⟩ := ofFormula_hybrid_inv h
    have hparts : ∀ p ∈ parts, ∀ u, (∃ part, ofFormula p.2 = .ok part ∧ u = ofPart p.1 part) →
        ∃ w, (p.2.eval σ).map p.1.place = .ok w ∧ u.value (words σ) = ⟨32, w⟩ := by
      intro p hp u hu
      obtain ⟨part, hpart, rfl⟩ := hu
      obtain ⟨w, hw, hv⟩ := ih p hp hpart (hf.part hp) (hc.part hp)
      exact ⟨p.1.place w, by rw [hw]; rfl, ofPart_value p.1 hv⟩
    obtain ⟨ws, hws, hvs⟩ := exists_words hterms hparts
    have hne : ws ≠ [] := by
      intro hnil
      rw [hnil, List.map_nil, List.map_eq_nil_iff] at hws
      exact hf id parts .refl hws
    refine ⟨_, Formula.eval_hybrid_of_placed hws, ?_⟩
    rw [value, values_eq, hvs, BitString.union_words hne, List.foldl_eq_foldr]
  | operation opcode args ih =>
    obtain ⟨ws, hws, w, hw, hfits, -⟩ := ofFormula_operation_denotes h fun a ha u hu =>
      ih a ha hu (hf.arg ha) (hc.arg ha)
    refine ⟨w, ?_, hfits (hc opcode args ws .refl hws)⟩
    rw [Formula.eval_operation]
    exact Rules.standard.evaluation_operation σ hws hw

end Solver.Term

end TraceReplay
