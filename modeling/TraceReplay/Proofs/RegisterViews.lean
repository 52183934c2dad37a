/-
  TraceReplay.Proofs.RegisterViews — what reading and writing a view of a register gives.

  To read a view gives what its owner shows there (`Table.Shows`, `gives_extract_shown`): the
  piece with that range, or the field of the owner's word. In a table in order both are the same
  (`gives_extract`). To write one merges a number into the word, in one of three ways
  (`MergeStep`): a whole register takes the value itself, an unknown byte in a known word makes a
  hybrid word with the byte as a piece, and anything else is a merge under a mask, which puts in
  all bits of the number.
-/

import TraceReplay.Machine.RegisterFile
import TraceReplay.Proofs.Hybrid

namespace TraceReplay

variable {R : Rules} {σ : Assignment}

namespace RegisterView

variable {t : Table} {owner value : Nat} {w v : Word}

theorem span_inWord (view : RegisterView) : view.span.InWord := by
  cases view <;> (simp only [span]; decide)

theorem eight_le_width (view : RegisterView) : 8 ≤ view.span.width := by
  cases view <;> (simp only [span]; decide)

end RegisterView

/-! ## Reading -/

namespace Table

variable {t t' : Table} {owner : Nat} {range : BitRange} {w x : Word}

/-- The number that is read at the range: the piece there, or the field of the word. -/
def Shows (R : Rules) (σ : Assignment) (t : Table) (owner : ValueId) (range : BitRange) (x : Word) : Prop :=
  match t.piece? owner range with
  | some piece => t.Means R σ piece x
  | none => ∃ w, t.Means R σ owner w ∧ x = range.field w

theorem piece?_eq_some_iff {piece : ValueId} :
    t.piece? owner range = some piece ↔ ∃ pieces, t.pieces? owner = some pieces ∧ (range, piece) ∈ pieces.entries := by
  simp only [piece?, Option.bind_eq_some_iff, SortedMap.get?_eq_some_iff]

theorem shows_piece {piece : ValueId} (hp : t.piece? owner range = some piece) :
    t.Shows R σ owner range x ↔ t.Means R σ piece x := by
  rw [Shows, hp]

theorem shows_field (hp : t.piece? owner range = none) (hw : t.Means R σ owner w) :
    t.Shows R σ owner range x ↔ x = range.field w := by
  rw [Shows, hp]
  constructor
  · rintro ⟨w', hw', rfl⟩
    rw [hw'.unique hw]
  · exact fun hx => ⟨w, hw, hx⟩

/-- In a table in order the pieces are the fields. -/
theorem InOrder.shows_field (ht : t.InOrder R σ) (hw : t.Means R σ owner w) (hwidth : 8 ≤ range.width) :
    t.Shows R σ owner range (range.field w) := by
  cases hp : t.piece? owner range with
  | none => exact (Table.shows_field hp hw).mpr rfl
  | some piece =>
    obtain ⟨pieces, hpieces, hin⟩ := piece?_eq_some_iff.mp hp
    have hr := (Pieces.mem_tile (ht.wellFormed.isPartition hpieces) (List.mem_map.mpr ⟨_, hin, rfl⟩)).2
    exact (shows_piece hp).mpr ((ht.reads hpieces hw hin).means_field hr hwidth)

def splits (t : Table) (owner value : ValueId) : RegisterView → Bool
  | .high8 _ => (t.concrete? owner).isSome && t.isSymbol value
  | _ => false

end Table

namespace RegisterView

variable {t : Table} {owner value : Nat} {w v : Word}

theorem gives_extractLow {range : BitRange} {x : Word} (hx : t.Shows R σ owner range x) (hr : range.InWord)
    (h0 : range.low = 0) : (extractLow range owner).Gives R σ t x := by
  refine Build.ensures_get ?_
  unfold Table.Shows at hx
  split
  · rename_i hpiece
    rw [hpiece] at hx
    exact Build.ensures_pure hx
  · rename_i hpiece
    rw [hpiece] at hx
    obtain ⟨w, hw, rfl⟩ := hx
    have hfield : w &&& range.mask = range.field w := by
      have : Bits.value ⟨w, range⟩ = range.field w := Bits.value_eq_field (b := ⟨w, range⟩) hr
      rwa [Bits.value, h0, BitVec.ushiftRight_zero] at this
    refine (Build.gives_constant _ t).bind fun mask t₁ g₁ hmask => ?_
    exact Build.gives_binarySized (hw.grow g₁) hmask (R.extends_apply (congrArg some hfield))

theorem gives_extractHigh {range : BitRange} {x : Word} (hx : t.Shows R σ owner range x) (hr : range.InWord) :
    (extractHigh range owner).Gives R σ t x := by
  refine Build.ensures_get ?_
  unfold Table.Shows at hx
  split
  · rename_i hpiece
    rw [hpiece] at hx
    exact Build.ensures_pure hx
  · rename_i hpiece
    rw [hpiece] at hx
    obtain ⟨w, hw, rfl⟩ := hx
    exact Build.gives_field hw hr _

/-- A part of a register is read as its owner shows it. -/
theorem gives_extract_shown (view : RegisterView) (hpart : view.span ≠ .word) {x : Word}
    (hx : t.Shows R σ owner view.span x) : (view.extract owner).Gives R σ t x := by
  have hr := view.span_inWord
  cases view with
  | full r => exact absurd rfl hpart
  | low16 r | low8 r => exact gives_extractLow hx hr rfl
  | high8 r => exact gives_extractHigh hx hr

/-- A view is the field of its owner's word. -/
theorem gives_extract (ht : t.InOrder R σ) (hw : t.Means R σ owner w) (view : RegisterView) :
    (view.extract owner).Gives R σ t (view.span.field w) := by
  by_cases hpart : view.span = .word
  · cases view with
    | full r => exact Build.ensures_pure ((BitRange.field_word w).symm ▸ hw)
    | low16 r | low8 r | high8 r => cases hpart
  · exact view.gives_extract_shown hpart (ht.shows_field hw view.eight_le_width)

/-- A view that is a piece of its owner is that piece, and nothing is built to read it. -/
theorem extract_of_piece? {view : RegisterView} {piece : ValueId} (hpiece : t.piece? owner view.span = some piece)
    (hpart : view.span ≠ .word) : view.extract owner t = (piece, t) := by
  cases view with
  | full r => exact absurd rfl hpart
  | low16 r | low8 r =>
    simp only [extract, extractLow, bind, StateT.bind, getThe, MonadStateOf.get, StateT.get, pure, hpiece]
    rfl
  | high8 r =>
    simp only [extract, extractHigh, bind, StateT.bind, getThe, MonadStateOf.get, StateT.get, pure, hpiece]
    rfl

/-! ## Writing -/

inductive MergeStep (R : Rules) (σ : Assignment) (t : Table) (owner value : Nat) (w v : Word) (view : RegisterView) :
    Nat → Table → Prop
  /-- The value becomes the register. -/
  | whole : view.span = .word → MergeStep R σ t owner value w v view value t
  /-- The number is merged under a mask. -/
  | masked {id : Nat} {t' : Table} : t.splits owner value view = false → t.Grows t' →
      (t.InOrder R σ → t'.InOrder R σ) → t'.Means R σ id (view.span.merge w v) → t'.isHybrid id = false →
      MergeStep R σ t owner value w v view id t'
  /-- The value becomes a piece of a hybrid word, and the others are known. The table is in order
      afterwards if the number fits. -/
  | split {id : Nat} {t' : Table} : t.splits owner value view = true → t.Grows t' → t'.isHybrid id = true →
      t'.piece? id view.span = some value →
      (∀ range piece, t'.piece? id range = some piece → range ≠ view.span → t'.constant? piece = some ⟨w, range⟩) →
      t'.Means R σ id (view.span.replace w v) →
      (v.toNat < 2 ^ view.span.width → t.InOrder R σ → t'.InOrder R σ) →
      MergeStep R σ t owner value w v view id t'

theorem gives_mergeLow (hw : t.Means R σ owner w) (hv : t.Means R σ value v) {range : BitRange}
    (h0 : range.low = 0) : (mergeLow range owner value).Gives R σ t (range.merge w v) := by
  refine (Build.gives_constant _ t).bind fun mask t₁ g₁ hmask => ?_
  refine (Build.gives_binary (hw.grow g₁) hmask (R.extends_apply rfl)).bind fun kept t₂ g₂ hkept => ?_
  refine Build.gives_binary hkept (hv.grow (g₁.trans g₂)) (R.extends_apply ?_)
  rw [Opcode.apply, BitRange.merge, h0, BitVec.shiftLeft_zero]

theorem constant?_of_isSymbol (h : t.isSymbol value = true) : t.constant? value = none := by
  unfold Table.isSymbol at h
  unfold Table.constant?
  cases hv : t.get? value with
  | none => rfl
  | some x =>
    rw [hv] at h
    have hkind : x.kind = .symbol := by simpa using h
    unfold Value.kind at hkind
    cases hn : x.node <;> simp_all [Value.constant?]

theorem means_of_concrete? (ht : t.WellFormed) {word : Word} (h : t.concrete? owner = some word) :
    t.Means R σ owner word := by
  obtain ⟨x, hx, hk⟩ := Option.bind_eq_some_iff.mp h
  split at hk
  · exact ht.means_of_known (Option.bind_eq_some_iff.mpr ⟨x, hx, hk⟩)
  · cases hk

/-- The pieces of a word that is split around its second byte. -/
theorem entries_splitAround (below above value : ValueId) :
    (SortedMap.ofList [(⟨0, 7⟩, below), (⟨8, 15⟩, value), (⟨16, 31⟩, above)] : Pieces).entries =
      [(⟨0, 7⟩, below), (⟨8, 15⟩, value), (⟨16, 31⟩, above)] := rfl

/-- Bits outside the byte are those of the word. -/
theorem getLsbD_replace_byte (word v : Word) {r : BitRange} (hr : r.InWord) (hout : r.high < 8 ∨ 15 < r.low) (k : Nat)
    (hk : r.covers k = true) : word.getLsbD k = (BitRange.replace ⟨8, 15⟩ word v).getLsbD k := by
  have hmid : BitRange.InWord ⟨8, 15⟩ := by decide
  have hle := BitRange.covers_iff.mp hk
  have hcov : BitRange.covers ⟨8, 15⟩ k = false := by
    rw [BitRange.covers_eq_false_iff]
    simp only
    omega
  rw [BitRange.getLsbD_replace hmid _ _ (Nat.lt_of_le_of_lt hle.2 hr.2), hcov]
  simp

theorem hasBits_byte (hv : t.Means R σ value v) (word : Word) :
    t.HasBits R σ (BitRange.replace ⟨8, 15⟩ word v) ⟨8, 15⟩ value := by
  have hmid : BitRange.InWord ⟨8, 15⟩ := by decide
  refine ⟨v, hv, fun k hk => ?_⟩
  have hle := BitRange.covers_iff.mp hk
  rw [BitRange.getLsbD_replace hmid _ _ (by simp only at hle; omega), hk]
  simp

/-- A word is split into its known ends and the value between them. -/
theorem splitAround_run (word : Word) (value : ValueId) (t : Table) : ∃ below above t₂ symbolic known,
    t.Grows t₂ ∧ t₂.constant? below = some ⟨word, ⟨0, 7⟩⟩ ∧ t₂.constant? above = some ⟨word, ⟨16, 31⟩⟩ ∧
    splitAround word value t = (t₂.size, t₂.push ⟨32,
      .hybrid (.ofList [(⟨0, 7⟩, below), (⟨8, 15⟩, value), (⟨16, 31⟩, above)]), symbolic, known⟩) := by
  have g₁ : t.Grows (Build.bits ⟨word, ⟨0, 7⟩⟩ t).2 := Table.grows_push _ _
  have g₂ : (Build.bits ⟨word, ⟨0, 7⟩⟩ t).2.Grows
      (Build.bits ⟨word, ⟨16, 31⟩⟩ (Build.bits ⟨word, ⟨0, 7⟩⟩ t).2).2 := Table.grows_push _ _
  refine ⟨t.size, _, _, _, _, g₁.trans g₂, ?_, Table.constant?_push_self _ _, rfl⟩
  rw [g₂.constant? (Table.lt_size_push _ _)]
  exact Table.constant?_push_self _ _

theorem adds_splitAround (word : Word) (value : ValueId) : (splitAround word value).Adds Node.Derived :=
  (Build.makes_bits _).adds.derived.bind fun _ => (Build.makes_bits _).adds.derived.bind fun _ =>
    (Build.makes_hybrid _ _).adds

theorem piece?_splitAround (word : Word) (value : ValueId) (t : Table) :
    (splitAround word value t).2.piece? (splitAround word value t).1 ⟨8, 15⟩ = some value := by
  obtain ⟨below, above, t₂, symbolic, known, -, -, -, hrun⟩ := splitAround_run word value t
  rw [hrun, Table.piece?, Table.pieces?_push_self]
  rfl

/-- All pieces of a split word but the value are known. -/
theorem constant?_splitAround (word : Word) (value : ValueId) (t : Table) {range : BitRange} {piece : ValueId}
    (hp : (splitAround word value t).2.piece? (splitAround word value t).1 range = some piece)
    (hrange : range ≠ ⟨8, 15⟩) : (splitAround word value t).2.constant? piece = some ⟨word, range⟩ := by
  obtain ⟨below, above, t₂, symbolic, known, -, hbelow, habove, hrun⟩ := splitAround_run word value t
  have grown {p : ValueId} {b : Bits} (hb : t₂.constant? p = some b) (v : Value) : (t₂.push v).constant? p = some b := by
    obtain ⟨x, hx, -⟩ := Table.constant?_eq_some_iff.mp hb
    rw [(Table.grows_push t₂ v).constant? (Table.lt_of_get? hx), hb]
  rw [hrun] at hp ⊢
  obtain ⟨pieces, hpieces, hin⟩ := Table.piece?_eq_some_iff.mp hp
  rw [Table.pieces?_push_self] at hpieces
  cases hpieces
  rw [entries_splitAround] at hin
  simp only [List.mem_cons, Prod.mk.injEq, List.not_mem_nil, or_false] at hin
  rcases hin with ⟨rfl, rfl⟩ | ⟨rfl, -⟩ | ⟨rfl, rfl⟩
  · exact grown hbelow _
  · exact absurd rfl hrange
  · exact grown habove _

/-- A split word is the word with the byte in its place: what is too wide for a byte is cut off. -/
theorem means_splitAround (hv : t.Means R σ value v) (word : Word) :
    (splitAround word value t).2.Means R σ (splitAround word value t).1 (BitRange.replace ⟨8, 15⟩ word v) := by
  have hlow : BitRange.InWord ⟨0, 7⟩ := by decide
  have hhigh : BitRange.InWord ⟨16, 31⟩ := by decide
  obtain ⟨below, above, t₂, symbolic, known, g, hbelow, habove, hrun⟩ := splitAround_run word value t
  have hpieces : ∀ e ∈ (SortedMap.ofList [(⟨0, 7⟩, below), (⟨8, 15⟩, value), (⟨16, 31⟩, above)] : Pieces).entries,
      t₂.HasBits R σ (BitRange.replace ⟨8, 15⟩ word v) e.1 e.2 := by
    intro e he
    rw [entries_splitAround] at he
    simp only [List.mem_cons, List.not_mem_nil, or_false] at he
    rcases he with rfl | rfl | rfl
    · exact Table.hasBits_constant hbelow hlow (getLsbD_replace_byte word v hlow (.inl (Nat.lt_succ_self 7)))
    · exact (hasBits_byte hv word).grow g
    · exact Table.hasBits_constant habove hhigh (getLsbD_replace_byte word v hhigh (.inr (Nat.lt_succ_self 15)))
  rw [hrun]
  exact Table.means_of_hasBits (Table.get?_push_self _ _) rfl rfl (fun e he => (hpieces e he).lt)
    fun e he => (hpieces e he).grow (Table.grows_push _ _)

theorem gives_splitAround (hv : t.Means R σ value v) (hc : t.constant? value = none)
    (hfit : v.toNat < 2 ^ 8) (word : Word) :
    (splitAround word value).Gives R σ t (BitRange.replace ⟨8, 15⟩ word v) := by
  have hlow : BitRange.InWord ⟨0, 7⟩ := by decide
  have hhigh : BitRange.InWord ⟨16, 31⟩ := by decide
  have hvalue : t.Reads R σ (BitRange.replace ⟨8, 15⟩ word v) ⟨8, 15⟩ value := by
    refine ⟨?_, hasBits_byte hv word⟩
    rw [Table.AlignedPiece, hc]
    exact ⟨by decide, v, hv, fun _ => hfit⟩
  refine (Build.ensures_bits (b := ⟨word, ⟨0, 7⟩⟩) hlow
    (getLsbD_replace_byte word v hlow (.inl (Nat.lt_succ_self 7)))).bind fun below t₁ g₁ hbelow => ?_
  refine (Build.ensures_bits (b := ⟨word, ⟨16, 31⟩⟩) hhigh
    (getLsbD_replace_byte word v hhigh (.inr (Nat.lt_succ_self 15)))).bind fun above t₂ g₂ habove => ?_
  refine Build.ensures_hybrid rfl fun e he => ?_
  rw [entries_splitAround] at he
  simp only [List.mem_cons, List.not_mem_nil, or_false] at he
  rcases he with rfl | rfl | rfl
  · exact hbelow.grow g₂
  · exact hvalue.grow (g₁.trans g₂)
  · exact habove

/-- A merge under a mask ends in an operation, so it is not hybrid. -/
theorem MergeStep.of_gives {view : RegisterView} {b : Build ValueId} (hs : t.splits owner value view = false)
    (gives : b.Gives R σ t (view.span.merge w v))
    (hop : ∃ t₀ opcode ids width symbolic known, b t =
      (Table.size t₀, t₀.push ⟨width, .operation opcode ids, symbolic, known⟩)) :
    MergeStep R σ t owner value w v view (b t).1 (b t).2 := by
  refine .masked hs gives.grows gives.inOrder gives.post ?_
  obtain ⟨t₀, opcode, ids, width, symbolic, known, hop⟩ := hop
  rw [hop, Table.isHybrid, Table.pieces?_push_self]
  rfl

theorem mergeHigh_run_split {range : BitRange} {word : Word} (hword : t.concrete? owner = some word)
    (hsymbol : t.isSymbol value = true) : mergeHigh range owner value t = splitAround word value t := by
  unfold mergeHigh
  simp only [bind, StateT.bind, getThe, MonadStateOf.get, StateT.get, pure, hword, hsymbol, if_true]

theorem mergeHigh_run_mask {range : BitRange} (h : t.concrete? owner = none ∨ t.isSymbol value = false) :
    mergeHigh range owner value t = mergeHigh.mask range owner value t := by
  unfold mergeHigh
  simp only [bind, StateT.bind, getThe, MonadStateOf.get, StateT.get, pure]
  rcases h with hword | hsymbol
  · rw [hword]
  · cases t.concrete? owner with
    | none => rfl
    | some word => rw [hsymbol]; rfl

theorem merge_step (ht : t.WellFormed) (hw : t.Means R σ owner w) (hv : t.Means R σ value v)
    (view : RegisterView) :
    MergeStep R σ t owner value w v view (view.merge owner value t).1 (view.merge owner value t).2 := by
  cases view with
  | full r => exact .whole rfl
  | low16 r => exact .of_gives rfl (gives_mergeLow hw hv rfl) ⟨_, _, _, _, _, _, rfl⟩
  | low8 r => exact .of_gives rfl (gives_mergeLow hw hv rfl) ⟨_, _, _, _, _, _, rfl⟩
  | high8 r =>
    have masked (hs : t.splits owner value (.high8 r) = false) : MergeStep R σ t owner value w v (.high8 r)
        (mergeHigh.mask ⟨8, 15⟩ owner value t).1 (mergeHigh.mask ⟨8, 15⟩ owner value t).2 :=
      .of_gives hs (Build.gives_merge hw hv (by decide)) ⟨_, _, _, _, _, _, rfl⟩
    show MergeStep R σ t owner value w v (.high8 r) (mergeHigh ⟨8, 15⟩ owner value t).1
      (mergeHigh ⟨8, 15⟩ owner value t).2
    cases hword : t.concrete? owner with
    | none => exact (mergeHigh_run_mask (.inl hword)).symm ▸ masked (by rw [Table.splits, hword]; rfl)
    | some word =>
      cases hsymbol : t.isSymbol value with
      | false => exact (mergeHigh_run_mask (.inr hsymbol)).symm ▸ masked (by rw [Table.splits, hsymbol, Bool.and_false])
      | true =>
        obtain rfl := hw.unique (means_of_concrete? ht hword)
        rw [mergeHigh_run_split hword hsymbol]
        have hpiece := piece?_splitAround w value t
        refine .split ?_ (adds_splitAround w value t).grows ?_ hpiece (fun _ _ => constant?_splitAround w value t)
          (means_splitAround hv w) fun hfit => ?_
        · rw [Table.splits, hword, hsymbol]
          rfl
        · rw [Table.piece?] at hpiece
          exact Option.isSome_of_mem (Option.bind_eq_some_iff.mp hpiece).choose_spec.1
        · exact (gives_splitAround hv (constant?_of_isSymbol hsymbol) hfit w).inOrder

/-! ## What is appended -/

theorem adds_extract (owner : ValueId) (view : RegisterView) : (view.extract owner).Adds Node.Computed := by
  have low (range : BitRange) : (extractLow range owner).Adds Node.Computed := by
    refine Build.adds_get fun t => ?_
    split
    · exact Build.adds_pure _
    · exact (Build.makes_constant _).adds.bind fun _ => (Build.makes_binarySized _ _ _ _).adds
  have high (range : BitRange) : (extractHigh range owner).Adds Node.Computed := by
    refine Build.adds_get fun t => ?_
    split
    · exact Build.adds_pure _
    · exact (Build.makes_field _ _ _).adds
  cases view with
  | full r => exact Build.adds_pure _
  | low16 r | low8 r => exact low _
  | high8 r => exact high _

theorem adds_mergeLow (range : BitRange) (owner value : ValueId) : (mergeLow range owner value).Adds Node.Computed :=
  (Build.makes_constant _).adds.bind fun _ => (Build.makes_binary _ _ _).adds.bind fun _ =>
    (Build.makes_binary _ _ _).adds

theorem adds_merge (owner value : ValueId) (view : RegisterView) : (view.merge owner value).Adds Node.Derived := by
  have masked (range : BitRange) : (mergeHigh.mask range owner value).Adds Node.Derived :=
    (Build.makes_merge _ _ _).adds.derived
  cases view with
  | full r => exact Build.adds_pure _
  | low16 r | low8 r => exact (adds_mergeLow _ _ _).derived
  | high8 r =>
    refine Build.adds_get fun t => ?_
    split
    · split
      · exact adds_splitAround _ _
      · exact masked _
    · exact masked _

end RegisterView

/-! ## Register files -/

namespace RegisterFile

variable {regs : RegisterFile} {view : RegisterView} {owner : ValueId}

theorem owner_eq_ok {r : Register} (h : regs.get? r = some owner) : regs.owner r = .ok owner := by
  rw [RegisterFile.owner, h]

/-- A register that holds a value can be written in part; it then holds the merged value. -/
theorem write_eq_ok (h : regs.get? view.owner = some owner) (value : ValueId) :
    regs.write view value = .ok fun t =>
      (regs.set view.owner (view.merge owner value t).1, (view.merge owner value t).2) := by
  have howner := owner_eq_ok h
  cases view with
  | full r => rfl
  | low16 r | low8 r | high8 r =>
    simp only [write, howner]
    rfl

theorem read_eq_ok (h : regs.get? view.owner = some owner) : regs.read view = .ok (view.extract owner) := by
  rw [read, owner_eq_ok h]
  rfl

end RegisterFile

end TraceReplay
