/-
  TraceReplay.Proofs.Regular — the hybrid words of a replay, and what they show.

  A table is regular (`Table.Regular`) if the constant pieces of its hybrid words are known at
  the very bits that they cover, and any other piece is a symbolic value for a byte at most and
  not hybrid itself. How wide the word of a piece is does not matter here: a piece may mean more
  than its range has room for. Registers are split in this way, shifts keep it so, and nothing
  else builds a hybrid word (`Node.Plain`).

  A byte of a hybrid word may show another number than the field of the word, if it is a piece
  that is too wide. What a shifted word shows at a byte is what the word showed at the byte that
  comes to lie there (`Shifted`, `shifted_shiftHybrid`), whether it is hybrid or not.
-/

import TraceReplay.Proofs.Construction
import TraceReplay.Proofs.RegisterViews

namespace TraceReplay

variable {R : Rules} {σ : Assignment}

/-! ## Regular tables -/

namespace Table

variable {t t' : Table} {id owner piece : Nat} {range : BitRange} {w x : Word}

def RegularPiece (t : Table) (range : BitRange) (piece : ValueId) : Prop :=
  match t.constant? piece with
  | some b => b.range = range
  | none => range.width ≤ 8 ∧ t.isSymbolic piece = true ∧ t.isHybrid piece = false

def Regular (t : Table) : Prop :=
  ∀ id pieces, t.pieces? id = some pieces → ∀ e ∈ pieces.entries, t.RegularPiece e.1 e.2

theorem RegularPiece.grow (h : t.RegularPiece range piece) (hp : piece < t.size) (g : t.Grows t') :
    t'.RegularPiece range piece := by
  rw [RegularPiece, isHybrid, g.constant? hp, g.isSymbolic hp, g.pieces? hp]
  exact h

/-- A table stays regular if what is new in it is. -/
theorem Regular.grow (h : t.Regular) (ht : t.WellFormed) (g : t.Grows t')
    (hnew : ∀ id pieces, t.size ≤ id → t'.pieces? id = some pieces → ∀ e ∈ pieces.entries, t'.RegularPiece e.1 e.2) :
    t'.Regular := by
  intro id pieces hp e he
  by_cases hid : id < t.size
  · rw [g.pieces? hid] at hp
    exact (h id pieces hp e he).grow (ht.piece_lt hp he) g
  · exact hnew id pieces (Nat.le_of_not_lt hid) hp e he

/-- A table stays regular if nothing new in it is hybrid. -/
theorem Regular.of_plain (h : t.Regular) (ht : t.WellFormed) (hnew : t.Adds Node.Plain t') : t'.Regular := by
  refine h.grow ht hnew.grows fun id pieces hid hp => ?_
  have hflat := hnew.isHybrid hid
  rw [isHybrid, hp] at hflat
  cases hflat

theorem isHybrid_push (t : Table) {v : Value} (hv : v.pieces? = none) : (t.push v).isHybrid t.size = false := by
  rw [isHybrid, pieces?_push_self, hv]
  rfl

theorem isHybrid_of_constant? {b : Bits} (h : t.constant? id = some b) : t.isHybrid id = false := by
  obtain ⟨v, hv, hn⟩ := constant?_eq_some_iff.mp h
  rw [isHybrid, pieces?, hv, Option.bind_some, Value.pieces?, hn]
  rfl

/-- The pieces of a hybrid word are no hybrid words. -/
theorem RegularPiece.isHybrid (h : t.RegularPiece range piece) : t.isHybrid piece = false := by
  unfold RegularPiece at h
  split at h
  · exact isHybrid_of_constant? ‹_›
  · exact h.2.2

theorem piece?_of_isHybrid (h : t.isHybrid owner = false) (range : BitRange) : t.piece? owner range = none := by
  rw [piece?, show t.pieces? owner = none from Option.isNone_iff_eq_none.mp (by simpa [Table.isHybrid] using h)]
  rfl

/-! ## What a value shows -/

theorem Shows.grow (h : t.Shows R σ owner range x) (ho : owner < t.size) (g : t.Grows t') :
    t'.Shows R σ owner range x := by
  have hp : t'.piece? owner range = t.piece? owner range := by rw [piece?, g.pieces? ho, piece?]
  unfold Shows at h ⊢
  rw [hp]
  split at h
  · exact h.grow g
  · obtain ⟨w, hw, hx⟩ := h
    exact ⟨w, hw.grow g, hx⟩

theorem Shows.unique {x' : Word} (h : t.Shows R σ owner range x) (h' : t.Shows R σ owner range x') : x = x' := by
  cases hp : t.piece? owner range with
  | some piece => exact ((shows_piece hp).mp h).unique ((shows_piece hp).mp h')
  | none =>
    rw [Shows, hp] at h
    obtain ⟨w, hw, rfl⟩ := h
    exact ((shows_field hp hw).mp h').symm

/-- Anything but a hybrid word shows the fields of its word. -/
theorem shows_of_not_hybrid (h : t.isHybrid owner = false) (hw : t.Means R σ owner w) (range : BitRange) :
    t.Shows R σ owner range (range.field w) :=
  (shows_field (piece?_of_isHybrid h range) hw).mpr rfl

theorem WellFormed.inWord (ht : t.WellFormed) {pieces : Pieces} (hp : t.pieces? id = some pieces)
    {e : BitRange × ValueId} (he : e ∈ pieces.entries) : e.1.InWord :=
  (Pieces.mem_tile (ht.isPartition hp) (List.mem_map.mpr ⟨e, he, rfl⟩)).2

theorem WellFormed.means_of_hasBits (ht : t.WellFormed) {pieces : Pieces} (hp : t.pieces? id = some pieces)
    (h : ∀ e ∈ pieces.entries, t.HasBits R σ w e.1 e.2) : t.Means R σ id w := by
  obtain ⟨v, hv, hn⟩ := pieces?_eq_some_iff.mp hp
  have hlt := ht.operands_lt hv
  rw [hn] at hlt
  exact Table.means_of_hasBits hv hn (ht.isPartition hp) (fun e he => hlt e.2 (List.mem_map.mpr ⟨e, he, rfl⟩)) h

/-- A known piece is the field of the word that it is a piece of. -/
theorem HasBits.means_field (h : t.HasBits R σ w range piece) (hr : range.InWord) {b : Bits}
    (hb : t.constant? piece = some b) (hrange : b.range = range) : t.Means R σ piece (range.field w) := by
  obtain ⟨v, hv, hnode⟩ := constant?_eq_some_iff.mp hb
  have hfield : b.value = range.field w := by
    rw [Bits.value_eq_field (hrange.symm ▸ hr), hrange]
    refine BitVec.eq_of_getLsbD_eq fun k _ => ?_
    rw [BitRange.getLsbD_field hr, BitRange.getLsbD_field hr]
    by_cases hk : k < range.width
    · have hcov : range.covers (range.low + k) = true := by
        have := hr.1
        rw [BitRange.covers_iff]
        unfold BitRange.width at hk
        omega
      rw [h.known_bits hr hb hrange hcov]
    · simp [hk]
  exact hfield ▸ means_constant hv hnode

/-- Where there is no piece, or a known one, the field of the word is shown. -/
theorem WellFormed.shows_known (ht : t.WellFormed) (hreg : t.Regular) (hw : t.Means R σ owner w)
    (hknown : ∀ piece, t.piece? owner range = some piece → (t.constant? piece).isSome) :
    t.Shows R σ owner range (range.field w) := by
  cases hp : t.piece? owner range with
  | none => exact (shows_field hp hw).mpr rfl
  | some piece =>
    obtain ⟨pieces, hpieces, hin⟩ := piece?_eq_some_iff.mp hp
    obtain ⟨b, hb⟩ := Option.isSome_iff_exists.mp (hknown piece hp)
    have hrange := hreg owner pieces hpieces _ hin
    rw [RegularPiece, hb] at hrange
    exact (shows_piece hp).mpr ((ht.hasBits hpieces hw hin).means_field (ht.inWord hpieces hin) hb hrange)

/-- So more than a byte is always shown as it is. -/
theorem WellFormed.shows_wide (ht : t.WellFormed) (hreg : t.Regular) (hw : t.Means R σ owner w)
    (hwide : 8 < range.width) : t.Shows R σ owner range (range.field w) := by
  refine ht.shows_known hreg hw fun piece hp => ?_
  obtain ⟨pieces, hpieces, hin⟩ := piece?_eq_some_iff.mp hp
  have hpiece := hreg owner pieces hpieces _ hin
  unfold RegularPiece at hpiece
  split at hpiece
  · rename_i b hb
    exact Option.isSome_of_mem hb
  · exact absurd hpiece.1 (Nat.not_le.mpr hwide)

end Table

theorem Build.Adds.regular {α : Type} {b : Build α} {t : Table} (hb : b.Adds Node.Plain) (ht : t.WellFormed)
    (hreg : t.Regular) : (b t).2.Regular :=
  hreg.of_plain ht (hb t)

/-! ## Shifts -/

namespace Direction

variable {d : Direction} {n : Nat} {source source' target : BitRange}

/-- A range that is moved without loss takes its bits along. -/
theorem field_shift (h : d.move? n source = some target) (hr : source.InWord) (hwidth : target.width = source.width)
    (w : Word) : target.field (d.shift n w) = source.field w := by
  have hl := hr.1
  have ht := (move?_inWord h hr).1
  refine BitVec.eq_of_getLsbD_eq fun k _ => ?_
  rw [BitRange.getLsbD_field (move?_inWord h hr), BitRange.getLsbD_field hr, hwidth]
  by_cases hk : k < source.width
  · have hcov : target.covers (target.low + k) = true := by
      rw [BitRange.covers_iff]
      simp only [BitRange.width] at hk hwidth
      omega
    have horigin : d.origin n (target.low + k) = source.low + k := by
      simp only [BitRange.width] at hk hwidth
      cases d <;> simp only [move?] at h <;> split at h <;> cases h <;> simp only [origin] at hwidth ⊢ <;> omega
    rw [(covers_origin h hr hcov).2, horigin]
  · simp [hk]

theorem eq_of_move? (h : d.move? n source = some target) (h' : d.move? n source' = some target) (hr : source.InWord)
    (hr' : source'.InWord) (hwidth : target.width = source.width) (hwidth' : target.width = source'.width) :
    source = source' := by
  have hl := hr.1
  have hl' := hr'.1
  obtain ⟨a, b⟩ := source
  obtain ⟨a', b'⟩ := source'
  cases d <;> simp only [move?] at h h' <;> split at h <;> split at h' <;> cases h <;>
    simp only [BitRange.width, BitRange.mk.injEq, Option.some.injEq, reduceCtorEq] at * <;> omega

end Direction

/-- The value means the shifted word. A byte of it shows what was shown at the byte that it comes
    from, and its own bits if there is no such byte. -/
structure Shifted (R : Rules) (σ : Assignment) (d : Direction) (n : Nat) (t t' : Table) (id id' : ValueId) (w : Word) :
    Prop where
  means : t'.Means R σ id' (d.shift n w)
  moved : ∀ source target x, source.InWord → source.width = 8 → target.width = 8 → d.move? n source = some target →
    t.Shows R σ id source x → t'.Shows R σ id' target x
  fresh : ∀ target, target.InWord → target.width = 8 →
    (∀ source, source.InWord → source.width = 8 → d.move? n source ≠ some target) →
    t'.Shows R σ id' target (target.field (d.shift n w))

namespace Build

variable {t t' : Table} {w : Word} {d : Direction} {n : Nat}

theorem shifted_of_not_hybrid {id id' : ValueId} (hw : t.Means R σ id w) (hid : t.isHybrid id = false)
    (hmeans : t'.Means R σ id' (d.shift n w)) (hid' : t'.isHybrid id' = false) : Shifted R σ d n t t' id id' w := by
  refine ⟨hmeans, fun source target x hr h8 h8' hm hx => ?_, fun target _ _ _ => ?_⟩
  · rw [hx.unique (Table.shows_of_not_hybrid hid hw source), ← Direction.field_shift hm hr (h8'.trans h8.symm)]
    exact Table.shows_of_not_hybrid hid' hmeans target
  · exact Table.shows_of_not_hybrid hid' hmeans target

/-- What becomes of a piece: a known one stays known, and any other that keeps a whole byte is the
    same value. -/
structure MovedPiece (R : Rules) (σ : Assignment) (w : Word) (t : Table) (pieces : Pieces) (d : Direction) (n : Nat)
    (t' : Table) (target : BitRange) (p : ValueId) : Prop where
  bits : t'.HasBits R σ (d.shift n w) target p
  regular : t'.RegularPiece target p
  origin : (t'.constant? p).isSome ∧ target = d.vacated n ∨
    ∃ e ∈ pieces.entries, d.move? n e.1 = some target ∧
      ((t.constant? e.2).isSome → (t'.constant? p).isSome) ∧
      (t.constant? e.2 = none → target.width = 8 → p = e.2)

theorem MovedPiece.grow {pieces : Pieces} {t'' : Table} {target : BitRange} {p : ValueId}
    (h : MovedPiece R σ w t pieces d n t' target p) (g : t'.Grows t'') : MovedPiece R σ w t pieces d n t'' target p := by
  have hlt := h.bits.lt
  refine ⟨h.bits.grow g, h.regular.grow hlt g, ?_⟩
  rw [g.constant? hlt]
  exact h.origin

section MovePiece

variable {id : ValueId} {pieces : Pieces} {e : BitRange × ValueId} {target : BitRange}

/-- A known piece is known again, by its bits at the new place. -/
theorem movedPiece_known (ht : t.WellFormed) (hreg : t.Regular) (hp : t.pieces? id = some pieces)
    (hw : t.Means R σ id w) (he : e ∈ pieces.entries) (hm : d.move? n e.1 = some target) (g : t.Grows t')
    {b : Bits} (hc : t.constant? e.2 = some b) :
    MovedPiece R σ w t pieces d n (bits ⟨d.shift n b.word, target⟩ t').2 target
      (bits ⟨d.shift n b.word, target⟩ t').1 := by
  have hr := ht.inWord hp he
  have hrange := hreg id pieces hp e he
  rw [Table.RegularPiece, hc] at hrange
  have hbits := (ht.hasBits hp hw he).grow g
  have hnew : (bits ⟨d.shift n b.word, target⟩ t').2.constant? (bits ⟨d.shift n b.word, target⟩ t').1 =
      some ⟨d.shift n b.word, target⟩ := Table.constant?_push_self t' _
  refine ⟨Table.hasBits_constant hnew (Direction.move?_inWord hm hr) fun k hk => ?_, ?_,
    .inr ⟨e, he, hm, fun _ => ?_, fun hnone => ?_⟩⟩
  · obtain ⟨hcov, hshift⟩ := Direction.covers_origin hm hr hk
    rw [hshift, hshift, hbits.known_bits hr (by rw [g.constant? (ht.piece_lt hp he), hc]) hrange hcov]
  · rw [Table.RegularPiece, hnew]
  · rw [hnew]
    rfl
  · rw [hc] at hnone
    cases hnone

/-- A piece that loses bits to the right keeps less than a byte, and is symbolic as before. -/
theorem movedPiece_lost (ht : t.WellFormed) (hreg : t.Regular) (hp : t.pieces? id = some pieces)
    (hw : t.Means R σ id w) (hn : n < 32) (he : e ∈ pieces.entries)
    (hm : Direction.right.move? n e.1 = some target) (ht' : t'.WellFormed) (g : t.Grows t')
    (hc : t.constant? e.2 = none) (hlow : e.1.low < n) :
    Maintains (do
      let lost ← constant (BitVec.ofNat 32 (n - e.1.low))
      binary .shr e.2 lost) t' fun t'' p => MovedPiece R σ w t pieces .right n t'' target p := by
  have hr := ht.inWord hp he
  have hlt := ht.piece_lt hp he
  have hbits := (ht.hasBits hp hw he).grow g
  have hpiece := hreg id pieces hp e he
  rw [Table.RegularPiece, hc] at hpiece
  obtain ⟨h8, hsymbolic, -⟩ := hpiece
  have h₁ := maintains_constantOf ht' 32 ⟨BitVec.ofNat 32 (n - e.1.low), .lowBits 32⟩
  have hoperands : ∀ o ∈ [e.2, t'.size], o < (constant (BitVec.ofNat 32 (n - e.1.low)) t').2.size := by
    intro o ho
    rcases List.mem_cons.mp ho with rfl | ho
    · exact h₁.grows.lt (g.lt hlt)
    · rw [List.mem_singleton.mp ho]
      exact Table.lt_size_push _ _
  have h₂ := maintains_operationLike h₁.wellFormed .shr hoperands
  have hless : target.width < 8 := by
    have := hr.1
    simp only [Direction.move?] at hm
    split at hm <;> cases hm
    simp only [BitRange.width] at h8 ⊢
    omega
  refine ⟨h₁.grows.trans h₂.grows, h₂.wellFormed, (hasBits_lostBits hbits hr hn hm hlow).post, ?_,
    .inr ⟨e, he, hm, fun hsome => ?_, fun _ hwhole => ?_⟩⟩
  · have hpiece := (g.trans (h₁.grows.trans h₂.grows)).isSymbolic hlt
    show Table.RegularPiece (Table.push _ _) target (Table.size _)
    rw [Table.RegularPiece, Table.constant?_push_self]
    refine ⟨by omega, ?_, Table.isHybrid_push _ rfl⟩
    refine (h₂.wellFormed.isSymbolic_eq (Table.get?_push_self _ _)).trans ?_
    exact List.any_eq_true.mpr ⟨e.2, .head _, hpiece.trans hsymbolic⟩
  · rw [hc] at hsome
    cases hsome
  · omega

/-- Any other piece stays the value that it is. -/
theorem movedPiece_kept (ht : t.WellFormed) (hreg : t.Regular) (hp : t.pieces? id = some pieces)
    (hw : t.Means R σ id w) (he : e ∈ pieces.entries) (hm : d.move? n e.1 = some target) (g : t.Grows t')
    (hc : t.constant? e.2 = none) (hkept : ¬ (d = .right ∧ e.1.low < n)) :
    MovedPiece R σ w t pieces d n t' target e.2 := by
  have hr := ht.inWord hp he
  have hlt := ht.piece_lt hp he
  have hwidth := Direction.move?_width hm hr
  have hpiece := hreg id pieces hp e he
  rw [Table.RegularPiece, hc] at hpiece
  obtain ⟨h8, hsymbolic, hflat⟩ := hpiece
  refine ⟨hasBits_moved ((ht.hasBits hp hw he).grow g) hr hm hkept, ?_,
    .inr ⟨e, he, hm, fun hsome => ?_, fun _ _ => rfl⟩⟩
  · rw [Table.RegularPiece, Table.isHybrid, g.constant? hlt, g.isSymbolic hlt, g.pieces? hlt, hc]
    exact ⟨by omega, hsymbolic, hflat⟩
  · rw [hc] at hsome
    cases hsome

theorem movedPiece_movePiece (ht : t.WellFormed) (hreg : t.Regular) (hp : t.pieces? id = some pieces)
    (hw : t.Means R σ id w) (hn : n < 32) (he : e ∈ pieces.entries) (hm : d.move? n e.1 = some target)
    (ht' : t'.WellFormed) (g : t.Grows t') :
    (movePiece d n e.1 target e.2).Maintains t' fun t'' p => MovedPiece R σ w t pieces d n t'' target p := by
  refine maintains_get ?_
  rw [g.constant? (ht.piece_lt hp he)]
  cases hc : t.constant? e.2 with
  | some b =>
    have hnew := maintains_constantOf ht' target.width ⟨d.shift n b.word, target⟩
    exact ⟨hnew.grows, hnew.wellFormed, movedPiece_known ht hreg hp hw he hm g hc⟩
  | none =>
    simp only
    split
    · rename_i hlost
      obtain ⟨rfl, hlow⟩ := hlost
      exact movedPiece_lost ht hreg hp hw hn he hm ht' g hc hlow
    · rename_i hkept
      exact maintains_pure ht' (movedPiece_kept ht hreg hp hw he hm g hc hkept)

end MovePiece

theorem movedPiece_filling {pieces : Pieces} (hn : n < 32) (h0 : n ≠ 0) (t' : Table) :
    MovedPiece R σ w t pieces d n (bits ⟨0, d.vacated n⟩ t').2 (d.vacated n) (bits ⟨0, d.vacated n⟩ t').1 := by
  have hc : (bits ⟨0, d.vacated n⟩ t').2.constant? (bits ⟨0, d.vacated n⟩ t').1 = some ⟨0, d.vacated n⟩ :=
    Table.constant?_push_self t' _
  refine ⟨Table.hasBits_constant hc (Direction.vacated_inWord hn h0) fun k hk => ?_, ?_, .inl ⟨?_, rfl⟩⟩
  · rw [Direction.shift_vacated hn h0 hk]
    exact BitVec.getLsbD_zero
  · rw [Table.RegularPiece, hc]
  · exact Option.isSome_of_mem hc

/-- A piece that is not known, at a whole byte, was a piece at a whole byte before. -/
theorem MovedPiece.exists_source (ht : t.WellFormed) (hreg : t.Regular) {id : ValueId} {pieces : Pieces}
    (hp : t.pieces? id = some pieces) {target : BitRange} {p : ValueId}
    (h : MovedPiece R σ w t pieces d n t' target p) (h8 : target.width = 8) (hc : t'.constant? p = none) :
    ∃ source, (source, p) ∈ pieces.entries ∧ source.width = 8 ∧ d.move? n source = some target := by
  obtain ⟨hsome, -⟩ | ⟨e, he, hm, hknown, hsame⟩ := h.origin
  · rw [hc] at hsome
    cases hsome
  · have hce : t.constant? e.2 = none := by
      cases hce : t.constant? e.2 with
      | none => rfl
      | some b =>
        have hsome := hknown (Option.isSome_of_mem hce)
        rw [hc] at hsome
        cases hsome
    have hpiece := hreg id pieces hp e he
    rw [Table.RegularPiece, hce] at hpiece
    have hwidth := Direction.move?_width hm (ht.inWord hp he)
    obtain rfl := hsame hce h8
    exact ⟨e.1, he, Nat.le_antisymm hpiece.1 (h8 ▸ hwidth), hm⟩

/-- Where a piece that is not known is moved as a whole byte, there is no other. -/
theorem MovedPiece.eq_piece (ht : t.WellFormed) {id : ValueId} {pieces : Pieces} (hp : t.pieces? id = some pieces)
    (h0 : n ≠ 0) {source target : BitRange} {p q : ValueId} (h : MovedPiece R σ w t pieces d n t' target p)
    (hin : (source, q) ∈ pieces.entries) (hm : d.move? n source = some target) (h8 : target.width = 8)
    (hc : t.constant? q = none) : p = q := by
  have hr := ht.inWord hp hin
  have hcov : target.covers target.low = true :=
    BitRange.covers_iff.mpr ⟨Nat.le_refl _, (Direction.move?_inWord hm hr).1⟩
  obtain ⟨-, hvacated⟩ | ⟨e, he, hme, -, hsame⟩ := h.origin
  · have hno := Direction.vacated_covers_eq_false hm hr h0 hcov
    rw [← hvacated, hcov] at hno
    cases hno
  · have hsource : e.1 = source := ((Pieces.isPartition_iff pieces).mp (ht.isPartition hp)).once
      _ (List.mem_map.mpr ⟨e, he, rfl⟩) _ (List.mem_map.mpr ⟨_, hin, rfl⟩) _
      (Direction.covers_origin hme (ht.inWord hp he) hcov).1 (Direction.covers_origin hm hr hcov).1
    obtain ⟨source', q'⟩ := e
    obtain rfl : source' = source := hsource
    obtain rfl := pieces.value_unique he hin
    exact hsame hc h8

/-- Moved pieces make up a shifted word. -/
theorem shifted_of_pieces (ht : t.WellFormed) (hreg : t.Regular) {id id' : ValueId} {pieces pieces' : Pieces}
    (hp : t.pieces? id = some pieces) (hw : t.Means R σ id w) (h0 : n ≠ 0) (ht' : t'.WellFormed) (hreg' : t'.Regular)
    (g : t.Grows t') (hp' : t'.pieces? id' = some pieces')
    (hpieces : ∀ e ∈ pieces'.entries, MovedPiece R σ w t pieces d n t' e.1 e.2)
    (hkeys : ∀ r, r ∈ pieces'.keys ↔ r = d.vacated n ∨ ∃ e ∈ pieces.entries, d.move? n e.1 = some r) :
    Shifted R σ d n t t' id id' w := by
  have hmeans : t'.Means R σ id' (d.shift n w) := ht'.means_of_hasBits hp' fun e he => (hpieces e he).bits
  have moved {target : BitRange} {p : ValueId} (hpiece : t'.piece? id' target = some p) :
      MovedPiece R σ w t pieces d n t' target p := by
    obtain ⟨pieces'', hp'', hin⟩ := Table.piece?_eq_some_iff.mp hpiece
    cases hp'.symm.trans hp''
    exact hpieces _ hin
  refine ⟨hmeans, fun source target x hr h8 h8' hm hx => ?_, fun target hr h8 hno => ?_⟩
  · by_cases hunknown : ∃ p, t'.piece? id' target = some p ∧ t'.constant? p = none
    · obtain ⟨p, hpiece, hc⟩ := hunknown
      obtain ⟨source', hin, h8'', hm'⟩ := (moved hpiece).exists_source ht hreg hp h8' hc
      obtain rfl := Direction.eq_of_move? hm hm' hr (ht.inWord hp hin) (h8'.trans h8.symm) (h8'.trans h8''.symm)
      rw [Table.shows_piece (Table.piece?_eq_some_iff.mpr ⟨pieces, hp, hin⟩)] at hx
      exact (Table.shows_piece hpiece).mpr (hx.grow g)
    · -- what is shown is known before and after, or there is no piece at either place
      have hbefore : t.Shows R σ id source (source.field w) := by
        refine ht.shows_known hreg hw fun q hq => ?_
        obtain ⟨pieces₀, hp₀, hin⟩ := Table.piece?_eq_some_iff.mp hq
        cases hp.symm.trans hp₀
        by_contra hnone
        have hc : t.constant? q = none := by simpa using hnone
        obtain ⟨⟨_, p⟩, he', rfl⟩ := List.mem_map.mp ((hkeys target).mpr (.inr ⟨_, hin, hm⟩))
        obtain rfl := (hpieces _ he').eq_piece ht hp h0 hin hm h8' hc
        refine hunknown ⟨p, Table.piece?_eq_some_iff.mpr ⟨pieces', hp', he'⟩, ?_⟩
        rw [g.constant? (ht.piece_lt hp hin), hc]
      rw [hx.unique hbefore, ← Direction.field_shift hm hr (h8'.trans h8.symm)]
      refine ht'.shows_known hreg' hmeans fun p hpiece => ?_
      by_contra hnone
      exact hunknown ⟨p, hpiece, by simpa using hnone⟩
  · refine ht'.shows_known hreg' hmeans fun p hpiece => ?_
    by_contra hnone
    obtain ⟨source, hin, h8', hm⟩ := (moved hpiece).exists_source ht hreg hp h8 (by simpa using hnone)
    exact hno source (ht.inWord hp hin) h8' hm

/-- A shift by no bits makes the same hybrid word again. -/
theorem shifted_of_same (ht : t.WellFormed) {id id' : ValueId} {pieces : Pieces} (hp : t.pieces? id = some pieces)
    (hw : t.Means R σ id w) (ht' : t'.WellFormed) (g : t.Grows t') (hp' : t'.pieces? id' = some pieces) :
    Shifted R σ d 0 t t' id id' w := by
  have hmeans : t'.Means R σ id' w := ht'.means_of_hasBits hp' fun e he => (ht.hasBits hp hw he).grow g
  have hsame {source : BitRange} (hr : source.InWord) : d.move? 0 source = some source := by
    have := hr.1
    have := hr.2
    obtain ⟨low, high⟩ := source
    cases d <;> simp only [Direction.move?] at * <;> split <;> simp <;> omega
  refine ⟨by cases d <;> simpa [Direction.shift] using hmeans, fun source target x hr _ _ hm hx => ?_,
    fun target hr h8 hno => absurd (hsame hr) (hno target hr h8)⟩
  obtain rfl := Option.some.inj (hm.symm.trans (hsame hr))
  have hpiece : t'.piece? id' target = t.piece? id target := by rw [Table.piece?, Table.piece?, hp, hp']
  cases hq : t.piece? id target with
  | some q => exact (Table.shows_piece (hpiece.trans hq)).mpr (((Table.shows_piece hq).mp hx).grow g)
  | none => exact (Table.shows_field (hpiece.trans hq) hmeans).mpr ((Table.shows_field hq hw).mp hx)

/-! ### Nothing else becomes hybrid -/

/-- Of what is built before a hybrid word and with it, nothing else is hybrid. -/
theorem Adds.newest {b : Build Pieces} (hb : b.Adds Node.Plain) {id : ValueId} (hid : t.size ≤ id)
    (h : ((b >>= hybrid?) t).2.isHybrid id = true) : Newest ((b >>= hybrid?) t).2 id := by
  have hrun : (b >>= hybrid?) t = hybrid? (b t).1 (b t).2 := rfl
  rw [hrun] at h ⊢
  have hold : (b t).2.isHybrid id = false := (hb t).isHybrid hid
  by_cases tiles : (b t).1.isPartition = true
  · rw [hybrid?_of_isPartition tiles] at h ⊢
    replace h : ((b t).2.push ⟨32, .hybrid (b t).1, _, _⟩).isHybrid id = true := h
    rcases Nat.lt_trichotomy id (b t).2.size with hlt | rfl | hlt
    · rw [Table.isHybrid, (Table.grows_push _ _).pieces? hlt] at h
      rw [Table.isHybrid, h] at hold
      cases hold
    · exact (Table.size_push _ _).symm
    · rw [Table.isHybrid_of_size_le (by rw [Table.size_push]; omega)] at h
      cases h
  · rw [hybrid?_of_not_isPartition tiles] at h
    cases hold.symm.trans h

/-- Of what a shift builds, only the last value is hybrid. -/
theorem newest_shiftHybrid {id : ValueId} {pieces : Pieces} (hp : t.pieces? id = some pieces) {opcode : Opcode}
    (hd : Direction.ofOpcode? opcode = some d) (count : Word) {id' : ValueId} (hid' : t.size ≤ id')
    (h : ((shiftHybrid id opcode count).run t).2.isHybrid id' = true) :
    Newest ((shiftHybrid id opcode count).run t).2 id' := by
  have last {b : Build Pieces} (hb : b.Adds Node.Plain) (hrun : (shiftHybrid id opcode count).run t = (b >>= hybrid?) t) :
      Newest ((shiftHybrid id opcode count).run t).2 id' := by
    rw [hrun] at h ⊢
    exact hb.newest hid' h
  have hrun := shiftHybrid_run hp hd count
  split at hrun
  · exact last (adds_pure pieces) hrun
  · exact last ((adds_movePieces _ _ _).plain.bind fun moved => (makes_bits _).adds.plain.bind fun filling =>
      adds_pure (moved.insert (d.vacated (Opcode.shiftCount count)) filling)) hrun

inductive ShiftedPieces (R : Rules) (σ : Assignment) (w : Word) (t : Table) (pieces : Pieces) (d : Direction)
    (n : Nat) (t' : Table) (pieces' : Pieces) : Prop
  | kept : n = 0 → pieces' = pieces → ShiftedPieces R σ w t pieces d n t' pieces'
  | moved : n ≠ 0 → (∀ e ∈ pieces'.entries, MovedPiece R σ w t pieces d n t' e.1 e.2) →
      (∀ r, r ∈ pieces'.keys ↔ r = d.vacated n ∨ ∃ e ∈ pieces.entries, d.move? n e.1 = some r) →
      ShiftedPieces R σ w t pieces d n t' pieces'

theorem pieces_shiftHybrid (ht : t.WellFormed) (hreg : t.Regular) {id : ValueId} {pieces : Pieces}
    (hp : t.pieces? id = some pieces) (hw : t.Means R σ id w) {opcode : Opcode}
    (hd : Direction.ofOpcode? opcode = some d) (count : Word) :
    (shiftHybrid id opcode count).run.Maintains t fun t' r => ∃ id' pieces', r = .ok id' ∧ Newest t' id' ∧
      t'.pieces? id' = some pieces' ∧ ShiftedPieces R σ w t pieces d (Opcode.shiftCount count) t' pieces' := by
  have hn : Opcode.shiftCount count < 32 := Nat.mod_lt _ (by decide)
  by_cases h0 : Opcode.shiftCount count = 0
  · have hrun := shiftHybrid_run_zero hp opcode h0
    have hshift := (maintains_hybrid? ht (ht.isPartition hp) fun e he => ht.piece_lt hp he).congr hrun
    obtain ⟨id', hid', hnew, hp'⟩ := hshift.post
    exact ⟨hshift.grows, hshift.wellFormed, id', pieces, hid', hnew, hp', .kept h0 rfl⟩
  · have hshift := maintains_shiftHybrid_pieces (P := MovedPiece R σ w t pieces d (Opcode.shiftCount count))
      (fun _ _ _ _ h g => h.grow g) (fun _ _ _ h => h.bits.lt) ht hp hd rfl h0
      (fun e he target hm t' ht' g => movedPiece_movePiece ht hreg hp hw hn he hm ht' g)
      (movedPiece_filling hn h0)
    obtain ⟨id', pieces', hid', hnew, hp', hpieces, hkeys⟩ := hshift.post
    exact ⟨hshift.grows, hshift.wellFormed, id', pieces', hid', hnew, hp', .moved h0 hpieces hkeys⟩

theorem ShiftedPieces.regular (ht : t.WellFormed) (hreg : t.Regular) {id : ValueId} {pieces pieces' : Pieces}
    (hp : t.pieces? id = some pieces) (g : t.Grows t') (h : ShiftedPieces R σ w t pieces d n t' pieces')
    {e : BitRange × ValueId} (he : e ∈ pieces'.entries) : t'.RegularPiece e.1 e.2 := by
  cases h with
  | kept _ hsame =>
    rw [hsame] at he
    exact (hreg id pieces hp e he).grow (ht.piece_lt hp he) g
  | moved _ hpieces _ => exact (hpieces e he).regular

/-- A shifted hybrid word shows its bytes at their new places, however wide they are. -/
theorem shifted_shiftHybrid (ht : t.WellFormed) (hreg : t.Regular) {id : ValueId} {pieces : Pieces}
    (hp : t.pieces? id = some pieces) (hw : t.Means R σ id w) {opcode : Opcode}
    (hd : Direction.ofOpcode? opcode = some d) (count : Word) :
    (shiftHybrid id opcode count).run.Maintains t fun t' r =>
      ∃ id', r = .ok id' ∧ Newest t' id' ∧ t'.Regular ∧ Shifted R σ d (Opcode.shiftCount count) t t' id id' w := by
  have hshift := pieces_shiftHybrid ht hreg hp hw hd count
  have g := hshift.grows
  have ht' := hshift.wellFormed
  obtain ⟨id', pieces', hid', hnew, hp', hpieces⟩ := hshift.post
  have hreg' : ((shiftHybrid id opcode count).run t).2.Regular := by
    refine hreg.grow ht g fun id₀ pieces₀ hid₀ hp₀ e he => ?_
    have hlast := newest_shiftHybrid hp hd count hid₀ (by rw [Table.isHybrid, hp₀]; rfl)
    obtain rfl : id₀ = id' := Nat.succ.inj (hlast.trans hnew.symm)
    cases hp₀.symm.trans hp'
    exact hpieces.regular ht hreg hp g he
  refine ⟨g, ht', id', hid', hnew, hreg', ?_⟩
  cases hpieces with
  | kept h0 hsame =>
    rw [h0]
    exact shifted_of_same ht hp hw ht' g (hsame ▸ hp')
  | moved h0 hmoved hkeys => exact shifted_of_pieces ht hreg hp hw h0 ht' hreg' g hp' hmoved hkeys

end Build

/-! ## Parts of registers -/

namespace RegisterView

variable {t : Table} {owner value : Nat}

/-- A part that is read is not hybrid. -/
theorem isHybrid_extract (hreg : t.Regular) (view : RegisterView) (hpart : view.span ≠ .word) :
    (view.extract owner t).2.isHybrid (view.extract owner t).1 = false := by
  cases hp : t.piece? owner view.span with
  | some piece =>
    rw [extract_of_piece? hp hpart]
    obtain ⟨pieces, hpieces, hin⟩ := Table.piece?_eq_some_iff.mp hp
    exact (hreg owner pieces hpieces _ hin).isHybrid
  | none =>
    have low (range : BitRange) (hnone : t.piece? owner range = none) :
        (extractLow range owner t).2.isHybrid (extractLow range owner t).1 = false := by
      simp only [extractLow, bind, StateT.bind, getThe, MonadStateOf.get, StateT.get, pure, hnone]
      exact Table.isHybrid_push _ rfl
    cases view with
    | full r => exact absurd rfl hpart
    | low16 r | low8 r => exact low _ hp
    | high8 r =>
      simp only [extract, extractHigh, bind, StateT.bind, getThe, MonadStateOf.get, StateT.get, pure, hp]
      exact Table.isHybrid_push _ rfl

theorem regularPiece_of_isSymbol (ht : t.WellFormed) (h : t.isSymbol value = true) {range : BitRange}
    (hwidth : range.width ≤ 8) : t.RegularPiece range value := by
  rw [Table.RegularPiece, constant?_of_isSymbol h]
  unfold Table.isSymbol at h
  cases hv : t.get? value with
  | none => rw [hv] at h; cases h
  | some x =>
    rw [hv] at h
    have hkind : x.kind = .symbol := by simpa using h
    have hconsistent := ht value x hv
    rw [Table.isSymbolic, Table.isHybrid, Table.pieces?, hv]
    refine ⟨hwidth, ?_, ?_⟩ <;> unfold Value.kind at hkind <;> cases hn : x.node <;>
      simp_all [Value.Consistent, Value.pieces?]

/-- Of what a split builds, two known ends and the hybrid word, only the last is hybrid. -/
theorem eq_of_isHybrid_splitAround {word : Word} {id : ValueId} (hid : t.size ≤ id)
    (h : (splitAround word value t).2.isHybrid id = true) : id = (splitAround word value t).1 := by
  have hplain : (do
      let below ← Build.bits ⟨word, ⟨0, 7⟩⟩
      let above ← Build.bits ⟨word, ⟨16, 31⟩⟩
      pure (.ofList [(⟨0, 7⟩, below), (⟨8, 15⟩, value), (⟨16, 31⟩, above)]) : Build Pieces).Adds Node.Plain :=
    (Build.makes_bits _).adds.plain.bind fun _ => (Build.makes_bits _).adds.plain.bind fun _ => Build.adds_pure _
  have hlast : Build.Newest (splitAround word value t).2 id := hplain.newest hid h
  obtain ⟨below, above, t₂, symbolic, known, -, -, -, hrun⟩ := splitAround_run word value t
  rw [hrun] at hlast ⊢
  exact Nat.succ.inj (hlast.trans (Table.size_push _ _))

theorem regular_splitAround (ht : t.WellFormed) (hreg : t.Regular) (hv : value < t.size)
    (hsymbol : t.isSymbol value = true) (word : Word) : (splitAround word value t).2.Regular := by
  have g := (adds_splitAround word value t).grows
  refine hreg.grow ht g fun id pieces hid hp e he => ?_
  obtain rfl := eq_of_isHybrid_splitAround hid (by rw [Table.isHybrid, hp]; rfl)
  have hpiece := Table.piece?_eq_some_iff.mpr ⟨pieces, hp, he⟩
  by_cases hrange : e.1 = ⟨8, 15⟩
  · have hvalue := piece?_splitAround word value t
    rw [← hrange, hpiece] at hvalue
    rw [hrange, Option.some.inj hvalue]
    exact (regularPiece_of_isSymbol ht hsymbol (by decide)).grow hv g
  · rw [Table.RegularPiece, constant?_splitAround word value t hpiece hrange]

/-- A write builds no hybrid word, unless it splits a known word around the value. -/
theorem merge_plain_or_split (t : Table) (owner value : ValueId) (view : RegisterView) :
    (∃ b : Build ValueId, b.Adds Node.Plain ∧ view.merge owner value t = b t) ∨
      t.splits owner value view = true ∧ t.isSymbol value = true ∧
        ∃ word, view.merge owner value t = splitAround word value t := by
  have masked (range : BitRange) : (mergeHigh.mask range owner value).Adds Node.Plain :=
    (Build.makes_merge _ _ _).adds.plain
  cases view with
  | full r => exact .inl ⟨_, Build.adds_pure value, rfl⟩
  | low16 r | low8 r => exact .inl ⟨_, (adds_mergeLow _ _ _).plain, rfl⟩
  | high8 r =>
    have hmerge : merge owner value (.high8 r) t = mergeHigh ⟨8, 15⟩ owner value t := rfl
    rw [hmerge]
    cases hword : t.concrete? owner with
    | none => exact .inl ⟨_, masked _, mergeHigh_run_mask (.inl hword)⟩
    | some word =>
      cases hsymbol : t.isSymbol value with
      | false => exact .inl ⟨_, masked _, mergeHigh_run_mask (.inr hsymbol)⟩
      | true =>
        refine .inr ⟨?_, rfl, word, mergeHigh_run_split hword hsymbol⟩
        rw [Table.splits, hword, hsymbol]
        rfl

theorem regular_merge (ht : t.WellFormed) (hreg : t.Regular) (hv : value < t.size) (owner : ValueId)
    (view : RegisterView) : (view.merge owner value t).2.Regular := by
  obtain ⟨b, hb, hrun⟩ | ⟨-, hsymbol, word, hrun⟩ := view.merge_plain_or_split t owner value
  · rw [hrun]
    exact hb.regular ht hreg
  · rw [hrun]
    exact regular_splitAround ht hreg hv hsymbol word

end RegisterView

end TraceReplay
