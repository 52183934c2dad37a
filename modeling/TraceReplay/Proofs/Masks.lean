/-
  TraceReplay.Proofs.Masks — when a mask makes a constant of a hybrid word.

  Masking goes over the pieces one by one. A piece that depends on an input contributes only if
  the mask decides every bit of its range, any other piece only if its word is known, and the
  first that contributes nothing ends it. Proved, of every value of every table that constructions
  build (`a_mask_folds_exactly_what_it_decides`):
  - there is a result exactly if the value is hybrid, the opcode is `and` or `or`, and every piece
    contributes (`Table.Decided`);
  - the result is one new constant of a whole word, and that is what the opcode gives on the word
    of the value and the mask, wherever the value has a word;
  - otherwise nothing is built.

  That a word of pieces which are all known folds under no other opcode rests on the partition:
  there is at least one piece to refuse it.
-/

import TraceReplay.Proofs.Construction

namespace TraceReplay

/-! ## What a mask decides -/

namespace BitRange

variable {r : BitRange} {mask : Word}

theorem and_mask_eq_zero_iff (h : r.InWord) :
    mask &&& r.mask = 0 ↔ ∀ k, r.covers k = true → mask.getLsbD k = false := by
  constructor
  · intro hzero k hk
    have hbit : (mask &&& r.mask).getLsbD k = false := by rw [hzero]; exact BitVec.getLsbD_zero
    rw [BitVec.getLsbD_and, getLsbD_mask h, hk, Bool.and_true] at hbit
    exact hbit
  · intro hclear
    refine BitVec.eq_of_getLsbD_eq fun k _ => ?_
    rw [BitVec.getLsbD_and, getLsbD_mask h]
    cases hk : r.covers k with
    | false => simp
    | true => simp [hclear k hk]

theorem and_mask_eq_mask_iff (h : r.InWord) :
    mask &&& r.mask = r.mask ↔ ∀ k, r.covers k = true → mask.getLsbD k = true := by
  constructor
  · intro hones k hk
    have hbit : (mask &&& r.mask).getLsbD k = r.mask.getLsbD k := by rw [hones]
    rw [BitVec.getLsbD_and, getLsbD_mask h, hk, Bool.and_true] at hbit
    exact hbit
  · intro hset
    refine BitVec.eq_of_getLsbD_eq fun k _ => ?_
    rw [BitVec.getLsbD_and, getLsbD_mask h]
    cases hk : r.covers k with
    | false => simp
    | true => simp [hset k hk]

end BitRange

namespace Opcode

def Forces (opcode : Opcode) (mask : Word) (range : BitRange) : Prop :=
  match opcode with
  | .and => ∀ k, range.covers k = true → mask.getLsbD k = false
  | .or => ∀ k, range.covers k = true → mask.getLsbD k = true
  | _ => False

end Opcode

namespace Table

/-- The mask leaves nothing of the word open: it forces the bits of the pieces that depend on
    inputs, and the words of the others are known. -/
structure Decided (t : Table) (opcode : Opcode) (mask : Word) (pieces : Pieces) : Prop where
  masks : opcode = .and ∨ opcode = .or
  forced : ∀ e ∈ pieces.entries, t.isSymbolic e.2 = true → opcode.Forces mask e.1
  known : ∀ e ∈ pieces.entries, t.isSymbolic e.2 = false → ∃ w, t.known e.2 = some w

end Table

namespace Build

variable {t : Table} {opcode : Opcode} {mask : Word} {range : BitRange} {piece id : ValueId} {pieces : Pieces}

/-! ## Pieces -/

theorem maskedPiece?_isSome_iff_of_symbolic (hr : range.InWord) (hs : t.isSymbolic piece = true) :
    (maskedPiece? t opcode mask range piece).isSome ↔ opcode.Forces mask range := by
  unfold maskedPiece?
  rw [if_pos hs]
  cases opcode with
  | and =>
    simp only [Opcode.Forces, ← BitRange.and_mask_eq_zero_iff hr]
    split <;> simp_all
  | or =>
    simp only [Opcode.Forces, ← BitRange.and_mask_eq_mask_iff hr]
    split <;> simp_all
  | _ => simp [Opcode.Forces]

theorem maskedPiece?_isSome_iff_of_known (hs : t.isSymbolic piece = false) :
    (maskedPiece? t opcode mask range piece).isSome ↔
      (opcode = .and ∨ opcode = .or) ∧ ∃ w, t.known piece = some w := by
  unfold maskedPiece?
  rw [if_neg (by simp [hs])]
  cases t.known piece with
  | none => cases opcode <;> simp
  | some w => cases opcode <;> simp

/-- Only two opcodes let a piece contribute. -/
theorem masks_of_maskedPiece? (h : (maskedPiece? t opcode mask range piece).isSome) :
    opcode = .and ∨ opcode = .or := by
  cases hs : t.isSymbolic piece with
  | false => exact ((maskedPiece?_isSome_iff_of_known hs).mp h).1
  | true =>
    unfold maskedPiece? at h
    rw [if_pos hs] at h
    cases opcode with
    | and => exact .inl rfl
    | or => exact .inr rfl
    | _ => cases h

/-! ## Words -/

theorem maskedWord?_isSome_iff (tiles : pieces.isPartition = true) :
    (maskedWord? t opcode mask pieces).isSome ↔ t.Decided opcode mask pieces := by
  have hin (e : BitRange × ValueId) (he : e ∈ pieces.entries) : e.1.InWord :=
    (Pieces.mem_tile tiles (List.mem_map.mpr ⟨e, he, rfl⟩)).2
  rw [maskedWord?, isSome_foldlM_union_iff (f := fun e : BitRange × ValueId => maskedPiece? t opcode mask e.1 e.2)]
  constructor
  · intro h
    refine ⟨?_, fun e he hs => ?_, fun e he hs => ?_⟩
    · -- some piece covers the lowest bit
      obtain ⟨r, hr, -⟩ := Pieces.exists_covers tiles (Nat.zero_le 0) (by decide)
      obtain ⟨e, he, -⟩ := List.mem_map.mp hr
      exact masks_of_maskedPiece? (h e he)
    · exact (maskedPiece?_isSome_iff_of_symbolic (hin e he) hs).mp (h e he)
    · exact ((maskedPiece?_isSome_iff_of_known hs).mp (h e he)).2
  · intro h e he
    cases hs : t.isSymbolic e.2 with
    | true => exact (maskedPiece?_isSome_iff_of_symbolic (hin e he) hs).mpr (h.forced e he hs)
    | false => exact (maskedPiece?_isSome_iff_of_known hs).mpr ⟨h.masks, h.known e he hs⟩

theorem exists_apply_of_masks (h : opcode = .and ∨ opcode = .or) (w mask : Word) :
    ∃ masked, opcode.apply [w, mask] = some masked := by
  rcases h with rfl | rfl
  · exact ⟨_, rfl⟩
  · exact ⟨_, rfl⟩

/-! ## Values -/

def wordValue (word : Word) : Value := ⟨32, .constant ⟨word, .word⟩, false, some word⟩

theorem foldMask_run_some {word : Word} (h : (t.pieces? id).bind (maskedWord? t opcode mask) = some word) :
    foldMask id opcode mask t = (some t.size, t.push (wordValue word)) := by
  have hvalue : Bits.value ⟨word, .word⟩ = word := Bits.value_word word
  rw [foldMask, h]
  show (some t.size, t.push ⟨32, .constant ⟨word, .word⟩, false, some (Bits.value ⟨word, .word⟩)⟩) = _
  rw [hvalue, wordValue]

theorem foldMask_run_none (h : (t.pieces? id).bind (maskedWord? t opcode mask) = none) :
    foldMask id opcode mask t = (none, t) := by
  rw [foldMask, h]

end Build

namespace Table

open Build (wordValue)

/-- A mask on any value that can be built. It gives a value exactly if the value is hybrid and the
    mask decides it; that is one new constant, with the word that the opcode gives on any word the
    value may have. Otherwise nothing is built. -/
theorem a_mask_folds_exactly_what_it_decides (cs : List Construction) (h : empty.Admits cs) (id : ValueId)
    (opcode : Opcode) (mask : Word) :
    let t := empty.construct cs
    let folded := Build.foldMask id opcode mask t
    ((∃ id', folded.1 = some id') ↔ ∃ pieces, t.pieces? id = some pieces ∧ t.Decided opcode mask pieces) ∧
    (∀ id', folded.1 = some id' → id' = t.size ∧ ∃ word, folded.2 = t.push (wordValue word) ∧
      ∀ σ w, t.eval σ id = .ok w → opcode.apply [w, mask] = some word) ∧
    (folded.1 = none → folded.2 = t) := by
  intro t folded
  have ht : t.WellFormed := construct_wellFormed wellFormed_empty h
  cases hm : (t.pieces? id).bind (Build.maskedWord? t opcode mask) with
  | none =>
    have hrun : folded = (none, t) := Build.foldMask_run_none hm
    rw [hrun]
    refine ⟨⟨nofun, fun hdecided => ?_⟩, nofun, fun _ => rfl⟩
    obtain ⟨pieces, hp, hdecided⟩ := hdecided
    have hsome := (Build.maskedWord?_isSome_iff (ht.isPartition hp)).mpr hdecided
    rw [hp, Option.bind_some] at hm
    rw [hm] at hsome
    cases hsome
  | some word =>
    have hrun : folded = (some t.size, t.push (wordValue word)) := Build.foldMask_run_some hm
    obtain ⟨pieces, hp, hword⟩ := Option.bind_eq_some_iff.mp hm
    have hdecided := (Build.maskedWord?_isSome_iff (ht.isPartition hp)).mp (Option.isSome_of_mem hword)
    rw [hrun]
    refine ⟨⟨fun _ => ⟨pieces, hp, hdecided⟩, fun _ => ⟨_, rfl⟩⟩, fun id' hid' => ?_, nofun⟩
    refine ⟨(Option.some.inj hid').symm, word, rfl, fun σ w hw => ?_⟩
    obtain ⟨v, hv, -⟩ := pieces?_eq_some_iff.mp hp
    have hmeans : t.Means .standard σ id w := ⟨lt_of_get? hv, hw⟩
    obtain ⟨masked, hmasked⟩ := Build.exists_apply_of_masks hdecided.masks w mask
    rw [hmasked, Build.maskedWord?_eq ht hp hmeans hword hmasked]

/-- An unknown byte within a known word, and the same word with an operation that has no rule above
    the byte. -/
def maskedWords : List Construction :=
  [.symbol 8, .bits ⟨0x12345678, ⟨0, 7⟩⟩, .bits ⟨0x12345678, ⟨16, 31⟩⟩,
    .hybrid (.ofList [(⟨0, 7⟩, 1), (⟨8, 15⟩, 0), (⟨16, 31⟩, 2)]), .unary .dec 2,
    .hybrid (.ofList [(⟨0, 7⟩, 1), (⟨8, 15⟩, 0), (⟨16, 31⟩, 4)])]

/-- Both opcodes fold the word where the mask decides the byte. They fold nothing if a bit of the
    byte is left, or if a part without inputs has no word, even one that the mask clears. -/
theorem a_mask_over_an_unknown_byte :
    empty.Admits maskedWords ∧
    (Build.foldMask 3 .and 0xffff00ff (empty.construct maskedWords)).2 =
      (empty.construct maskedWords).push (wordValue 0x12340078) ∧
    (Build.foldMask 3 .or 0xff01 (empty.construct maskedWords)).2 =
      (empty.construct maskedWords).push (wordValue 0x1234ff79) ∧
    (Build.foldMask 3 .and 0x100 (empty.construct maskedWords)).2 = empty.construct maskedWords ∧
    (Build.foldMask 5 .and 0 (empty.construct maskedWords)).2 = empty.construct maskedWords := by
  have hadmits : empty.Admits maskedWords :=
    ⟨by decide, by decide, by decide, by decide, by decide, by decide, trivial⟩
  have heval : (empty.construct maskedWords).eval (fun _ => 0xab) 3 = .ok 0x1234ab78 := by decide +kernel
  have hand := a_mask_folds_exactly_what_it_decides maskedWords hadmits 3 .and 0xffff00ff
  have hor := a_mask_folds_exactly_what_it_decides maskedWords hadmits 3 .or 0xff01
  have hleft := a_mask_folds_exactly_what_it_decides maskedWords hadmits 3 .and 0x100
  have hunknown := a_mask_folds_exactly_what_it_decides maskedWords hadmits 5 .and 0
  obtain ⟨-, word, hword, happly⟩ := hand.2.1 6 (by decide +kernel)
  obtain ⟨-, word', hword', happly'⟩ := hor.2.1 6 (by decide +kernel)
  obtain rfl : word = 0x12340078 := Option.some.inj ((happly _ _ heval).symm.trans (by decide))
  obtain rfl : word' = 0x1234ff79 := Option.some.inj ((happly' _ _ heval).symm.trans (by decide))
  exact ⟨hadmits, hword, hword', hleft.2.2 (by decide +kernel), hunknown.2.2 (by decide +kernel)⟩

end Table

end TraceReplay
