/-
  TraceReplay.Proofs.Shifts — what a shift of a hybrid word means, whatever its pieces are.

  A piece of a hybrid word is a number that is placed at the range it stands for. A shift moves
  most pieces as such, but of a constant it moves the word that the constant was cut from, and
  cuts it again at the new range. The word that is shifted is therefore not always the one that
  the pieces make up (`Table.carried`): a constant that was not cut at the range where it stands
  brings other bits along. Proved, of every hybrid word that can be built:
  - the shift succeeds, and its result evaluates whenever the word does, to a shift of the carried
    word (`means_shiftHybrid`);
  - that is the shift of the word itself exactly if every constant piece has, at the bits that stay
    in the word, the bits of the word it was cut from (`a_shift_is_exact_iff_constants_are_in_place`);
    this is so if every constant was cut at its own place.
  A constant that stands elsewhere is lost (`a_constant_out_of_place_is_lost`).
-/

import TraceReplay.Proofs.Regular

namespace TraceReplay

variable {R : Rules} {σ : Assignment}

/-! ## Bits that stay -/

namespace Direction

variable {d : Direction} {n k : Nat}

def Stays (n k : Nat) : Direction → Prop
  | left => k + n < 32
  | right => n ≤ k

instance (n k : Nat) : (d : Direction) → Decidable (d.Stays n k)
  | left => inferInstanceAs (Decidable (k + n < 32))
  | right => inferInstanceAs (Decidable (n ≤ k))

def goal (n k : Nat) : Direction → Nat
  | left => k + n
  | right => k - n

theorem shift_eq_iff {x y : Word} :
    d.shift n x = d.shift n y ↔ ∀ k < 32, d.Stays n k → x.getLsbD k = y.getLsbD k := by
  constructor
  · intro h k hk hstays
    have hbit : (d.shift n x).getLsbD (d.goal n k) = (d.shift n y).getLsbD (d.goal n k) := by rw [h]
    cases d with
    | left =>
      simp only [Stays] at hstays
      simpa only [shift, goal, BitVec.getLsbD_shiftLeft, decide_eq_true hstays, Nat.add_sub_cancel, Bool.true_and,
        decide_eq_false (Nat.not_lt.mpr (Nat.le_add_left n k)), Bool.not_false] using hbit
    | right =>
      simp only [Stays] at hstays
      simpa [shift, goal, Nat.add_sub_cancel' hstays] using hbit
  · intro h
    refine BitVec.eq_of_getLsbD_eq fun k hk => ?_
    cases d with
    | left =>
      simp only [shift, BitVec.getLsbD_shiftLeft]
      by_cases hlow : k < n
      · simp [hlow]
      · rw [h (k - n) (by omega) (by simp only [Stays]; omega)]
    | right =>
      simp only [shift, BitVec.getLsbD_ushiftRight]
      by_cases hhigh : n + k < 32
      · exact h (n + k) hhigh (by simp only [Stays]; omega)
      · rw [BitVec.getLsbD_of_ge _ _ (by omega), BitVec.getLsbD_of_ge _ _ (by omega)]

end Direction

/-! ## The carried word -/

namespace Table

variable {t t' : Table} {w : Word} {id : Nat} {pieces : Pieces}

/-- What a shift of the word `w` takes the bits of a piece from. -/
def carrier (t : Table) (w : Word) (piece : ValueId) : Word :=
  match t.constant? piece with
  | some b => b.word
  | none => w

def carried (t : Table) (pieces : Pieces) (w : Word) : Word :=
  Pieces.union (fun e => e.1.mask &&& t.carrier w e.2) pieces.entries 0

theorem WellFormed.getLsbD_carried (ht : t.WellFormed) (hp : t.pieces? id = some pieces) {e : BitRange × ValueId}
    (he : e ∈ pieces.entries) {k : Nat} (hk : e.1.covers k = true) :
    (t.carried pieces w).getLsbD k = (t.carrier w e.2).getLsbD k := by
  have hmask (e : BitRange × ValueId) (he : e ∈ pieces.entries) (k : Nat) :
      (e.1.mask &&& t.carrier w e.2).getLsbD k = (e.1.covers k && (t.carrier w e.2).getLsbD k) := by
    rw [BitVec.getLsbD_and, BitRange.getLsbD_mask (ht.inWord hp he)]
  have hclear : ∀ e ∈ pieces.entries, ∀ k, e.1.covers k = false → (e.1.mask &&& t.carrier w e.2).getLsbD k = false := by
    intro e he k hk
    rw [hmask e he, hk, Bool.false_and]
  rw [carried, Pieces.getLsbD_union (ht.isPartition hp) hclear he hk, hmask e he, hk]
  simp

/-- The constants of the word have the bits of the words they were cut from, where these stay. -/
def InPlace (t : Table) (pieces : Pieces) (d : Direction) (n : Nat) : Prop :=
  ∀ e ∈ pieces.entries, ∀ b, t.constant? e.2 = some b → ∀ k, e.1.covers k = true → d.Stays n k →
    b.word.getLsbD k = b.value.getLsbD (k - e.1.low)

/-- Constants that were cut at the ranges where they stand are in place. -/
theorem WellFormed.inPlace_of_range_eq (ht : t.WellFormed) (hp : t.pieces? id = some pieces)
    (h : ∀ e ∈ pieces.entries, ∀ b, t.constant? e.2 = some b → b.range = e.1) (d : Direction) (n : Nat) :
    t.InPlace pieces d n := by
  intro e he b hb k hk _
  have hr : b.range.InWord := h e he b hb ▸ ht.inWord hp he
  have hcov := BitRange.covers_iff.mp hk
  have hwidth : k - e.1.low < e.1.width := by
    unfold BitRange.width
    omega
  rw [Bits.value_eq_field hr, BitRange.getLsbD_field hr, h e he b hb, Nat.add_sub_cancel' hcov.1,
    decide_eq_true hwidth, Bool.true_and]

/-- The carried word is shifted as the word is if the constants are in place, and only then. -/
theorem WellFormed.shift_carried_iff (ht : t.WellFormed) (hp : t.pieces? id = some pieces) (hw : t.Means R σ id w)
    (d : Direction) (n : Nat) : d.shift n (t.carried pieces w) = d.shift n w ↔ t.InPlace pieces d n := by
  -- a bit of a constant piece is that of its number
  have hbit {e : BitRange × ValueId} (he : e ∈ pieces.entries) {b : Bits} (hb : t.constant? e.2 = some b) {k : Nat}
      (hk : e.1.covers k = true) : w.getLsbD k = b.value.getLsbD (k - e.1.low) := by
    obtain ⟨x, hx, hbits⟩ := ht.hasBits hp hw he
    obtain ⟨v, hv, hn⟩ := constant?_eq_some_iff.mp hb
    rw [← hbits k hk, hx.unique (means_constant hv hn)]
  rw [Direction.shift_eq_iff]
  constructor
  · intro h e he b hb k hk hstays
    have hk32 : k < 32 := by
      have := (ht.inWord hp he).2
      have := (BitRange.covers_iff.mp hk).2
      omega
    rw [← hbit he hb hk, ← h k hk32 hstays, ht.getLsbD_carried hp he hk, carrier, hb]
  · intro h k hk hstays
    obtain ⟨r, hr, hcov⟩ := Pieces.exists_covers (ht.isPartition hp) (Nat.zero_le k) hk
    obtain ⟨e, he, rfl⟩ := List.mem_map.mp hr
    rw [ht.getLsbD_carried hp he hcov, carrier]
    cases hb : t.constant? e.2 with
    | none => rfl
    | some b => rw [hbit he hb hcov, ← h e he b hb k hcov hstays]

end Table

/-! ## Shifts -/

namespace Build

variable {t t' : Table} {w : Word} {d : Direction} {n : Nat} {id : ValueId} {pieces : Pieces}

/-- A moved piece has the bits of the shifted carried word. -/
theorem hasBits_movePiece (ht : t.WellFormed) (hp : t.pieces? id = some pieces) (hw : t.Means R σ id w) (hn : n < 32)
    {e : BitRange × ValueId} (he : e ∈ pieces.entries) {target : BitRange} (hm : d.move? n e.1 = some target)
    (ht' : t'.WellFormed) (g : t.Grows t') :
    (movePiece d n e.1 target e.2).Maintains t' fun t'' p =>
      t''.HasBits R σ (d.shift n (t.carried pieces w)) target p := by
  have hr := ht.inWord hp he
  have hlt := ht.piece_lt hp he
  have hcarried {k : Nat} (hk : e.1.covers k = true) := ht.getLsbD_carried (w := w) hp he hk
  refine maintains_get ?_
  rw [g.constant? hlt]
  cases hc : t.constant? e.2 with
  | some b =>
    have hnew := maintains_constantOf ht' target.width ⟨d.shift n b.word, target⟩
    refine ⟨hnew.grows, hnew.wellFormed, ?_⟩
    refine Table.hasBits_constant (b := ⟨_, target⟩) (Table.constant?_push_self t' _) (Direction.move?_inWord hm hr)
      fun k hk => ?_
    obtain ⟨hcov, hshift⟩ := Direction.covers_origin hm hr hk
    rw [hshift, hshift, hcarried hcov, Table.carrier, hc]
  | none =>
    -- any other piece has the bits of the carried word already
    have hbits : t'.HasBits R σ (t.carried pieces w) e.1 e.2 := by
      obtain ⟨x, hx, hbits⟩ := (ht.hasBits hp hw he).grow g
      refine ⟨x, hx, fun k hk => ?_⟩
      rw [hbits k hk, hcarried hk, Table.carrier, hc]
    simp only
    split
    · rename_i hlost
      obtain ⟨rfl, hlow⟩ := hlost
      have hshr := maintains_withConstant ht' .shr (g.lt hlt) (BitVec.ofNat 32 (n - e.1.low))
      exact ⟨hshr.grows, hshr.wellFormed, (hasBits_lostBits hbits hr hn hm hlow).post⟩
    · rename_i hkept
      exact maintains_pure ht' (hasBits_moved hbits hr hm hkept)

/-- The result of a shift means the shifted carried word. -/
theorem means_shiftHybrid (ht : t.WellFormed) (hp : t.pieces? id = some pieces) {opcode : Opcode}
    (hd : Direction.ofOpcode? opcode = some d) {count : Word} (hn : Opcode.shiftCount count = n) (h0 : n ≠ 0)
    (hw : t.Means R σ id w) :
    (shiftHybrid id opcode count).run.Maintains t fun t' r =>
      ∃ id', r = .ok id' ∧ t'.Means R σ id' (d.shift n (t.carried pieces w)) := by
  have hn32 : n < 32 := hn ▸ Nat.mod_lt _ (by decide)
  have hrun := maintains_shiftHybrid_pieces (P := fun t' r p => t'.HasBits R σ (d.shift n (t.carried pieces w)) r p)
    (fun _ _ _ _ h g => h.grow g) (fun _ _ _ h => h.lt) ht hp hd hn h0
    (fun e he target hm t' ht' g => hasBits_movePiece ht hp hw hn32 he hm ht' g) fun t' => ?_
  · refine ⟨hrun.grows, hrun.wellFormed, ?_⟩
    obtain ⟨id', pieces', hid', -, hp', hbits, -⟩ := hrun.post
    exact ⟨id', hid', hrun.wellFormed.means_of_hasBits hp' hbits⟩
  · refine Table.hasBits_constant (b := ⟨0, d.vacated n⟩) (Table.constant?_push_self t' _)
      (Direction.vacated_inWord hn32 h0) fun k hk => ?_
    rw [Direction.shift_vacated hn32 h0 hk]
    exact BitVec.getLsbD_zero

/-- A shift by no bits gives the word again. -/
theorem means_shiftHybrid_zero (ht : t.WellFormed) (hp : t.pieces? id = some pieces) (opcode : Opcode) {count : Word}
    (h0 : Opcode.shiftCount count = 0) (hw : t.Means R σ id w) :
    (shiftHybrid id opcode count).run.Maintains t fun t' r => ∃ id', r = .ok id' ∧ t'.Means R σ id' w := by
  have hrun := (maintains_hybrid? ht (ht.isPartition hp) fun e he => ht.piece_lt hp he).congr
    (shiftHybrid_run_zero hp opcode h0)
  refine ⟨hrun.grows, hrun.wellFormed, ?_⟩
  obtain ⟨id', hid', -, hp'⟩ := hrun.post
  exact ⟨id', hid', hrun.wellFormed.means_of_hasBits hp' fun e he => (ht.hasBits hp hw he).grow hrun.grows⟩

end Build

namespace Table

/-- A shift of any hybrid word that can be built. It succeeds, and its result evaluates whenever the
    word does. By some bits, it evaluates to a shift of the carried word, which is what the opcode
    gives on the word exactly if the constants are in place, as those are that were cut where they
    stand. -/
theorem a_shift_is_exact_iff_constants_are_in_place (cs : List Construction) (h : empty.Admits cs) (id : ValueId)
    (pieces : Pieces) (hp : (empty.construct cs).pieces? id = some pieces) (opcode : Opcode) (d : Direction)
    (hd : Direction.ofOpcode? opcode = some d) (count : Word) :
    let t := empty.construct cs
    let n := Opcode.shiftCount count
    let shifted := (Build.shiftHybrid id opcode count).run t
    ∃ id', shifted.1 = .ok id' ∧ ∀ σ w, t.eval σ id = .ok w → ∃ w', shifted.2.eval σ id' = .ok w' ∧
      (n ≠ 0 → w' = d.shift n (t.carried pieces w)) ∧
      (opcode.apply [w, count] = some w' ↔ n = 0 ∨ t.InPlace pieces d n) ∧
      ((∀ e ∈ pieces.entries, ∀ b, t.constant? e.2 = some b → b.range = e.1) → opcode.apply [w, count] = some w') := by
  intro t n shifted
  have ht : t.WellFormed := construct_wellFormed wellFormed_empty h
  obtain ⟨id', hid', -⟩ := (Build.maintains_shiftHybrid ht hp hd count).post
  refine ⟨id', hid', fun σ w hw => ?_⟩
  obtain ⟨v, hv, -⟩ := pieces?_eq_some_iff.mp hp
  have hmeans : t.Means .standard σ id w := ⟨lt_of_get? hv, hw⟩
  rw [Direction.apply_eq hd]
  by_cases h0 : n = 0
  · obtain ⟨id'', hid'', hw'⟩ := (Build.means_shiftHybrid_zero ht hp opcode h0 hmeans).post
    cases hid'.symm.trans hid''
    have hsame : d.shift n w = w := by rw [h0, Direction.shift_zero]
    have happly : some (d.shift (Opcode.shiftCount count) w) = some w := congrArg some hsame
    exact ⟨w, hw'.2, fun hne => absurd h0 hne, ⟨fun _ => .inl h0, fun _ => happly⟩, fun _ => happly⟩
  · obtain ⟨id'', hid'', hw'⟩ := (Build.means_shiftHybrid ht hp hd rfl h0 hmeans).post
    cases hid'.symm.trans hid''
    have hiff := ht.shift_carried_iff hp hmeans d n
    refine ⟨_, hw'.2, fun _ => rfl, ?_, fun hranges => ?_⟩
    · rw [Option.some_inj, eq_comm, or_iff_right h0]
      exact hiff
    · rw [Option.some_inj]
      exact (hiff.mpr (ht.inPlace_of_range_eq hp hranges d n)).symm

def misplaced : List Construction :=
  [.symbol 8, .constant 5, .hybrid (.ofList [(⟨0, 7⟩, 0), (⟨8, 31⟩, 1)])]

/-- Shifted left by a byte, the constant 5 above the byte is gone: what was 0x501 becomes 0x100. -/
theorem a_constant_out_of_place_is_lost :
    empty.Admits misplaced ∧
    (empty.construct misplaced).pieces? 2 = some (.ofList [(⟨0, 7⟩, 0), (⟨8, 31⟩, 1)]) ∧
    Direction.ofOpcode? .shl = some .left ∧
    (empty.construct misplaced).eval (fun _ => 1) 2 = .ok 0x501 ∧
    ∃ id', ((Build.shiftHybrid 2 .shl 8).run (empty.construct misplaced)).1 = .ok id' ∧
      ((Build.shiftHybrid 2 .shl 8).run (empty.construct misplaced)).2.eval (fun _ => 1) id' = .ok 0x100 ∧
      Opcode.apply .shl [0x501, 8] ≠ some 0x100 := by
  have hadmits : empty.Admits misplaced := ⟨by decide, by decide, by decide, trivial⟩
  have hpieces : (empty.construct misplaced).pieces? 2 = some (.ofList [(⟨0, 7⟩, 0), (⟨8, 31⟩, 1)]) := by decide
  have heval : (empty.construct misplaced).eval (fun _ => 1) 2 = .ok 0x501 := by decide +kernel
  obtain ⟨id', hid', hshift⟩ := a_shift_is_exact_iff_constants_are_in_place misplaced hadmits 2 _ hpieces .shl .left rfl 8
  obtain ⟨w', hw', hcarried, hexact, -⟩ := hshift (fun _ => 1) 0x501 heval
  have hword : w' = 0x100 := (hcarried (by decide)).trans (by decide)
  have hplace : ¬ (empty.construct misplaced).InPlace (.ofList [(⟨0, 7⟩, 0), (⟨8, 31⟩, 1)]) .left 8 := fun h =>
    absurd (h (⟨8, 31⟩, 1) (by decide) ⟨5, .lowBits 32⟩ (by decide) 8 (by decide) (by decide)) (by decide)
  subst hword
  exact ⟨hadmits, hpieces, rfl, heval, id', hid', hw', fun happly => (hexact.mp happly).elim (by decide) hplace⟩

end Table

end TraceReplay
