/-
  TraceReplay.Proofs.Replay.Frame — what an instruction leaves alone.

  A write to a part of a register, or inside a stored cell, moves the whole word of the value to
  its place and keeps the old bits elsewhere under a mask. So beside the place a bit stays as it
  was, unless the word is too wide and has a bit set that comes to lie there (`BitRange.spill`).
  Only a known word that is split around an unknown byte takes no harm (`Table.splits`).

  `Home` names what keeps a value: a register or a stored range. One write changes a bit beside
  its place by its spill only (`Session.write_keeps`), and so do the writes of an instruction in
  a row (`Session.commit_keeps`); before them nothing is changed (`Replay.prepare_places`). The
  result is `bits_beside_the_destinations_change_only_by_a_carry`, for every reachable session.
  Such a change is real (`a_negated_byte_carries_into_its_register`).
-/

import TraceReplay.Proofs.Replay.Shape

namespace TraceReplay


variable {R : Rules} {σ : Assignment} {t : Table}

/-! ## What a merge keeps -/

/-- A value merged under a mask has a word only if both parts have. -/
theorem Memory.writeLane_inv {stored value : Nat} {lane : BitRange} {w' : Word} (ht : t.WellFormed)
    (hs : stored < t.size) (hv : value < t.size)
    (h : (writeLane stored value lane t).2.Means R σ (writeLane stored value lane t).1 w') :
    ∃ w x, t.Means R σ stored w ∧ t.Means R σ value x := by
  have h₁ := Build.maintains_constant ht (~~~lane.mask)
  have h₂ := Build.maintains_binary h₁.wellFormed .and (h₁.grows.lt hs) h₁.post
  have h₃ := Build.maintains_constant h₂.wellFormed (BitVec.ofNat 32 lane.low)
  have hv₃ := (h₁.grows.trans (h₂.grows.trans h₃.grows)).lt hv
  have h₄ := Build.maintains_binary h₃.wellFormed .shl hv₃ h₃.post
  obtain ⟨kept, moved, hkept, hmoved, -⟩ := Build.binary_inv ((h₃.grows.trans h₄.grows).lt h₂.post) h₄.post h
  obtain ⟨w, -, hw, -⟩ := Build.binary_inv (h₁.grows.lt hs) h₁.post (hkept.of_grows (h₃.grows.trans h₄.grows) h₂.post)
  obtain ⟨x, -, hx, -⟩ := Build.binary_inv hv₃ h₃.post hmoved
  exact ⟨w, x, hw.of_grows h₁.grows hs, hx.of_grows (h₁.grows.trans (h₂.grows.trans h₃.grows)) hv⟩

theorem RegisterView.mergeLow_inv {owner value : Nat} {range : BitRange} {w' : Word} (ht : t.WellFormed)
    (ho : owner < t.size) (hv : value < t.size)
    (h : (mergeLow range owner value t).2.Means R σ (mergeLow range owner value t).1 w') :
    ∃ w x, t.Means R σ owner w ∧ t.Means R σ value x := by
  have h₁ := Build.maintains_constant ht (~~~range.mask)
  have h₂ := Build.maintains_binary h₁.wellFormed .and (h₁.grows.lt ho) h₁.post
  have g₂ := h₁.grows.trans h₂.grows
  obtain ⟨kept, x, hkept, hx, -⟩ := Build.binary_inv h₂.post (g₂.lt hv) h
  obtain ⟨w, -, hw, -⟩ := Build.binary_inv (h₁.grows.lt ho) h₁.post hkept
  exact ⟨w, x, hw.of_grows h₁.grows ho, hx.of_grows g₂ hv⟩

/-- Splitting a known word leaves it alone but for the byte. -/
theorem RegisterView.splitAround_keeps {value : Nat} {word w' : Word} (ht : t.WellFormed) (hv : value < t.size)
    (h : (splitAround word value t).2.Means R σ (splitAround word value t).1 w') {k : Nat} (hk : k < 32)
    (hout : BitRange.covers ⟨8, 15⟩ k = false) : w'.getLsbD k = word.getLsbD k := by
  have hwf := (maintains_splitAround ht hv word).wellFormed
  obtain ⟨pieces, hp, -⟩ := Table.piece?_eq_some_iff.mp (piece?_splitAround word value t)
  have htiles := hwf.isPartition hp
  obtain ⟨range, hin, hcov⟩ := Pieces.exists_covers htiles (Nat.zero_le k) hk
  obtain ⟨e, he, rfl⟩ := List.mem_map.mp hin
  -- the piece that has the bit is not the byte, so it is known
  have hne : e.1 ≠ ⟨8, 15⟩ := by
    intro heq
    rw [heq, hout] at hcov
    cases hcov
  have hconstant := constant?_splitAround word value t (Table.piece?_eq_some_iff.mpr ⟨pieces, hp, he⟩) hne
  exact ((hwf.hasBits hp h he).known_bits (Pieces.mem_tile htiles hin).2 hconstant rfl hcov).symm

def Table.spill (t : Table) (σ : Assignment) (value : ValueId) (range : BitRange) : Word :=
  match t.eval σ value with
  | .ok x => range.spill x
  | .error _ => 0

theorem Table.spill_eq {value : Nat} {x : Word} (h : t.Means .standard σ value x) (range : BitRange) :
    t.spill σ value range = range.spill x := by
  rw [spill, ← evalWith_standard, h.2]

theorem Table.spill_eq_zero {value : Nat} {range : BitRange} (hr : range.InWord)
    (h : ∀ x, t.eval σ value = .ok x → x.toNat < 2 ^ range.width) : t.spill σ value range = 0 := by
  unfold Table.spill
  split
  · exact BitRange.spill_eq_zero_of_lt hr (h _ ‹_›)
  · rfl

/-- Bits outside the view are as before, but for what is spilled there unless the word is split. -/
theorem RegisterView.merge_keeps {owner value : Nat} {w' : Word} (ht : t.WellFormed) (ho : owner < t.size)
    (hv : value < t.size) (view : RegisterView) {k : Nat} (hk : k < 32) (hout : view.span.covers k = false)
    (h : (view.merge owner value t).2.Means .standard σ (view.merge owner value t).1 w') :
    ∃ w, t.Means .standard σ owner w ∧ w'.getLsbD k =
      (w.getLsbD k || (if t.splits owner value view then 0 else t.spill σ value view.span).getLsbD k) := by
  have hspan := view.span_inWord
  -- a merge under a mask
  have masked {b : Build ValueId} {w x : Word} (hw : t.Means .standard σ owner w) (hx : t.Means .standard σ value x)
      (hb : b.Gives .standard σ t (view.span.merge w x)) (h : (b t).2.Means .standard σ (b t).1 w') :
      ∃ w, t.Means .standard σ owner w ∧ w'.getLsbD k = (w.getLsbD k || (t.spill σ value view.span).getLsbD k) := by
    refine ⟨w, hw, ?_⟩
    rw [h.unique hb.post, BitRange.getLsbD_merge hspan w x hk hout, Table.spill_eq hx]
  cases view with
  | full r =>
    exfalso
    simp only [span, BitRange.covers_eq_false_iff] at hout
    omega
  | low16 r | low8 r =>
    obtain ⟨w, x, hw, hx⟩ := mergeLow_inv ht ho hv h
    exact masked hw hx (gives_mergeLow hw hx rfl) h
  | high8 r =>
    have hmask (hs : t.concrete? owner = none ∨ t.isSymbol value = false) :
        ∃ w, t.Means .standard σ owner w ∧
          w'.getLsbD k = (w.getLsbD k || (t.spill σ value (RegisterView.high8 r).span).getLsbD k) := by
      have hrun : mergeHigh ⟨8, 15⟩ owner value t = Memory.writeLane owner value ⟨8, 15⟩ t := mergeHigh_run_mask hs
      replace h : (mergeHigh ⟨8, 15⟩ owner value t).2.Means .standard σ (mergeHigh ⟨8, 15⟩ owner value t).1 w' := h
      rw [hrun] at h
      obtain ⟨w, x, hw, hx⟩ := Memory.writeLane_inv ht ho hv h
      exact masked hw hx (Build.gives_merge hw hx hspan) h
    cases hword : t.concrete? owner with
    | none =>
      rw [Table.splits, hword]
      exact hmask (.inl hword)
    | some word =>
      cases hsymbol : t.isSymbol value with
      | false =>
        rw [Table.splits, hword, hsymbol]
        exact hmask (.inr hsymbol)
      | true =>
        have hrun : mergeHigh ⟨8, 15⟩ owner value t = splitAround word value t := mergeHigh_run_split hword hsymbol
        replace h : (mergeHigh ⟨8, 15⟩ owner value t).2.Means .standard σ (mergeHigh ⟨8, 15⟩ owner value t).1 w' := h
        rw [hrun] at h
        obtain ⟨x, hx, hknown⟩ := Option.bind_eq_some_iff.mp hword
        split at hknown
        · refine ⟨word, ht.means_of_known (Option.bind_eq_some_iff.mpr ⟨x, hx, hknown⟩), ?_⟩
          rw [splitAround_keeps ht hv h hk hout, Table.splits, hword, hsymbol]
          simp
        · cases hknown

/-! ## Bytes and lanes -/

namespace AddressRange

variable {cell access : AddressRange} {k : Nat}

def byteOf (cell : AddressRange) (k : Nat) : Word := cell.first + BitVec.ofNat 32 (k / 8)

/-- A lane covers the bits of the bytes that are accessed. -/
theorem lane_covers_iff (hc : cell.Small) (h : cell.contains access = true) (ha : access.first ≤ access.last)
    (hk : k < 32) (hcell : cell.Has (cell.byteOf k)) :
    (Memory.lane cell access).covers k = true ↔ access.Has (cell.byteOf k) := by
  obtain ⟨ho, hle⟩ := hc.offset h ha
  have hsize := (hc.of_contains h ha).size
  have hpos := (hc.of_contains h ha).size_pos
  have hfirst := cell.first.isLt
  have hlast := cell.last.isLt
  have hbyte : (cell.byteOf k).toNat = (cell.first.toNat + k / 8) % 2 ^ 32 := by
    simp only [byteOf, BitVec.toNat_add, BitVec.toNat_ofNat]
    omega
  have hsmall := hc.2
  rw [contains_iff] at h
  simp only [Has, BitVec.le_def] at hcell ha h ⊢
  rw [BitRange.covers_iff]
  simp only [Memory.lane, ho]
  omega

end AddressRange

/-! ## Where values are kept -/

inductive Home where
  | register (r : Register)
  | cell (range : AddressRange)

def Home.Has (k : Nat) : Home → Prop
  | register _ => k < 32
  | cell range => k < 32 ∧ range.Has (range.byteOf k)

def Place.Covers (k : Nat) : Place → Home → Prop
  | .register view, .register r => view.owner = r ∧ view.span.covers k = true
  | .memory address bytes, .cell range =>
    ∃ access, AddressRange.ofAccess? address bytes = some access ∧ access.Has (range.byteOf k)
  | _, _ => False

namespace Session

def valueAt (s : Session) : Home → Option ValueId
  | .register r => s.registers.get? r
  | .cell range => s.memory.get? range

/-- What a write of the value sets in the word that is kept there, outside of the place. -/
def spill (s : Session) (σ : Assignment) (value : ValueId) : Place → Home → Word
  | .register view, .register r =>
    match s.registers.get? r with
    | some owner =>
      if view.owner ≠ r ∨ s.table.splits owner value view then 0 else s.table.spill σ value view.span
    | none => 0
  | .memory address bytes, .cell range =>
    match AddressRange.ofAccess? address bytes with
    | some access =>
      if range.contains access ∧ range.size ≤ 4 then s.table.spill σ value (Memory.lane range access) else 0
    | none => 0
  | _, _ => 0

/-- What the writes, one after the other, set outside of their places. -/
def carry (s : Session) (σ : Assignment) (home : Home) : List (Place × ValueId) → Word
  | [] => 0
  | (place, value) :: rest =>
    s.spill σ value place home ||| ((Replay.write value place).after s).carry σ home rest

variable {s s' : Session} {σ : Assignment} {home : Home} {place : Place} {id value k : Nat}

theorem Sound.valueAt_lt (h : s.Sound) (hid : s.valueAt home = some id) : id < s.table.size := by
  cases home with
  | register r => exact h.registers_lt r id hid
  | cell range => exact h.cells_lt _ (SortedMap.get?_eq_some_iff.mp hid)

/-- What is kept there afterwards has the bit of what was kept there before, or what is spilled. -/
def KeepsBit (σ : Assignment) (k : Nat) (home : Home) (spilled : Word) (s s' : Session) (id : ValueId) : Prop :=
  ∃ id', s'.valueAt home = some id' ∧ ∀ w', s'.table.Means .standard σ id' w' →
    ∃ w, s.table.Means .standard σ id w ∧ w'.getLsbD k = (w.getLsbD k || spilled.getLsbD k)

theorem Sound.keepsBit_same (h : s.Sound) (hid : s.valueAt home = some id) (hid' : s'.valueAt home = some id)
    (g : s.table.Grows s'.table) : KeepsBit σ k home 0 s s' id := by
  refine ⟨id, hid', fun w hw => ⟨w, hw.of_grows g (h.valueAt_lt hid), ?_⟩⟩
  simp

/-- A write to a view changes its owner, and otherwise the table only. -/
theorem writeRegister_set {view : RegisterView} (h : Replay.writeRegister view value s = .ok () s') :
    ∃ new, s' = { s with table := s'.table, registers := s.registers.set view.owner new } := by
  obtain ⟨_, _, hplan, -⟩ := Replay.bind_ok (Replay.get_bind_ok h)
  obtain ⟨b, hb, -⟩ := Replay.plan_ok hplan
  rcases Replay.full_or_owner hb with ⟨r, rfl⟩ | ⟨owner, ho⟩
  · cases h
    exact ⟨value, rfl⟩
  · rw [Replay.writeRegister_ok ho h]
    exact ⟨_, rfl⟩

theorem writeRegister_keeps (hs : s.Sound) {view : RegisterView} (hv : value < s.table.size)
    (h : Replay.writeRegister view value s = .ok () s') (hid : s.valueAt home = some id) (hk : home.Has k)
    (hout : ¬ (Place.register view).Covers k home) :
    KeepsBit σ k home (s.spill σ value (.register view) home) s s' id := by
  have g := (Replay.extending_writeRegister view value s () s' hs.toTidy h).grows
  obtain ⟨new, hset⟩ := writeRegister_set h
  cases home with
  | cell range => exact hs.keepsBit_same hid (by rw [hset]; exact hid) g
  | register r =>
    replace hid : s.registers.get? r = some id := hid
    by_cases hr : view.owner = r
    · subst hr
      have hcov : view.span.covers k = false := by
        rw [← Bool.not_eq_true]
        exact fun hcov => hout ⟨rfl, hcov⟩
      have heq := Replay.writeRegister_ok hid h
      have hget : s'.registers.get? view.owner = some (view.merge id value s.table).1 := by
        rw [heq, get?_set, if_pos rfl]
      refine ⟨_, hget, fun w' hw' => ?_⟩
      rw [heq] at hw'
      obtain ⟨w, hw, hbit⟩ := view.merge_keeps hs.wellFormed (hs.registers_lt _ _ hid) hv hk hcov hw'
      refine ⟨w, hw, ?_⟩
      rw [hbit, spill, hid]
      cases hsplits : s.table.splits id value view <;> simp [hsplits]
    · have hspill : s.spill σ value (.register view) (.register r) = 0 := by
        simp only [spill, hid, ne_eq, hr, not_false_eq_true, true_or, if_true]
      have hget : s'.registers.get? r = some id := by
        rw [hset, get?_set, if_neg (Ne.symm hr)]
        exact hid
      rw [hspill]
      exact hs.keepsBit_same hid hget g

theorem writeMemory_keeps (hs : s.Sound) {address : Word} {bytes : Nat} (hv : value < s.table.size)
    (h : Replay.writeMemory address bytes value s = .ok () s') (hid : s.valueAt home = some id) (hk : home.Has k)
    (hout : ¬ (Place.memory address bytes).Covers k home) :
    KeepsBit σ k home (s.spill σ value (.memory address bytes) home) s s' id := by
  obtain ⟨heq, access, hacc, hstep⟩ := Replay.writeMemory_ok hs.separated h
  obtain ⟨skip, table, registers, memory, executed⟩ := s'
  cases heq
  have g := hstep.grows
  cases home with
  | register r => exact hs.keepsBit_same hid hid g
  | cell range =>
    replace hid : (range, id) ∈ s.memory.cells.entries := SortedMap.get?_eq_some_iff.mp hid
    have hle := AddressRange.first_le_last_of_access hacc
    have hbyte : ¬ access.Has (range.byteOf k) := fun hin => hout ⟨access, hacc, hin⟩
    -- a cell that does not contain the access and is still there
    have apart (hno : range.contains access = false) (hin : (range, id) ∈ memory.cells.entries) :
        KeepsBit σ k (.cell range) (s.spill σ value (.memory address bytes) (.cell range)) s
          { s with table := table, memory := memory } id := by
      have hspill : s.spill σ value (.memory address bytes) (.cell range) = 0 := by
        simp only [spill, hacc, hno, Bool.false_eq_true, false_and, if_false]
      rw [hspill]
      exact hs.keepsBit_same (SortedMap.get?_eq_some_iff.mpr hid) (SortedMap.get?_eq_some_iff.mpr hin) g
    cases hstep with
    | whole hrep hin =>
      cases hi : range.intersects access with
      | true =>
        -- a cell that the access meets lies inside it, but the bit does not
        exact absurd (AddressRange.has_of_contains (hrep.absorbs _ hid hi) hk.2) hbyte
      | false =>
        refine apart ?_ ((hrep.mem_iff _).mpr (.inr ⟨hid, hi⟩))
        rw [← Bool.not_eq_true]
        intro hcontains
        rw [AddressRange.intersects_of_contains hcontains hle] at hi
        cases hi
    | @within cell stored _ hcell hcontains hsize hrep hin =>
      by_cases hsame : range = cell
      · subst hsame
        obtain rfl := s.memory.cells.value_unique hid hcell
        have hsmall := (hs.cells_short _ hid).small (hs.separated.first_le_last _ hid) hsize
        have hlane := AddressRange.lane_inWord hsmall hcontains hle
        have hcov : (Memory.lane range access).covers k = false := by
          rw [← Bool.not_eq_true, AddressRange.lane_covers_iff hsmall hcontains hle hk.1 hk.2]
          exact hbyte
        refine ⟨_, SortedMap.get?_eq_some_iff.mpr ((hrep.mem_iff _).mpr (.inl rfl)), fun w' hw' => ?_⟩
        obtain ⟨w, x, hw, hx⟩ := Memory.writeLane_inv hs.wellFormed (hs.cells_lt _ hid) hv hw'
        refine ⟨w, hw, ?_⟩
        have hmerge : (Memory.writeLane id value (Memory.lane range access)).Gives .standard σ s.table _ :=
          Build.gives_merge hw hx hlane
        rw [hw'.unique hmerge.post, BitRange.getLsbD_merge hlane w x hk.1 hcov]
        simp only [spill, hacc, hcontains, hsize, true_and, if_true, Table.spill_eq hx]
      · have hi : range.intersects cell = false := by
          rw [← Bool.not_eq_true, hs.separated.intersects_iff hid hcell]
          exact hsame
        refine apart ?_ ((hrep.mem_iff _).mpr (.inr ⟨hid, hi⟩))
        rw [← Bool.not_eq_true]
        intro hno
        have hfirst := AddressRange.has_first hle
        exact hsame (hs.separated.disjoint _ hid _ hcell _ (AddressRange.has_of_contains hno hfirst)
          (AddressRange.has_of_contains hcontains hfirst))

theorem write_keeps (hs : s.Sound) (hv : value < s.table.size) (h : Replay.write value place s = .ok () s')
    (hid : s.valueAt home = some id) (hk : home.Has k) (hout : ¬ place.Covers k home) :
    KeepsBit σ k home (s.spill σ value place home) s s' id := by
  cases place with
  | register view => exact writeRegister_keeps hs hv h hid hk hout
  | memory address bytes => exact writeMemory_keeps hs hv h hid hk hout

/-- A word that fits its place spills nothing. -/
theorem spill_eq_zero (hs : s.Sound) (hid : s.valueAt home = some id)
    (hfit : ∀ x, s.table.eval σ value = .ok x → x.toNat < 2 ^ place.bits) : s.spill σ value place home = 0 := by
  cases place with
  | register view =>
    cases home with
    | cell range => rfl
    | register r =>
      simp only [spill, show s.registers.get? r = some id from hid]
      split
      · rfl
      · exact Table.spill_eq_zero view.span_inWord hfit
  | memory address bytes =>
    cases home with
    | register r => rfl
    | cell range =>
      have hin := SortedMap.get?_eq_some_iff.mp hid
      simp only [spill]
      split
      · rename_i access hacc
        split
        · rename_i hwithin
          have hle := AddressRange.first_le_last_of_access hacc
          have hsmall := (hs.cells_short _ hin).small (hs.separated.first_le_last _ hin) hwithin.2
          have haccess := hsmall.of_contains hwithin.1 hle
          refine Table.spill_eq_zero (AddressRange.lane_inWord hsmall hwithin.1 hle) fun x hx => ?_
          have hbytes : bytes ≤ access.size := by
            obtain ⟨rfl, hlast⟩ := AddressRange.ofAccess?_eq_some_iff.mp hacc
            rw [haccess.size]
            omega
          rw [AddressRange.lane_width haccess]
          exact Nat.lt_of_lt_of_le (hfit x hx) (Nat.pow_le_pow_right (by decide) (Nat.mul_le_mul_left 8 hbytes))
        · rfl
      · rfl

def Prepared (s : Session) (ws : List (Place × ValueId)) : Prop :=
  ∀ p ∈ ws, p.1.Short ∧ p.2 < s.table.size

def Fits (s : Session) (σ : Assignment) (ws : List (Place × ValueId)) : Prop :=
  ∀ p ∈ ws, ∀ x, s.table.eval σ p.2 = .ok x → x.toNat < 2 ^ p.1.bits

theorem commit_keeps (hs : s.Sound) {ws : List (Place × ValueId)} (hws : s.Prepared ws)
    (h : Replay.commit ws s = .ok () s') (hid : s.valueAt home = some id) (hk : home.Has k)
    (hout : ∀ p ∈ ws, ¬ p.1.Covers k home) :
    KeepsBit σ k home (s.carry σ home ws) s s' id ∧
      (s.Fits σ ws → (s.carry σ home ws).getLsbD k = false) := by
  induction ws generalizing s id with
  | nil =>
    cases h
    exact ⟨hs.keepsBit_same hid hid (.refl _), fun _ => BitVec.getLsbD_zero⟩
  | cons p ws ih =>
    obtain ⟨place, value⟩ := p
    obtain ⟨hshort, hv⟩ := hws _ (.head _)
    obtain ⟨_, s₁, hwrite, hrest⟩ := Replay.bind_ok h
    obtain ⟨id₁, hid₁, hbit₁⟩ := write_keeps (σ := σ) hs hv hwrite hid hk (hout _ (.head _))
    obtain ⟨hc, -⟩ := (Replay.lockstep_write (.refl hs) hshort ⟨hv, hv⟩).of_ok hwrite hwrite
    have hws₁ : s₁.Prepared ws := fun p hp => ⟨(hws p (.tail _ hp)).1, hc.left.lt (hws p (.tail _ hp)).2⟩
    obtain ⟨⟨id', hid', hbit'⟩, hfits⟩ := ih hc.shape.left hws₁ hrest hid₁ fun p hp => hout p (.tail _ hp)
    rw [carry, Replay.after_ok hwrite]
    refine ⟨⟨id', hid', fun w' hw' => ?_⟩, fun hfit => ?_⟩
    · obtain ⟨w₁, hw₁, hw₁'⟩ := hbit' w' hw'
      obtain ⟨w, hw, hw'⟩ := hbit₁ w₁ hw₁
      refine ⟨w, hw, ?_⟩
      rw [hw₁', hw', BitVec.getLsbD_or, Bool.or_assoc]
    · have hrest : s₁.Fits σ ws := by
        intro p hp x hx
        have heval : s₁.table.eval σ p.2 = s.table.eval σ p.2 :=
          Table.interpret_of_grows _ hc.left (hws p (.tail _ hp)).2
        exact hfit p (.tail _ hp) x (heval ▸ hx)
      rw [BitVec.getLsbD_or, spill_eq_zero hs hid (hfit _ (.head _)), hfits hrest]
      simp

end Session

/-! ## What an instruction prepares -/

def Instruction.destinations (insn : Instruction) : List Place :=
  match insn.operands with
  | [o] =>
    if insn.mnemonic = "push" then [.memory (insn.pushAddress o.byteCount) o.byteCount]
    else (insn.target o).toList
  | [a, b] =>
    if insn.mnemonic = "xchg" then (insn.target a).toList ++ (insn.target b).toList
    else (insn.target a).toList
  | [a, _, _] => (insn.target a).toList
  | _ => []

namespace Replay

variable {s s' : Session} {insn : Instruction} {ws : List (Place × ValueId)}

theorem destinations_of_locate {place : Place} (h : s.locate insn (.ofInstruction insn) = .ok place) :
    insn.destinations = [place] := by
  -- the reference machine writes there, whatever words it holds
  have hresult := Machine.result?_eq (R := .standard) ⟨fun _ => 0, fun _ => 0⟩ h
  have target {o : Operand} {w w' : Word} (ho : (insn.target o).map (·, w) = some (place, w')) :
      (insn.target o).toList = [place] := by
    obtain ⟨p, hp, hpw⟩ := Option.map_eq_some_iff.mp ho
    rw [hp, (Prod.mk.inj hpw).1]
    rfl
  unfold Machine.outcome at hresult
  generalize Action.result _ _ _ = w at hresult
  unfold Machine.result? at hresult
  split at hresult
  · rename_i o hops
    simp only [Instruction.destinations, hops]
    split at hresult
    · rename_i hname
      cases hresult
      rw [if_pos hname]
    · rename_i hname
      rw [hname, if_neg (by decide)]
      exact target hresult
    · rename_i hpush _
      rw [if_neg hpush]
      exact target hresult
  · rename_i a b hops
    simp only [Instruction.destinations, hops]
    split at hresult
    · rename_i hname
      rw [hname, if_neg (by decide)]
      exact target hresult
    · rename_i hname
      rw [hname, if_neg (by decide)]
      exact target hresult
    · rename_i hname
      rw [hname, if_neg (by decide)]
      split at hresult
      · exact target hresult
      · cases hresult
    · cases hresult
    · rename_i hxchg
      rw [if_neg hxchg]
      exact target hresult
  · rename_i a b c hops
    simp only [Instruction.destinations, hops]
    exact target hresult
  · cases hresult

theorem exchange_destinations {a b : Operand} (h : Action.ofInstruction insn = .exchange a b) :
    insn.destinations = (insn.target a).toList ++ (insn.target b).toList := by
  have hexchanged := Action.exchanged?_eq insn
  rw [h] at hexchanged
  unfold Instruction.exchanged? at hexchanged
  split at hexchanged
  · rename_i hname hops
    cases hexchanged
    simp only [Instruction.destinations, hops, if_pos hname]
  · cases hexchanged

/-- Whatever is kept in a register or a cell stays there until the writes. -/
theorem Reads.valueAt {source : Source} (h : Reads insn source s s') {home : Home} {id : ValueId}
    (hid : s.valueAt home = some id) : s'.valueAt home = some id := by
  cases home with
  | register r =>
    rw [Session.valueAt, h.registers]
    exact hid
  | cell range => exact SortedMap.get?_eq_some_iff.mpr (h.kept _ (SortedMap.get?_eq_some_iff.mp hid))

structure Prepares (insn : Instruction) (s s' : Session) (ws : List (Place × ValueId)) : Prop where
  sound : s'.Sound
  grows : s.table.Grows s'.table
  places : ws.map (·.1) = insn.destinations
  prepared : s'.Prepared ws
  kept : ∀ home id, s.valueAt home = some id → s'.valueAt home = some id

theorem prepare_places (h : prepare insn (.ofInstruction insn) s = .ok ws s') :
    ws.map (·.1) = insn.destinations ∧ ∀ home id, s.valueAt home = some id → s'.valueAt home = some id := by
  cases ha : Action.ofInstruction insn using Action.plan_cases with
  | nothing =>
    rw [ha] at h
    cases h
    refine ⟨?_, fun _ _ hid => hid⟩
    simp only [Instruction.destinations, Action.operands_of_nothing ha, List.map_nil]
  | exchange x y =>
    rw [ha] at h
    obtain ⟨p, s₁, hp, hrest⟩ := bind_ok h
    obtain ⟨q, s₂, hq, hreads⟩ := bind_ok hrest
    obtain ⟨v, s₃, hv, hread⟩ := bind_ok hreads
    obtain ⟨w, s₄, hw, hpure⟩ := bind_ok hread
    obtain ⟨hp, rfl⟩ := check_ok (get_bind_ok hp)
    obtain ⟨hq, rfl⟩ := check_ok (get_bind_ok hq)
    cases hpure
    constructor
    · rw [exchange_destinations ha, Session.target_of_destination hp, Session.target_of_destination hq]
      rfl
    · intro home id hid
      have hx : Reads insn (.operand x) s₂ s₃ := readSource_reads hv
      have hy : Reads insn (.operand y) s₃ _ := readSource_reads hw
      exact hy.valueAt (hx.valueAt hid)
  | planned a hn hx =>
    subst ha
    rw [prepare_eq insn hn hx] at h
    obtain ⟨place, s₁, hplace, hrest⟩ := bind_ok (get_bind_ok h)
    obtain ⟨vs, s₂, hvs, hcombine⟩ := bind_ok hrest
    obtain ⟨v, s₃, hv, hpure⟩ := bind_ok hcombine
    obtain ⟨hplace, rfl⟩ := check_ok hplace
    cases hpure
    refine ⟨(destinations_of_locate hplace).symm, fun home id hid => ?_⟩
    have hreads := after_readSources insn ((Action.ofInstruction insn).sources insn) s₁
    obtain ⟨t, ht⟩ := after_combine (.ofInstruction insn) vs s₂
    rw [after_ok hvs] at hreads
    rw [after_ok hv] at ht
    rw [ht]
    cases home with
    | register r =>
      show s₂.registers.get? r = some id
      rw [hreads.registers]
      exact hid
    | cell range => exact SortedMap.get?_eq_some_iff.mpr (hreads.kept _ (SortedMap.get?_eq_some_iff.mp hid))

theorem prepare_prepares (hs : s.Sound) (h : prepare insn (.ofInstruction insn) s = .ok ws s') :
    Prepares insn s s' ws := by
  obtain ⟨hc, hready⟩ := (lockstep_prepare (.refl hs) insn).of_ok h h
  obtain ⟨hplaces, hkept⟩ := prepare_places h
  refine ⟨hc.shape.left, hc.left, hplaces, fun p hp => ?_, hkept⟩
  obtain ⟨-, hshort, hboth⟩ := List.forall₂_same.mp hready p hp
  exact ⟨hshort, hboth.1⟩

end Replay

/-! ## Instructions -/

namespace Session

/-- Sessions that steps lead to from one whose registers hold fresh symbols; a step may fail. -/
inductive Reachable (skip : SkipSet) : Session → Prop
  | seeded : Reachable skip (seeded skip)
  | step {s : Session} (insn : Instruction) : Reachable skip s → Reachable skip ((Replay.step insn).after s)

theorem Reachable.sound {skip : SkipSet} {s : Session} (h : Reachable skip s) : s.Sound := by
  induction h with
  | seeded => exact (entry_seeded skip).sound
  | step insn _ ih => exact ih.after_step insn

/-- A step that is not passed over prepares its writes and commits them. -/
theorem step_ok {s s' : Session} {insn : Instruction} (hskip : s.skip.contains insn.mnemonic = false)
    (h : Replay.step insn s = .ok () s') :
    ∃ ws s₁ s₂, Replay.prepare insn (.ofInstruction insn) s = .ok ws s₁ ∧ Replay.commit ws s₁ = .ok () s₂ ∧
      s' = { s₂ with executed := s₂.executed + 1 } := by
  replace h := Replay.get_bind_ok h
  rw [if_neg (by simp [hskip])] at h
  obtain ⟨_, s₂, hperform, hcount⟩ := Replay.bind_ok h
  rw [Replay.perform_eq_commit] at hperform
  obtain ⟨ws, s₁, hprepare, hcommit⟩ := Replay.bind_ok hperform
  cases hcount
  exact ⟨ws, s₁, s₂, hprepare, hcommit, rfl⟩

/-- Beside the destinations of an instruction, a bit of a register or of a stored cell changes
    exactly if it was clear and one of the words written reaches it. Words that fit their places
    change nothing there. -/
theorem bits_beside_the_destinations_change_only_by_a_carry (skip : SkipSet) (s s' : Session) (insn : Instruction)
    (hr : Reachable skip s) (hskip : s.skip.contains insn.mnemonic = false)
    (hrun : Replay.step insn s = .ok () s') (σ : Assignment) :
    ∃ ws s₁, Replay.prepare insn (.ofInstruction insn) s = .ok ws s₁ ∧ ws.map (·.1) = insn.destinations ∧
      ∀ home id id' w w', s.valueAt home = some id → s'.valueAt home = some id' →
        s.table.eval σ id = .ok w → s'.table.eval σ id' = .ok w' →
        ∀ k, home.Has k → (∀ place ∈ insn.destinations, ¬ place.Covers k home) →
          (w'.getLsbD k ≠ w.getLsbD k ↔ w.getLsbD k = false ∧ (s₁.carry σ home ws).getLsbD k = true) ∧
          (s₁.Fits σ ws → w'.getLsbD k = w.getLsbD k) := by
  obtain ⟨ws, s₁, s₂, hprepare, hcommit, rfl⟩ := step_ok hskip hrun
  have hp := Replay.prepare_prepares hr.sound hprepare
  refine ⟨ws, s₁, hprepare, hp.places, fun home id id' w w' hid hid' hw hw' k hk hout => ?_⟩
  have hout' : ∀ p ∈ ws, ¬ p.1.Covers k home := by
    intro p hin
    exact hout p.1 (hp.places ▸ List.mem_map.mpr ⟨p, hin, rfl⟩)
  obtain ⟨⟨id₂, hid₂, hbit⟩, hfits⟩ := commit_keeps (σ := σ) hp.sound hp.prepared hcommit (hp.kept home id hid) hk hout'
  have hsound := hr.sound.after_step insn
  rw [Replay.after_ok hrun] at hsound
  obtain rfl : id₂ = id' := by
    have hsame : { s₂ with executed := s₂.executed + 1 }.valueAt home = s₂.valueAt home := by cases home <;> rfl
    rw [hsame, hid₂] at hid'
    exact Option.some.inj hid'
  have hold : s.table.Means .standard σ id w := ⟨hr.sound.valueAt_lt hid, by rw [Table.evalWith_standard, hw]⟩
  have hnew : s₂.table.Means .standard σ id₂ w' := ⟨hsound.valueAt_lt hid', by rw [Table.evalWith_standard]; exact hw'⟩
  obtain ⟨x, hx, heq⟩ := hbit w' hnew
  rw [hx.unique (hold.grow hp.grows)] at heq
  refine ⟨?_, fun hfit => ?_⟩
  · rw [heq]
    cases w.getLsbD k <;> simp
  · rw [heq, hfits hfit, Bool.or_false]

def negatedByte : Instruction := { address := 0x1000, mnemonic := "neg", operands := [.register "al" 8] }

/-- Negating the byte 1 sets the bits above it too. -/
theorem a_negated_byte_carries_into_its_register :
    Replay.step negatedByte (seeded ⟨.empty⟩) = .ok () ((Replay.step negatedByte).after (seeded ⟨.empty⟩)) ∧
    ∃ id id' w w', (seeded ⟨.empty⟩).valueAt (.register .eax) = some id ∧
      ((Replay.step negatedByte).after (seeded ⟨.empty⟩)).valueAt (.register .eax) = some id' ∧
      (seeded ⟨.empty⟩).table.eval (fun _ => 1) id = .ok w ∧
      ((Replay.step negatedByte).after (seeded ⟨.empty⟩)).table.eval (fun _ => 1) id' = .ok w' ∧
      (∀ place ∈ negatedByte.destinations, ¬ place.Covers 8 (.register .eax)) ∧ w'.getLsbD 8 ≠ w.getLsbD 8 := by
  have hfault : (Replay.step negatedByte).fault? (seeded ⟨.empty⟩) = none := by decide +kernel
  have hrun := Replay.ok_after_of_fault? hfault
  have hcarry : (match Replay.prepare negatedByte (.ofInstruction negatedByte) (seeded ⟨.empty⟩) with
      | .ok ws s₁ => (s₁.carry (fun _ => 1) (.register .eax) ws).getLsbD 8
      | .error _ _ => false) = true := by decide +kernel
  have hplaces : negatedByte.destinations = [.register (.low8 .a)] := by decide +kernel
  have hout : ∀ place ∈ negatedByte.destinations, ¬ place.Covers 8 (.register .eax) := by
    rw [hplaces]
    intro place hin
    rw [List.mem_singleton.mp hin]
    rintro ⟨-, hcov⟩
    cases hcov
  have hid : (seeded ⟨.empty⟩).valueAt (.register .eax) = some 0 := by decide +kernel
  have hid' : ((Replay.step negatedByte).after (seeded ⟨.empty⟩)).valueAt (.register .eax) = some 13 := by
    decide +kernel
  have hw : (seeded ⟨.empty⟩).table.eval (fun _ => 1) 0 = .ok 1 := by decide +kernel
  have hw' : ((Replay.step negatedByte).after (seeded ⟨.empty⟩)).table.eval (fun _ => 1) 13 = .ok 0xffffffff := by
    decide +kernel
  refine ⟨hrun, 0, 13, 1, 0xffffffff, hid, hid', hw, hw', hout, ?_⟩
  obtain ⟨ws, s₁, hprepare, -, hbits⟩ := bits_beside_the_destinations_change_only_by_a_carry ⟨.empty⟩ _ _ negatedByte
    .seeded rfl hrun fun _ => 1
  rw [hprepare] at hcarry
  exact (hbits (.register .eax) 0 13 1 0xffffffff hid hid' hw hw' 8 (show 8 < 32 by decide) hout).1.mpr ⟨by decide, hcarry⟩

end Session

end TraceReplay
