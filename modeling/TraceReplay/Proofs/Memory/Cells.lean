/-
  TraceReplay.Proofs.Memory.Cells — how reads and writes change the cells.

  Whatever an access does to the cells, it puts one cell in the place of those that it meets,
  and contains all of these (`Memory.Replaces`). `ReadStep` and `WriteStep` list what a
  successful read or write can do, and `read_step` and `write_step` say that it is one of
  these; every other fact about memory is derived from them. Cells stay apart from each other
  (`Replaces.separated`), and what they cover only grows (`Replaces.covers_iff`).
-/

import TraceReplay.Proofs.Build
import TraceReplay.Proofs.Memory.ByteStore
import TraceReplay.Proofs.SortedMap

namespace TraceReplay

/-! ## Placements -/

theorem AddressRange.first_le_of_compare_lt {r s : AddressRange} (h : compare r s = .lt) :
    r.first ≤ s.first := by
  have h : (compareOn first r s).then (compareOn last r s) = .lt := h
  cases hfirst : compareOn first r s with
  | lt => exact BitVec.le_of_lt (compareOfLessAndEq_eq_lt.mp hfirst)
  | eq => exact (Std.LawfulEqOrd.eq_of_compare hfirst : r.first = s.first) ▸ BitVec.le_refl _
  | gt => rw [hfirst] at h; cases h

/-- What the placement of an access says about the cells. -/
def Placement.Describes (m : Memory) (access : AddressRange) : Placement → Prop
  | exact v => (access, v) ∈ m.cells.entries
  | fresh => ∀ e ∈ m.cells.entries, e.1.intersects access = false
  | within cell v => (cell, v) ∈ m.cells.entries ∧ cell.contains access = true ∧ cell ≠ access
  | covering first rest => (∀ v, (access, v) ∉ m.cells.entries) ∧ first :: rest = (m.touched access).map (·.1) ∧
      ∀ e ∈ m.cells.entries, e.1.intersects access = true → access.contains e.1 = true
  | straddling cell => (∃ v, (cell, v) ∈ m.cells.entries) ∧ cell.intersects access = true ∧
      cell.contains access = false ∧ access.contains cell = false ∧
      ∀ e ∈ m.cells.entries, e.1.intersects access = true → access.contains e.1 = false → cell.first ≤ e.1.first

namespace Memory

variable {m m' : Memory} {access : AddressRange}

theorem mem_touched {e : AddressRange × ValueId} :
    e ∈ m.touched access ↔ e ∈ m.cells.entries ∧ e.1.intersects access = true :=
  List.mem_filter

theorem pairwise_touched (m : Memory) (access : AddressRange) :
    (m.touched access).Pairwise fun a b => compare a.1 b.1 = .lt :=
  m.cells.ascending.filter _

/-- Of the cells that will do, the first in the map has the lowest address. -/
theorem first_le_of_find? {p : AddressRange × ValueId → Bool} {e e' : AddressRange × ValueId}
    (h : (m.touched access).find? p = some e) (he' : e' ∈ m.touched access) (hp : p e' = true) :
    e.1.first ≤ e'.1.first := by
  obtain ⟨-, before, after, hsplit, hbefore⟩ := List.find?_eq_some_iff_append.mp h
  have hpairs := m.pairwise_touched access
  rw [hsplit] at hpairs he'
  rcases List.mem_append.mp he' with hin | hin
  · have := hbefore e' hin
    simp [hp] at this
  · rcases List.mem_cons.mp hin with rfl | hin
    · exact BitVec.le_refl _
    · have hafter := (List.pairwise_cons.mp (List.pairwise_append.mp hpairs).2.1).1
      exact AddressRange.first_le_of_compare_lt (hafter e' hin)

theorem classify_describes (m : Memory) (access : AddressRange) :
    (m.classify access).Describes m access := by
  unfold classify
  split
  · rename_i v hget
    exact SortedMap.get?_eq_some_iff.mp hget
  · rename_i hget
    have hnone := SortedMap.get?_eq_none_iff.mp hget
    split
    · rename_i hempty
      intro e he
      cases hi : e.1.intersects access with
      | false => rfl
      | true => exact absurd (mem_touched.mpr ⟨he, hi⟩) (by rw [hempty]; simp)
    · rename_i first rest htouched
      rw [← htouched]
      split
      · rename_i cell hfind
        obtain ⟨hin, -⟩ := mem_touched.mp (List.mem_of_find?_eq_some hfind)
        have hcontains := List.find?_some hfind
        exact ⟨hin, hcontains, fun heq => hnone cell.2 (heq ▸ hin)⟩
      · rename_i hwithin
        split
        · rename_i cell hfind
          have hmem := List.mem_of_find?_eq_some hfind
          obtain ⟨hin, hmeets⟩ := mem_touched.mp hmem
          have hout := List.find?_eq_none.mp hwithin cell hmem
          have hcrosses := List.find?_some hfind
          refine ⟨⟨cell.2, hin⟩, hmeets, by simpa using hout, by simpa using hcrosses, fun e he hi hc => ?_⟩
          exact first_le_of_find? hfind (mem_touched.mpr ⟨he, hi⟩) (by simpa using hc)
        · rename_i hcovered
          refine ⟨hnone, by rw [htouched]; rfl, fun e he hi => ?_⟩
          simpa using List.find?_eq_none.mp hcovered e (mem_touched.mpr ⟨he, hi⟩)

/-! ## Cells apart from each other -/

def Covers (m : Memory) (a : Word) : Prop := ∃ e ∈ m.cells.entries, e.1.Has a

structure Separated (m : Memory) : Prop where
  first_le_last : ∀ e ∈ m.cells.entries, e.1.first ≤ e.1.last
  disjoint : ∀ e ∈ m.cells.entries, ∀ e' ∈ m.cells.entries, ∀ a, e.1.Has a → e'.1.Has a → e.1 = e'.1

theorem separated_empty : Memory.empty.Separated := ⟨nofun, nofun⟩

/-- A separated cell meets the range of another only if it is that range. -/
theorem Separated.intersects_iff (hm : m.Separated) {e : AddressRange × ValueId} {cell : AddressRange}
    {v : ValueId} (he : e ∈ m.cells.entries) (hc : (cell, v) ∈ m.cells.entries) :
    e.1.intersects cell = true ↔ e.1 = cell := by
  rw [AddressRange.intersects_iff (hm.first_le_last e he) (hm.first_le_last _ hc)]
  constructor
  · rintro ⟨a, h, h'⟩
    exact hm.disjoint e he _ hc a h h'
  · rintro rfl
    have := AddressRange.has_first (hm.first_le_last e he)
    exact ⟨_, this, this⟩

/-- The cells of the second memory are those of the first, but for one cell that takes the
    place of all it meets, and contains them. -/
structure Replaces (m : Memory) (r : AddressRange) (v : ValueId) (m' : Memory) : Prop where
  absorbs : ∀ e ∈ m.cells.entries, e.1.intersects r = true → r.contains e.1 = true
  mem_iff : ∀ e, e ∈ m'.cells.entries ↔ e = (r, v) ∨ (e ∈ m.cells.entries ∧ e.1.intersects r = false)

variable {r : AddressRange} {v : ValueId}

theorem Replaces.separated (h : m.Replaces r v m') (hm : m.Separated) (hr : r.first ≤ r.last) :
    m'.Separated := by
  -- a cell that stays shares no byte with the new one
  have apart {e : AddressRange × ValueId} (he : e ∈ m.cells.entries) (hi : e.1.intersects r = false)
      {a : Word} (ha : e.1.Has a) (hra : r.Has a) : False := by
    have := (AddressRange.intersects_iff (hm.first_le_last e he) hr).mpr ⟨a, ha, hra⟩
    rw [hi] at this
    cases this
  constructor
  · intro e he
    rcases (h.mem_iff e).mp he with rfl | ⟨he, -⟩
    · exact hr
    · exact hm.first_le_last e he
  · intro e he e' he' a ha ha'
    rcases (h.mem_iff e).mp he with rfl | ⟨he, hi⟩
    · rcases (h.mem_iff e').mp he' with rfl | ⟨he', hi'⟩
      · rfl
      · exact (apart he' hi' ha' ha).elim
    · rcases (h.mem_iff e').mp he' with rfl | ⟨he', -⟩
      · exact (apart he hi ha ha').elim
      · exact hm.disjoint e he e' he' a ha ha'

/-- The bytes of the new cell are covered now, and all that were before. -/
theorem Replaces.covers_iff (h : m.Replaces r v m') (a : Word) : m'.Covers a ↔ r.Has a ∨ m.Covers a := by
  constructor
  · rintro ⟨e, he, ha⟩
    rcases (h.mem_iff e).mp he with rfl | ⟨he, -⟩
    · exact .inl ha
    · exact .inr ⟨e, he, ha⟩
  · rintro (ha | ⟨e, he, ha⟩)
    · exact ⟨(r, v), (h.mem_iff _).mpr (.inl rfl), ha⟩
    · cases hi : e.1.intersects r with
      | false => exact ⟨e, (h.mem_iff e).mpr (.inr ⟨he, hi⟩), ha⟩
      | true => exact ⟨(r, v), (h.mem_iff _).mpr (.inl rfl), AddressRange.has_of_contains (h.absorbs e he hi) ha⟩

theorem Separated.not_covers (hm : m.Separated) (hr : r.first ≤ r.last)
    (h : ∀ e ∈ m.cells.entries, e.1.intersects r = false) {a : Word} (ha : r.Has a) : ¬ m.Covers a := by
  rintro ⟨e, he, hea⟩
  have := (AddressRange.intersects_iff (hm.first_le_last e he) hr).mpr ⟨a, hea, ha⟩
  rw [h e he] at this
  cases this

/-- Putting a value into a cell that is there replaces it. -/
theorem Separated.replaces_store (hm : m.Separated) {cell : AddressRange} {stored : ValueId}
    (hc : (cell, stored) ∈ m.cells.entries) (v : ValueId) : m.Replaces cell v (m.store cell v) := by
  refine ⟨fun e he hi => ?_, fun e => ?_⟩
  · rw [(hm.intersects_iff he hc).mp hi]
    exact cell.contains_self
  · rw [store, SortedMap.mem_insert]
    refine or_congr_right (and_congr_right fun he => ?_)
    rw [← Bool.not_eq_true, hm.intersects_iff he hc]

theorem replaces_insert_fresh (hr : r.first ≤ r.last)
    (hf : ∀ e ∈ m.cells.entries, e.1.intersects r = false) {m' : Memory}
    (h : m'.cells = m.cells.insert r v) : m.Replaces r v m' := by
  refine ⟨fun e he hi => ?_, fun e => ?_⟩
  · rw [hf e he] at hi
    cases hi
  · rw [h, SortedMap.mem_insert]
    refine or_congr_right (and_congr_right fun he => ⟨fun _ => hf e he, fun hi hk => ?_⟩)
    rw [hk, AddressRange.intersects_self hr] at hi
    cases hi

/-! ## What a read can do -/

/-- The ways in which a read of the bytes can succeed: the value it gives, and the table and
    the memory afterwards. -/
inductive ReadStep (t : Table) (m : Memory) (bytes : Nat) (access : AddressRange) :
    ValueId → Table → Memory → Prop
  | exact {v : ValueId} : (access, v) ∈ m.cells.entries → ReadStep t m bytes access v t m
  | fresh {m' : Memory} : (∀ e ∈ m.cells.entries, e.1.intersects access = false) →
      m.Replaces access t.size m' → m'.inputs = m.inputs.insert t.size access →
      ReadStep t m bytes access t.size (t.push ⟨bytes * 8, .symbol, true, none⟩) m'
  | within {cell : AddressRange} {stored : ValueId} : (cell, stored) ∈ m.cells.entries →
      cell.contains access = true → cell.size ≤ 4 →
      ReadStep t m bytes access (readLane stored (lane cell access) (bytes * 8) t).1
        (readLane stored (lane cell access) (bytes * 8) t).2 m

theorem makes_readLane (stored : ValueId) (lane : BitRange) (width : Nat) :
    (readLane stored lane width).Makes Node.Computed :=
  Build.makes_field lane stored width

theorem access_eq_ok {address : Word} {bytes : Nat} :
    Memory.access address bytes = .ok access ↔ AddressRange.ofAccess? address bytes = some access := by
  unfold Memory.access
  split <;> simp_all

theorem lane?_eq_ok {cell : AddressRange} {lane : BitRange} (h : lane? cell access = .ok lane) :
    cell.size ≤ 4 ∧ lane = Memory.lane cell access := by
  unfold lane? at h
  split at h
  · cases h
  · cases h
    exact ⟨by omega, rfl⟩

theorem read_step {address : Word} {bytes : Nat} {b : Build (ValueId × Memory)}
    (h : m.read address bytes = .ok b) (t : Table) :
    ∃ access, AddressRange.ofAccess? address bytes = some access ∧
      ReadStep t m bytes access (b t).1.1 (b t).2 (b t).1.2 := by
  cases ha : Memory.access address bytes with
  | error fault => rw [read, ha] at h; cases h
  | ok access =>
    have ha' := access_eq_ok.mp ha
    refine ⟨access, ha', ?_⟩
    have hd := m.classify_describes access
    simp only [read, ha, bind, Except.bind] at h
    split at h <;> rename_i hc <;> rw [hc] at hd
    · cases h
      exact .exact hd
    · cases h
      exact .fresh hd (replaces_insert_fresh (AddressRange.first_le_last_of_access ha') hd rfl) rfl
    · obtain ⟨hin, hcontains, -⟩ := hd
      cases hl : lane? _ access with
      | error fault => rw [hl] at h; cases h
      | ok lane =>
        obtain ⟨hsize, rfl⟩ := lane?_eq_ok hl
        rw [hl] at h
        cases h
        exact .within hin hcontains hsize
    · cases h
    · cases h

/-- Bytes of which none has a cell can always be read. -/
theorem read_fresh {address : Word} {bytes : Nat} (ha : AddressRange.ofAccess? address bytes = some access)
    (h : ∀ e ∈ m.cells.entries, e.1.intersects access = false) :
    m.read address bytes = .ok (m.readFresh access (bytes * 8)) := by
  have hr := AddressRange.first_le_last_of_access ha
  have hget : m.get? access = none := by
    refine SortedMap.get?_eq_none_iff.mpr fun v hin => ?_
    have := h _ hin
    rw [AddressRange.intersects_self hr] at this
    cases this
  have htouched : m.touched access = [] := List.filter_eq_nil_iff.mpr fun e he => by simp [h e he]
  have hclass : m.classify access = .fresh := by rw [classify, hget, htouched]
  simp only [read, access_eq_ok.mpr ha, bind, Except.bind, hclass]

theorem ReadStep.grows {t t' : Table} {bytes : Nat} (h : ReadStep t m bytes access v t' m') : t.Grows t' := by
  cases h with
  | exact => exact .refl t
  | fresh => exact Table.grows_push t _
  | within => exact ((makes_readLane _ _ _).adds t).grows

theorem ReadStep.separated (hm : m.Separated) (hr : access.first ≤ access.last) {t t' : Table} {bytes : Nat}
    (h : ReadStep t m bytes access v t' m') : m'.Separated := by
  cases h with
  | exact => exact hm
  | fresh _ hrep => exact hrep.separated hm hr
  | within => exact hm

/-- A read adds a cell for bytes of which none has one, and otherwise leaves memory alone. -/
theorem ReadStep.fresh_or_same {t t' : Table} {bytes : Nat} (hr : access.first ≤ access.last)
    (h : ReadStep t m bytes access v t' m') :
    ((∀ e ∈ m.cells.entries, e.1.intersects access = false) ∧ m.Replaces access v m') ∨
      ((∃ e ∈ m.cells.entries, e.1.intersects access = true) ∧ m' = m) := by
  cases h with
  | exact hin => exact .inr ⟨⟨_, hin, AddressRange.intersects_self hr⟩, rfl⟩
  | fresh hfresh hrep => exact .inl ⟨hfresh, hrep⟩
  | within hin hcontains => exact .inr ⟨⟨_, hin, AddressRange.intersects_of_contains hcontains hr⟩, rfl⟩

/-- What is read is covered then, and all that was before. -/
theorem ReadStep.covers_iff {t t' : Table} {bytes : Nat} (h : ReadStep t m bytes access v t' m') (a : Word) :
    m'.Covers a ↔ m.Covers a ∨ access.Has a := by
  cases h with
  | exact hin => exact ⟨.inl, fun h => h.elim id fun ha => ⟨_, hin, ha⟩⟩
  | fresh _ hrep => rw [hrep.covers_iff, Or.comm]
  | within hin hcontains => exact ⟨.inl, fun h => h.elim id fun ha => ⟨_, hin, AddressRange.has_of_contains hcontains ha⟩⟩

/-- Inputs stay inputs, and a new one is a value of the table by then. -/
theorem ReadStep.inputs {t t' : Table} {bytes : Nat} (h : ReadStep t m bytes access v t' m')
    (hlt : ∀ e ∈ m.inputs.entries, e.1 < t.size) :
    (∀ e ∈ m'.inputs.entries, e.1 < t'.size) ∧ ∀ e ∈ m.inputs.entries, e ∈ m'.inputs.entries := by
  have g := h.grows
  cases h with
  | exact => exact ⟨hlt, fun _ he => he⟩
  | within => exact ⟨fun e he => g.lt (hlt e he), fun _ he => he⟩
  | fresh _ _ hinputs =>
    rw [hinputs]
    constructor
    · intro e he
      rcases SortedMap.mem_insert.mp he with rfl | ⟨he, -⟩
      · exact t.lt_size_push _
      · exact g.lt (hlt e he)
    · exact fun e he => SortedMap.mem_insert.mpr (.inr ⟨he, Nat.ne_of_lt (hlt e he)⟩)

/-- A read of bytes of which some are covered changes nothing in memory. -/
theorem ReadStep.memory_eq (hm : m.Separated) (hr : access.first ≤ access.last) {t t' : Table} {bytes : Nat}
    (h : ReadStep t m bytes access v t' m') {a : Word} (ha : access.Has a) (hc : m.Covers a) : m' = m := by
  cases h with
  | exact => rfl
  | fresh hfresh => exact absurd hc (hm.not_covers hr hfresh ha)
  | within => rfl

/-! ## What a write can do -/

inductive WriteStep (t : Table) (m : Memory) (access : AddressRange) (value : ValueId) :
    Table → Memory → Prop
  | whole {m' : Memory} : m.Replaces access value m' → m'.inputs = m.inputs →
      WriteStep t m access value t m'
  | within {cell : AddressRange} {stored : ValueId} {m' : Memory} : (cell, stored) ∈ m.cells.entries →
      cell.contains access = true → cell.size ≤ 4 →
      m.Replaces cell (writeLane stored value (lane cell access) t).1 m' → m'.inputs = m.inputs →
      WriteStep t m access value (writeLane stored value (lane cell access) t).2 m'

theorem makes_writeLane (stored value : ValueId) (lane : BitRange) :
    (writeLane stored value lane).Makes Node.Computed :=
  Build.makes_merge lane stored value

theorem replaces_insert_covering {first : AddressRange} {rest : List AddressRange}
    (h : (Placement.covering first rest).Describes m access) {m' : Memory}
    (hm' : m'.cells = ((first :: rest).foldl (·.erase ·) m.cells).insert access v) :
    m.Replaces access v m' := by
  obtain ⟨hnone, hkeys, habsorbs⟩ := h
  have hcells {e : AddressRange × ValueId} (he : e ∈ m.cells.entries) :
      e.1 ∈ first :: rest ↔ e.1.intersects access = true := by
    rw [hkeys, List.mem_map]
    constructor
    · rintro ⟨e', he', hk⟩
      rw [← hk]
      exact (mem_touched.mp he').2
    · intro hi
      exact ⟨e, mem_touched.mpr ⟨he, hi⟩, rfl⟩
  refine ⟨habsorbs, fun e => ?_⟩
  rw [hm', SortedMap.mem_insert, SortedMap.mem_foldl_erase]
  refine or_congr_right ⟨fun ⟨⟨he, hgone⟩, _⟩ => ⟨he, ?_⟩, fun ⟨he, hi⟩ => ⟨⟨he, fun hk => ?_⟩, fun hk => ?_⟩⟩
  · rw [← Bool.not_eq_true, ← hcells he]
    exact hgone
  · rw [hcells he, hi] at hk
    cases hk
  · exact hnone e.2 (hk ▸ he)

theorem write_step (hm : m.Separated) {address : Word} {bytes : Nat} {value : ValueId} {b : Build Memory}
    (h : m.write address bytes value = .ok b) (t : Table) :
    ∃ access, AddressRange.ofAccess? address bytes = some access ∧
      WriteStep t m access value (b t).2 (b t).1 := by
  cases ha : Memory.access address bytes with
  | error fault => rw [write, ha] at h; cases h
  | ok access =>
    have ha' := access_eq_ok.mp ha
    have hr := AddressRange.first_le_last_of_access ha'
    refine ⟨access, ha', ?_⟩
    have hd := m.classify_describes access
    simp only [write, ha, bind, Except.bind] at h
    split at h <;> rename_i hc <;> rw [hc] at hd
    · cases h
      exact .whole (hm.replaces_store hd value) rfl
    · cases h
      exact .whole (replaces_insert_fresh hr hd rfl) rfl
    · cases h
      exact .whole (replaces_insert_covering hd rfl) rfl
    · obtain ⟨hin, hcontains, -⟩ := hd
      cases hl : lane? _ access with
      | error fault => rw [hl] at h; cases h
      | ok lane =>
        obtain ⟨hsize, rfl⟩ := lane?_eq_ok hl
        rw [hl] at h
        cases h
        exact .within hin hcontains hsize (hm.replaces_store hin _) rfl
    · cases h

theorem WriteStep.grows {t t' : Table} {value : ValueId} (h : WriteStep t m access value t' m') : t.Grows t' := by
  cases h with
  | whole => exact .refl t
  | within => exact ((makes_writeLane _ _ _).adds t).grows

theorem WriteStep.separated (hm : m.Separated) (hr : access.first ≤ access.last) {t t' : Table} {value : ValueId}
    (h : WriteStep t m access value t' m') : m'.Separated := by
  cases h with
  | whole hrep => exact hrep.separated hm hr
  | within hin _ _ hrep => exact hrep.separated hm (hm.first_le_last _ hin)

theorem WriteStep.covers_iff {t t' : Table} {value : ValueId} (h : WriteStep t m access value t' m') (a : Word) :
    m'.Covers a ↔ m.Covers a ∨ access.Has a := by
  cases h with
  | whole hrep => rw [hrep.covers_iff, Or.comm]
  | within hin hcontains _ hrep =>
    rw [hrep.covers_iff]
    constructor
    · exact fun h => .inl (h.elim (fun hcell => ⟨_, hin, hcell⟩) id)
    · exact fun h => h.elim .inr fun ha => .inl (AddressRange.has_of_contains hcontains ha)

theorem WriteStep.inputs_eq {t t' : Table} {value : ValueId} (h : WriteStep t m access value t' m') :
    m'.inputs = m.inputs := by
  cases h <;> assumption

end Memory

end TraceReplay
