/-
  TraceReplay.Proofs.Memory.Histories — memory over whole histories of calls.

  A `Store` is a memory with the table that its values live in. A history is a list of calls
  on it: reads and writes, of which any may fail, and values that others append to the table.

  Proved, over every history that starts with an empty memory
  (`cells_are_apart_after_every_history`):
  - no cell is empty, and different cells share no byte;
  - the covered bytes only grow;
  - different inputs share no byte, and an input stands for bytes that no cell had covered and
    no access had touched when it was made.
-/

import TraceReplay.Proofs.Memory.Cells

namespace TraceReplay

structure Store where
  table : Table
  memory : Memory
  deriving DecidableEq

namespace Store

inductive Call where
  | read (address : Word) (bytes : Nat)
  | write (address : Word) (bytes : Nat) (value : ValueId)
  /-- Values appended to the table for other purposes. -/
  | build (values : List Value)

def read (s : Store) (address : Word) (bytes : Nat) : Except Fault (ValueId × Store) :=
  (s.memory.read address bytes).map fun b => ((b s.table).1.1, ⟨(b s.table).2, (b s.table).1.2⟩)

def write (s : Store) (address : Word) (bytes : Nat) (value : ValueId) : Except Fault Store :=
  (s.memory.write address bytes value).map fun b => ⟨(b s.table).2, (b s.table).1⟩

def build (s : Store) (values : List Value) : Store := ⟨values.foldl Table.push s.table, s.memory⟩

/-- A call that fails leaves the store as it is. -/
def call (s : Store) : Call → Store
  | .read address bytes => match s.read address bytes with
    | .ok (_, s') => s'
    | .error _ => s
  | .write address bytes value => match s.write address bytes value with
    | .ok s' => s'
    | .error _ => s
  | .build values => s.build values

def run (s : Store) (calls : List Call) : Store := calls.foldl call s

def Touches (s : Store) (a : Word) : Call → Prop
  | .read address bytes => (∃ r, s.read address bytes = .ok r) ∧
      ∃ access, AddressRange.ofAccess? address bytes = some access ∧ access.Has a
  | .write address bytes value => (∃ s', s.write address bytes value = .ok s') ∧
      ∃ access, AddressRange.ofAccess? address bytes = some access ∧ access.Has a
  | .build _ => False

variable {s s' : Store} {a : Word} {c : Call}

theorem run_append (s : Store) (calls calls' : List Call) :
    s.run (calls ++ calls') = (s.run calls).run calls' := List.foldl_append

theorem read_step {address : Word} {bytes : Nat} {v : ValueId} (h : s.read address bytes = .ok (v, s')) :
    ∃ access, AddressRange.ofAccess? address bytes = some access ∧
      Memory.ReadStep s.table s.memory bytes access v s'.table s'.memory := by
  cases hb : s.memory.read address bytes with
  | error fault => rw [read, hb] at h; cases h
  | ok b =>
    rw [read, hb] at h
    cases h
    exact Memory.read_step hb s.table

theorem write_step (hs : s.memory.Separated) {address : Word} {bytes : Nat} {value : ValueId}
    (h : s.write address bytes value = .ok s') :
    ∃ access, AddressRange.ofAccess? address bytes = some access ∧
      Memory.WriteStep s.table s.memory access value s'.table s'.memory := by
  cases hb : s.memory.write address bytes value with
  | error fault => rw [write, hb] at h; cases h
  | ok b =>
    rw [write, hb] at h
    cases h
    exact Memory.write_step hs hb s.table

theorem grows_build (s : Store) (values : List Value) : s.table.Grows (s.build values).table := by
  show s.table.Grows (values.foldl Table.push s.table)
  generalize s.table = t
  induction values generalizing t with
  | nil => exact .refl t
  | cons v values ih => exact (Table.grows_push t v).trans (ih (t.push v))

/-! ## What one call does -/

/-- The call reads bytes that no cell covers, and so makes a fresh symbol an input. -/
def Introduces (s : Store) (c : Call) (s' : Store) (access : AddressRange) : Prop :=
  ∃ address bytes, c = .read address bytes ∧ AddressRange.ofAccess? address bytes = some access ∧
    s.read address bytes = .ok (s.table.size, s') ∧ (∀ a, access.Has a → ¬ s.memory.Covers a) ∧
    s.table.size < s'.table.size ∧ s'.memory.inputs = s.memory.inputs.insert s.table.size access

structure Effect (s : Store) (c : Call) (s' : Store) : Prop where
  separated : s'.memory.Separated
  size_le : s.table.size ≤ s'.table.size
  covers_iff : ∀ a, s'.memory.Covers a ↔ s.memory.Covers a ∨ s.Touches a c
  inputs : s'.memory.inputs = s.memory.inputs ∨ ∃ access, s.Introduces c s' access

theorem touches_read {address : Word} {bytes : Nat} {r : ValueId × Store} {access : AddressRange}
    (h : s.read address bytes = .ok r) (ha : AddressRange.ofAccess? address bytes = some access) :
    s.Touches a (.read address bytes) ↔ access.Has a := by
  simp [Touches, h, ha]

theorem touches_write {address : Word} {bytes : Nat} {value : ValueId} {access : AddressRange}
    (h : s.write address bytes value = .ok s') (ha : AddressRange.ofAccess? address bytes = some access) :
    s.Touches a (.write address bytes value) ↔ access.Has a := by
  simp [Touches, h, ha]

theorem read_effect (hs : s.memory.Separated) {address : Word} {bytes : Nat} {v : ValueId}
    (h : s.read address bytes = .ok (v, s')) : s.Effect (.read address bytes) s' := by
  obtain ⟨access, ha, hstep⟩ := read_step h
  have hr := AddressRange.first_le_last_of_access ha
  refine ⟨hstep.separated hs hr, hstep.grows.size_le, fun a => ?_, ?_⟩
  · rw [touches_read h ha]
    exact hstep.covers_iff a
  · obtain ⟨t', m'⟩ := s'
    cases hstep with
    | exact => exact .inl rfl
    | fresh hfresh _ hinputs =>
      exact .inr ⟨access, address, bytes, rfl, ha, h, fun a => hs.not_covers hr hfresh, s.table.lt_size_push _, hinputs⟩
    | within => exact .inl rfl

theorem write_effect (hs : s.memory.Separated) {address : Word} {bytes : Nat} {value : ValueId}
    (h : s.write address bytes value = .ok s') : s.Effect (.write address bytes value) s' := by
  obtain ⟨access, ha, hstep⟩ := write_step hs h
  refine ⟨hstep.separated hs (AddressRange.first_le_last_of_access ha), hstep.grows.size_le, fun a => ?_,
    .inl hstep.inputs_eq⟩
  rw [touches_write h ha]
  exact hstep.covers_iff a

theorem call_effect (hs : s.memory.Separated) (c : Call) : s.Effect c (s.call c) := by
  cases c with
  | read address bytes =>
    simp only [call]
    split
    · exact read_effect hs ‹_›
    · rename_i fault hread
      exact ⟨hs, Nat.le_refl _, fun a => by simp [Touches, hread], .inl rfl⟩
  | write address bytes value =>
    simp only [call]
    split
    · exact write_effect hs ‹_›
    · rename_i fault hwrite
      exact ⟨hs, Nat.le_refl _, fun a => by simp [Touches, hwrite], .inl rfl⟩
  | build values => exact ⟨hs, (s.grows_build values).size_le, fun a => by simp [Touches, call, build], .inl rfl⟩

/-! ## Whole histories -/

structure Inv (s : Store) : Prop where
  separated : s.memory.Separated
  inputs_lt : ∀ e ∈ s.memory.inputs.entries, e.1 < s.table.size
  inputs_covered : ∀ e ∈ s.memory.inputs.entries, ∀ a, e.2.Has a → s.memory.Covers a
  inputs_disjoint : ∀ e ∈ s.memory.inputs.entries, ∀ e' ∈ s.memory.inputs.entries, ∀ a,
    e.2.Has a → e'.2.Has a → e.1 = e'.1

theorem inv_empty (t : Table) : Inv ⟨t, .empty⟩ := ⟨Memory.separated_empty, nofun, nofun, nofun⟩

theorem call_inv (h : s.Inv) (c : Call) : (s.call c).Inv := by
  have eff := call_effect h.separated c
  have covered {a : Word} (ha : s.memory.Covers a) : (s.call c).memory.Covers a :=
    (eff.covers_iff a).mpr (.inl ha)
  rcases eff.inputs with hin | ⟨access, address, bytes, rfl, hacc, hread, hnew, hlt, hin⟩
  · refine ⟨eff.separated, ?_, ?_, ?_⟩ <;> rw [hin]
    · exact fun e he => Nat.lt_of_lt_of_le (h.inputs_lt e he) eff.size_le
    · exact fun e he a ha => covered (h.inputs_covered e he a ha)
    · exact h.inputs_disjoint
  · refine ⟨eff.separated, ?_, ?_, ?_⟩ <;> rw [hin] <;> simp only [SortedMap.mem_insert]
    · rintro e (rfl | ⟨he, -⟩)
      · exact hlt
      · exact Nat.lt_of_lt_of_le (h.inputs_lt e he) eff.size_le
    · rintro e (rfl | ⟨he, -⟩) a ha
      · exact (eff.covers_iff a).mpr (.inr ((touches_read hread hacc).mpr ha))
      · exact covered (h.inputs_covered e he a ha)
    · -- an older input is covered already, the new one is not
      rintro e (rfl | ⟨he, -⟩) e' (rfl | ⟨he', -⟩) a ha ha'
      · rfl
      · exact absurd (h.inputs_covered e' he' a ha') (hnew a ha)
      · exact absurd (h.inputs_covered e he a ha) (hnew a ha')
      · exact h.inputs_disjoint e he e' he' a ha ha'

theorem run_inv (h : s.Inv) (calls : List Call) : (s.run calls).Inv := by
  induction calls generalizing s with
  | nil => exact h
  | cons c calls ih => exact ih (call_inv h c)

theorem run_covers (h : s.Inv) (calls : List Call) (ha : s.memory.Covers a) :
    (s.run calls).memory.Covers a := by
  induction calls generalizing s with
  | nil => exact ha
  | cons c calls ih => exact ih (call_inv h c) (((call_effect h.separated c).covers_iff a).mpr (.inl ha))

/-- The history makes the input: it reads these bytes when no cell has covered any of them, and
    no call before has touched any. -/
def MakesInput (s : Store) (calls : List Call) (input : ValueId) (access : AddressRange) : Prop :=
  ∃ before address bytes after, calls = before ++ .read address bytes :: after ∧
    AddressRange.ofAccess? address bytes = some access ∧ input = (s.run before).table.size ∧
    (s.run before).read address bytes = .ok (input, s.run (before ++ [.read address bytes])) ∧
    ∀ a, access.Has a →
      (∀ p q, before = p ++ q → ¬ (s.run p).memory.Covers a) ∧
      (∀ p c q, before = p ++ c :: q → ¬ (s.run p).Touches a c)

theorem makesInput_cons (h : s.Inv) {calls : List Call} {input : ValueId} {access : AddressRange}
    (hm : (s.call c).MakesInput calls input access) : s.MakesInput (c :: calls) input access := by
  obtain ⟨before, address, bytes, after, rfl, hacc, hsize, hread, hnew⟩ := hm
  refine ⟨c :: before, address, bytes, after, rfl, hacc, hsize, hread, fun a ha => ?_⟩
  obtain ⟨hcov, htouch⟩ := hnew a ha
  have hfirst : ¬ (s.call c).memory.Covers a := hcov [] before rfl
  rw [(call_effect h.separated c).covers_iff, not_or] at hfirst
  constructor
  · intro p q hpq
    cases p with
    | nil => exact hfirst.1
    | cons x p =>
      obtain ⟨rfl, htail⟩ := List.cons.inj hpq
      exact hcov p q htail
  · intro p x q hpq
    cases p with
    | nil =>
      obtain ⟨rfl, -⟩ := List.cons.inj hpq
      exact hfirst.2
    | cons y p =>
      obtain ⟨rfl, htail⟩ := List.cons.inj hpq
      exact htouch p x q htail

theorem mem_inputs_run (h : s.Inv) {calls : List Call} {e : ValueId × AddressRange}
    (he : e ∈ (s.run calls).memory.inputs.entries) :
    e ∈ s.memory.inputs.entries ∨ s.MakesInput calls e.1 e.2 := by
  induction calls generalizing s with
  | nil => exact .inl he
  | cons c calls ih =>
    rcases ih (call_inv h c) he with he | hm
    · rcases (call_effect h.separated c).inputs with hin | ⟨access, address, bytes, rfl, hacc, hread, hnew, -, hin⟩
      · exact .inl (hin ▸ he)
      · rw [hin, SortedMap.mem_insert] at he
        rcases he with rfl | ⟨he, -⟩
        · refine .inr ⟨[], address, bytes, calls, rfl, hacc, rfl, hread, fun a ha => ⟨?_, ?_⟩⟩
          · intro p q hpq
            obtain ⟨rfl, -⟩ := List.append_eq_nil_iff.mp hpq.symm
            exact hnew a ha
          · intro p x q hpq
            exact absurd hpq (by simp)
        · exact .inl he
    · exact .inr (makesInput_cons h hm)

/-- Whatever calls are made on an empty memory, cells are not empty and share no byte, covered
    bytes stay covered, and inputs share no byte and stand for bytes that were never covered
    before. -/
theorem cells_are_apart_after_every_history (t : Table) (calls : List Call) :
    (∀ e ∈ (run ⟨t, .empty⟩ calls).memory.cells.entries, e.1.first ≤ e.1.last) ∧
    (∀ e ∈ (run ⟨t, .empty⟩ calls).memory.cells.entries,
      ∀ e' ∈ (run ⟨t, .empty⟩ calls).memory.cells.entries, e.1 ≠ e'.1 →
        ∀ a, ¬ (e.1.Has a ∧ e'.1.Has a)) ∧
    (∀ before after, calls = before ++ after → ∀ a,
      (run ⟨t, .empty⟩ before).memory.Covers a → (run ⟨t, .empty⟩ calls).memory.Covers a) ∧
    (∀ e ∈ (run ⟨t, .empty⟩ calls).memory.inputs.entries,
      ∀ e' ∈ (run ⟨t, .empty⟩ calls).memory.inputs.entries, e.1 ≠ e'.1 →
        ∀ a, ¬ (e.2.Has a ∧ e'.2.Has a)) ∧
    (∀ e ∈ (run ⟨t, .empty⟩ calls).memory.inputs.entries, MakesInput ⟨t, .empty⟩ calls e.1 e.2) := by
  have hinv := run_inv (inv_empty t) calls
  refine ⟨hinv.separated.first_le_last, ?_, ?_, ?_, fun e he => ?_⟩
  · intro e he e' he' hne a ⟨ha, ha'⟩
    exact hne (hinv.separated.disjoint e he e' he' a ha ha')
  · rintro before after rfl a ha
    rw [run_append]
    exact run_covers (run_inv (inv_empty t) before) after ha
  · intro e he e' he' hne a ⟨ha, ha'⟩
    exact hne (hinv.inputs_disjoint e he e' he' a ha ha')
  · exact (mem_inputs_run (inv_empty t) he).resolve_left (by simp [Memory.empty])

end Store

end TraceReplay
