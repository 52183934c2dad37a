/-
  TraceReplay.Proofs.Replay.WriteChecks — a check before a write foretells it.

  A destination is checked long before it is written, by a case split of its own. The check is the
  write without its result (`Memory.map_write`, `RegisterFile.map_write`). A read of memory is
  refused where a write is, and besides where whole cells lie inside it (`Memory.read_error_iff`).

  Proved, of every session (`a_write_fails_exactly_as_its_check_does`): a write of memory or of a named
  register fails if and only if its check fails, with the same fault; and whatever fails, be it a read
  or a write, leaves table, registers and memory as they were.
-/

import TraceReplay.Proofs.Replay.Atomicity

namespace TraceReplay

theorem map_eq_error_iff {α β : Type} {f : α → β} {x : Except Fault α} {fault : Fault} :
    x.map f = .error fault ↔ x = .error fault := by
  constructor
  · intro h
    cases x with
    | error e => cases h; rfl
    | ok a => cases h
  · intro h
    rw [h]
    rfl

/-! ## Checks and writes -/

namespace Memory

variable {m : Memory} {address : Word} {bytes : Nat} {fault : Fault}

/-- A check of memory makes the same distinctions as a write, and keeps nothing of it. -/
theorem map_write (m : Memory) (address : Word) (bytes : Nat) (value : ValueId) :
    (m.write address bytes value).map (fun _ => ()) = m.checkWrite address bytes := by
  simp only [write, checkWrite, bind, Except.bind]
  cases access address bytes with
  | error fault => rfl
  | ok range =>
    cases hplace : m.classify range with
    | exact | fresh | covering | straddling => simp only [hplace]; rfl
    | within cell stored =>
      by_cases hsize : cell.size > 4
      · simp only [hplace, lane?, if_pos hsize]; rfl
      · simp only [hplace, lane?, if_neg hsize]; rfl

/-- A read is refused like a write, and also if it contains whole cells: the lowest is named. -/
theorem read_error_iff : m.read address bytes = .error fault ↔
    m.checkWrite address bytes = .error fault ∨ ∃ range first rest,
      AddressRange.ofAccess? address bytes = some range ∧ m.classify range = .covering first rest ∧
        fault = .partialOverlap range first := by
  simp only [read, checkWrite, bind, Except.bind, ← access_eq_ok]
  cases haccess : access address bytes with
  | error e => simp
  | ok range =>
    cases hplace : m.classify range with
    | exact | fresh | straddling => simp [hplace]
    | covering first rest => simp [hplace, eq_comm]
    | within cell stored =>
      by_cases hsize : cell.size > 4
      · simp [hplace, lane?, hsize]
      · simp [hplace, lane?, hsize]

end Memory

/-- A check of a register makes the same distinctions as a write, and keeps nothing of it. -/
theorem RegisterFile.map_write (regs : RegisterFile) (view : RegisterView) (value : ValueId) :
    (regs.write view value).map (fun _ => ()) = regs.checkWrite view := by
  cases view with
  | full r => rfl
  | low16 r | low8 r | high8 r =>
    simp only [write, checkWrite]
    cases regs.owner _ <;> rfl

/-! ## Computations on a session -/

namespace Replay

variable {α β : Type} {s s' : Session} {fault : Fault}

theorem plan_error_iff {p : Except Fault (Build α)} :
    plan p s = .error fault s' ↔ p = .error fault ∧ s' = s := by
  refine ⟨plan_error, ?_⟩
  rintro ⟨rfl, rfl⟩
  rfl

/-- What is planned fails before anything is built; after that nothing does. -/
theorem plan_bind_error_iff {p : Except Fault (Build α)} {f : α → Replay β}
    (hf : ∀ a s₁, f a s₁ ≠ .error fault s') :
    (plan p >>= f) s = .error fault s' ↔ p = .error fault ∧ s' = s := by
  constructor
  · intro h
    rcases bind_error h with hplan | ⟨a, s₁, -, hrest⟩
    · exact plan_error hplan
    · exact absurd hrest (hf a s₁)
  · rintro ⟨rfl, rfl⟩
    rfl

theorem writeMemory_error_iff {address : Word} {bytes : Nat} {value : ValueId} :
    writeMemory address bytes value s = .error fault s' ↔
      s.memory.checkWrite address bytes = .error fault ∧ s' = s := by
  rw [← Memory.map_write _ _ _ value, map_eq_error_iff]
  exact plan_bind_error_iff fun _ _ => nofun

theorem writeRegister_error_iff {view : RegisterView} {value : ValueId} :
    writeRegister view value s = .error fault s' ↔ s.registers.checkWrite view = .error fault ∧ s' = s := by
  rw [← RegisterFile.map_write _ _ value, map_eq_error_iff]
  exact plan_bind_error_iff fun _ _ => nofun

theorem readMemory_error_iff {address : Word} {bytes : Nat} :
    readMemory address bytes s = .error fault s' ↔ s.memory.read address bytes = .error fault ∧ s' = s :=
  plan_bind_error_iff fun _ _ => nofun

theorem readRegister_error_iff {view : RegisterView} :
    readRegister view s = .error fault s' ↔ s.registers.owner view.owner = .error fault ∧ s' = s := by
  rw [← map_eq_error_iff (f := fun owner => view.extract owner)]
  exact plan_error_iff

/-- If what follows a name fails as a check does, it fails by name as the check by name does. -/
theorem check_view_bind_error_iff {name : String} {f : RegisterView → Replay α}
    {checked : RegisterView → Except Fault β}
    (hf : ∀ view, f view s = .error fault s' ↔ checked view = .error fault ∧ s' = s) :
    (check (RegisterFile.view name) >>= f) s = .error fault s' ↔
      (RegisterFile.view name >>= checked) = .error fault ∧ s' = s := by
  cases RegisterFile.view name with
  | ok view => exact hf view
  | error e =>
    constructor
    · intro h
      cases h
      exact ⟨rfl, rfl⟩
    · rintro ⟨h, rfl⟩
      cases h
      rfl

end Replay

namespace Session

/-- Memory and named registers of any session. A write fails if and only if its check does, for the
    same fault, and then nothing has changed. Nor has anything after a read that fails; such a read
    meets the fault of a check or lies over whole cells, or names a register without a value. -/
theorem a_write_fails_exactly_as_its_check_does (s : Session) :
    (∀ address bytes value fault s', Replay.writeMemory address bytes value s = .error fault s' ↔
      s.memory.checkWrite address bytes = .error fault ∧ s' = s) ∧
    (∀ name value fault s',
      (do Replay.writeRegister (← Replay.check (RegisterFile.view name)) value) s = .error fault s' ↔
        (do s.registers.checkWrite (← RegisterFile.view name)) = .error fault ∧ s' = s) ∧
    (∀ address bytes fault s', Replay.readMemory address bytes s = .error fault s' ↔
      (s.memory.checkWrite address bytes = .error fault ∨ ∃ range first rest,
        AddressRange.ofAccess? address bytes = some range ∧ s.memory.classify range = .covering first rest ∧
          fault = .partialOverlap range first) ∧ s' = s) ∧
    (∀ name fault s', Replay.readNamed name s = .error fault s' ↔
      (do s.registers.owner (← RegisterFile.view name).owner) = .error fault ∧ s' = s) := by
  refine ⟨fun address bytes value fault s' => Replay.writeMemory_error_iff, fun name value fault s' => ?_,
    fun address bytes fault s' => ?_, fun name fault s' => ?_⟩
  · exact Replay.check_view_bind_error_iff fun view => Replay.writeRegister_error_iff
  · rw [Replay.readMemory_error_iff, Memory.read_error_iff]
  · exact Replay.check_view_bind_error_iff fun view => Replay.readRegister_error_iff

end Session

end TraceReplay
