/-
  TraceReplay.Proofs.Replay.Footprint — what an instruction may change, to the cell.

  An instruction that is passed over changes nothing. Any other one, whether it fails or not,
  changes registers that have a destination and cells that meet one; what is stored afterwards
  and was not before is a destination or bytes that became an input. If it fails and is no
  exchange, only inputs with their cells are new, each made by a read of its own
  (`an_instruction_changes_its_destinations_and_learns_its_sources`).
-/

import TraceReplay.Proofs.Replay.Effects

namespace TraceReplay

namespace Session

variable {s s' : Session} {insn : Instruction} {range : AddressRange} {id : ValueId}

def Beside (insn : Instruction) (range : AddressRange) : Prop :=
  ∀ place ∈ insn.destinations, ∀ access, place.range? = some access → range.intersects access = false

/-- What an instruction leaves alone, and what it may add, whether it fails or not. -/
structure Footprint (insn : Instruction) (s s' : Session) : Prop where
  registers : ∀ r, (∀ view, .register view ∈ insn.destinations → view.owner ≠ r) →
    s'.registers.get? r = s.registers.get? r
  cells : ∀ range id, s.memory.get? range = some id → Beside insn range → s'.memory.get? range = some id
  stored : ∀ range ∈ s'.memory.cells.keys, range ∉ s.memory.cells.keys →
    (∃ place ∈ insn.destinations, place.range? = some range) ∨ ∃ id, s.NewInput s' id range

structure OnlyLearns (insn : Instruction) (s s' : Session) : Prop where
  registers : s'.registers = s.registers
  cells : ∀ range id, s.memory.get? range = some id → s'.memory.get? range = some id
  mem_cells_iff : ∀ range id, (range, id) ∈ s'.memory.cells.entries ↔
    (range, id) ∈ s.memory.cells.entries ∨ s.NewInput s' id range
  made : ∀ id range, s.NewInput s' id range →
    ∃ bytes, Replay.Makes insn ((Action.ofInstruction insn).sources insn) s id range bytes

theorem Learns.get? (h : s.Learns s') (hid : s.memory.get? range = some id) : s'.memory.get? range = some id :=
  SortedMap.get?_eq_some_iff.mpr ((h.mem_cells_iff range id).mpr (.inl (SortedMap.get?_eq_some_iff.mp hid)))

theorem Learns.stored (h : s.Learns s') (hin : range ∈ s'.memory.cells.keys) :
    range ∈ s.memory.cells.keys ∨ ∃ id, s.NewInput s' id range := by
  obtain ⟨e, he, rfl⟩ := List.mem_map.mp hin
  exact ((h.mem_cells_iff e.1 e.2).mp he).imp (fun he => List.mem_map.mpr ⟨e, he, rfl⟩) fun hnew => ⟨e.2, hnew⟩

theorem Gathers.onlyLearns (h : s.Gathers insn s') : OnlyLearns insn s s' where
  registers := h.registers
  cells _ _ := h.toLearns.get?
  mem_cells_iff := h.mem_cells_iff
  made id range hnew := (h.made id range hnew).imp fun _ hmade => hmade.1

/-- What is gathered first and written then is within the footprint. -/
theorem Gathers.footprint {s'' : Session} (h : s.Gathers insn s') (hw : Writes insn.destinations s' s'') :
    Footprint insn s s'' where
  registers r hr := by rw [hw.registers r hr, h.registers]
  cells range id hid hbeside := by
    have hkept := SortedMap.get?_eq_some_iff.mp (h.toLearns.get? hid)
    exact SortedMap.get?_eq_some_iff.mpr ((hw.cells range hbeside id).mpr hkept)
  stored range hin hnot := by
    rcases hw.stored range hin with hin | hplace
    · obtain ⟨id, hnew⟩ := (h.toLearns.stored hin).resolve_left hnot
      refine .inr ⟨id, ?_, hnew.2⟩
      rw [hw.memoryInputs]
      exact hnew.1
    · exact .inl hplace

/-- Whatever has happened to a session, an instruction that is passed over leaves it as it is. Any
    other keeps to its footprint, and is counted if it succeeds; if it fails and is no exchange,
    it only learns. -/
theorem an_instruction_changes_its_destinations_and_learns_its_sources (skip : SkipSet) (start : Start)
    (events : List Event) (insn : Instruction) :
    let s := (start.session skip).after events
    let s' := (Replay.step insn).after s
    (s.skip.contains insn.mnemonic = true → Replay.step insn s = .ok () s) ∧
    (s.skip.contains insn.mnemonic = false → Footprint insn s s' ∧
      (Replay.step insn s = .ok () s' ∧ s'.executed = s.executed + 1 ∨
        ∃ fault, Replay.step insn s = .error fault s' ∧ s'.executed = s.executed ∧
          (insn.mnemonic ≠ "xchg" → OnlyLearns insn s s'))) := by
  intro s s'
  refine ⟨fun hskip => ?_, fun hskip => ?_⟩
  · exact step_skipped hskip
  · have hs : s.Sound := (start.sound skip).after events
    obtain ⟨s₁, s₂, hgathers, hwrites, hend⟩ := step_effect hs hskip
    have hfoot := hgathers.footprint hwrites
    have hcount : s₂.executed = s.executed := hwrites.executed.trans hgathers.executed
    rcases hend with hok | ⟨fault, herror, honly⟩
    · have hafter : s' = { s₂ with executed := s₂.executed + 1 } := Replay.after_ok hok
      rw [hafter]
      refine ⟨⟨hfoot.registers, hfoot.cells, hfoot.stored⟩, .inl ⟨hok, ?_⟩⟩
      rw [hcount]
    · have hafter : s' = s₂ := Replay.after_error herror
      rw [hafter]
      refine ⟨hfoot, .inr ⟨fault, herror, hcount, fun hx => ?_⟩⟩
      rw [honly hx]
      exact hgathers.onlyLearns

def pushOntoSource : Instruction :=
  { address := 0x1000, mnemonic := "push", operands := [.memory { form := .base .ebx, bits := 32 }]
    readAddress := some 258, writeAddress := some 256 }

/-- The push fails, and leaves the bytes that it has read as an input. -/
theorem a_push_onto_its_source_only_learns :
    ∃ fault s', Replay.step pushOntoSource ((Start.symbols Register.all).session ⟨.empty⟩) = .error fault s' ∧
      OnlyLearns pushOntoSource ((Start.symbols Register.all).session ⟨.empty⟩) s' ∧
      s'.memory.cells.keys = [⟨258, 261⟩] := by
  have hfails :
      ((Replay.step pushOntoSource).fault? ((Start.symbols Register.all).session ⟨.empty⟩)).isSome = true := by
    decide +kernel
  have hcells : ((Replay.step pushOntoSource).after ((Start.symbols Register.all).session ⟨.empty⟩)).memory.cells.keys =
      [⟨258, 261⟩] := by decide +kernel
  obtain ⟨-, heffect⟩ :=
    an_instruction_changes_its_destinations_and_learns_its_sources ⟨.empty⟩ (.symbols Register.all) [] pushOntoSource
  obtain ⟨-, ⟨hok, -⟩ | ⟨fault, herror, -, honly⟩⟩ := heffect rfl
  · have hnone : (Replay.step pushOntoSource).fault? ((Start.symbols Register.all).session ⟨.empty⟩) = none := by
      unfold Replay.fault?
      rw [show Replay.step pushOntoSource ((Start.symbols Register.all).session ⟨.empty⟩) = _ from hok]
    rw [hnone] at hfails
    cases hfails
  · exact ⟨fault, _, herror, honly (by decide), hcells⟩

end Session

end TraceReplay
