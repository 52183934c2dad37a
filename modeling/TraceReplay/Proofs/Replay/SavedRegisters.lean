/-
  TraceReplay.Proofs.Replay.SavedRegisters — registers that are saved in memory come back.

  A push of a whole register puts the value itself into the four bytes. Only a cell of at most four
  bytes is written in part, and one that contains the slot is the slot, so nothing is merged
  (`Memory.write_word`). From then on the bytes are a cell, and no instruction that writes beside
  them changes it (`Session.run_keeps`), be it a later push or anything else. A pop finds the cell
  and gives its value to the register, and builds nothing (`Session.step_pops`).

  Proved, of every session that a history leads to (`registers_saved_in_memory_come_back`): if registers
  are pushed to slots that are apart, and a trace runs that writes beside the slots, the pops succeed and
  every register holds the value that it held before the pushes. Pushes and pops add no value.
-/

import TraceReplay.Proofs.Memory.Placements
import TraceReplay.Proofs.Replay.Footprint

namespace TraceReplay

/-! ## Slots -/

structure Save where
  register : Register
  address : Word

/-- The bytes that the register is saved in. They must not run past the last address. -/
def Save.slot? (save : Save) : Option AddressRange := AddressRange.ofAccess? save.address 4

def Save.Apart (a b : Save) : Prop := ∀ r ∈ a.slot?, ∀ s ∈ b.slot?, r.intersects s = false

instance (a b : Save) : Decidable (a.Apart b) :=
  inferInstanceAs (Decidable (∀ r ∈ a.slot?, ∀ s ∈ b.slot?, r.intersects s = false))

/-- The instruction has one operand, a whole register under any of its names. -/
def Instruction.Takes (insn : Instruction) (r : Register) : Prop :=
  ∃ name, insn.operands = [.register name 32] ∧ RegisterFile.view name = .ok (.full r)

structure Instruction.Pushes (insn : Instruction) (save : Save) : Prop where
  mnemonic : insn.mnemonic = "push"
  takes : insn.Takes save.register
  address : insn.writeAddress = some save.address

structure Instruction.Pops (insn : Instruction) (save : Save) : Prop where
  mnemonic : insn.mnemonic = "pop"
  takes : insn.Takes save.register
  address : insn.readAddress = some save.address

theorem Operand.byteCount_word (name : String) : (register name 32).byteCount = 4 := by
  simp [byteCount, bits]

theorem AddressRange.eq_of_contains_word {cell slot : AddressRange} {address : Word} (hcell : cell.Small)
    (hslot : ofAccess? address 4 = some slot) (h : cell.contains slot = true) : cell = slot := by
  obtain ⟨rfl, hlast⟩ := ofAccess?_eq_some_iff.mp hslot
  obtain ⟨hle, hle'⟩ := contains_iff.mp h
  have hlt := hcell.2
  rw [BitVec.le_def] at hle hle'
  have hf : cell.first = slot.first := BitVec.eq_of_toNat_eq (by omega)
  have hl : cell.last = slot.last := BitVec.eq_of_toNat_eq (by omega)
  cases cell
  cases slot
  simp_all

namespace Memory

variable {m : Memory} {slot : AddressRange} {address : Word} {value : ValueId}

/-- Four bytes that are written become a cell with the value as it is. -/
theorem write_word (hm : m.Separated) (hshort : ∀ e ∈ m.cells.entries, e.1.Short)
    (hslot : AddressRange.ofAccess? address 4 = some slot) {b : Build Memory}
    (h : m.write address 4 value = .ok b) : ∃ m', m.Replaces slot value m' ∧ b = pure m' := by
  have hle := AddressRange.first_le_last_of_access hslot
  have hd := m.classify_describes slot
  have hlocates := hm.locates_classify hle
  simp only [write, access_eq_ok.mpr hslot, bind, Except.bind] at h
  cases hplace : m.classify slot with
  | exact stored =>
    rw [hplace] at h hd
    cases h
    exact ⟨_, hm.replaces_store hd value, rfl⟩
  | fresh =>
    rw [hplace] at h hd
    cases h
    exact ⟨_, replaces_insert_fresh hle hd rfl, rfl⟩
  | covering first rest =>
    rw [hplace] at h hd
    cases h
    exact ⟨_, replaces_insert_covering hd rfl, rfl⟩
  | straddling cell => rw [hplace] at h; cases h
  | within cell stored =>
    -- a cell that is written in part has four bytes at most, and so it would be the slot
    rw [hplace] at h hlocates
    obtain ⟨hin, hencloses, hne⟩ := hlocates
    cases hlane : lane? cell slot with
    | error fault => simp only [hlane] at h; cases h
    | ok lane =>
      obtain ⟨hsize, -⟩ := lane?_eq_ok hlane
      have hsmall := (hshort _ hin).small (hm.first_le_last _ hin) hsize
      have hcontains := (AddressRange.encloses_iff hle).mp hencloses
      exact absurd (AddressRange.eq_of_contains_word hsmall hslot hcontains) hne

/-- A cell is read as it is. -/
theorem read_stored {bytes : Nat} (hslot : AddressRange.ofAccess? address bytes = some slot)
    (hid : m.get? slot = some value) : m.read address bytes = .ok (pure (value, m)) := by
  have hplace : m.classify slot = .exact value := by rw [classify, hid]
  simp only [read, access_eq_ok.mpr hslot, bind, Except.bind, hplace]

end Memory

namespace Session

variable {s s' : Session} {insn : Instruction} {save : Save} {slot : AddressRange} {id : ValueId}

instance (insn : Instruction) (range : AddressRange) : Decidable (Beside insn range) :=
  inferInstanceAs (Decidable
    (∀ place ∈ insn.destinations, ∀ access ∈ place.range?, range.intersects access = false))

/-! ## What stays -/

/-- A cell that the instruction writes beside is still there when it has succeeded. -/
theorem step_keeps (hs : s.Sound) (hstep : Replay.step insn s = .ok () s')
    (hbeside : s.skip.contains insn.mnemonic = false → Beside insn slot) (hid : s.memory.get? slot = some id) :
    s'.memory.get? slot = some id := by
  cases hskip : s.skip.contains insn.mnemonic with
  | true =>
    cases (step_skipped hskip).symm.trans hstep
    exact hid
  | false =>
    obtain ⟨s₁, s₂, hgathers, hwrites, hok | ⟨fault, herror, -⟩⟩ := step_effect hs hskip
    · cases hok.symm.trans hstep
      exact (hgathers.footprint hwrites).cells slot id hid (hbeside hskip)
    · cases herror.symm.trans hstep

theorem Sound.step_ok (hs : s.Sound) (hstep : Replay.step insn s = .ok () s') : s'.Sound := by
  rw [← Replay.after_ok hstep]
  exact hs.after_step insn

/-- A run that writes beside a cell keeps it. -/
theorem run_keeps {trace : List Instruction} (hs : s.Sound) (hrun : Replay.run trace s = .ok () s')
    (hbeside : ∀ insn ∈ trace, s.skip.contains insn.mnemonic = false → Beside insn slot)
    (hid : s.memory.get? slot = some id) : s'.memory.get? slot = some id := by
  induction trace generalizing s with
  | nil =>
    cases hrun
    exact hid
  | cons insn trace ih =>
    obtain ⟨s₁, hstep, hrest⟩ := Replay.run_cons_ok.mp hrun
    obtain ⟨hhead, htail⟩ := List.forall_mem_cons.mp hbeside
    refine ih (hs.step_ok hstep) hrest ?_ (step_keeps hs hstep hhead hid)
    rw [(Replay.extending_step insn s () s₁ hs.toTidy hstep).skip]
    exact htail

theorem Sound.run_ok {trace : List Instruction} (hs : s.Sound) (hrun : Replay.run trace s = .ok () s') :
    s'.Sound := by
  induction trace generalizing s with
  | nil =>
    cases hrun
    exact hs
  | cons insn trace ih =>
    obtain ⟨s₁, hstep, hrest⟩ := Replay.run_cons_ok.mp hrun
    exact ih (hs.step_ok hstep) hrest

/-! ## Pushing -/

theorem destinations_of_pushes (h : insn.Pushes save) : insn.destinations = [.memory save.address 4] := by
  obtain ⟨name, hoperands, -⟩ := h.takes
  simp only [Instruction.destinations, hoperands, if_pos h.mnemonic, Instruction.pushAddress, h.address,
    Option.getD_some, Operand.byteCount_word]

/-- A push writes beside every slot that is apart from its own. -/
theorem beside_of_pushes {other : Save} (h : insn.Pushes other) (hapart : save.Apart other)
    (hslot : save.slot? = some slot) : Beside insn slot := by
  intro place hin access haccess
  rw [destinations_of_pushes h, List.mem_singleton] at hin
  subst hin
  exact hapart slot hslot access haccess

theorem beside_of_all_pushes {pushes : List Instruction} {saves : List Save}
    (h : List.Forall₂ Instruction.Pushes pushes saves) (hapart : ∀ other ∈ saves, save.Apart other)
    (hslot : save.slot? = some slot) : ∀ insn ∈ pushes, Beside insn slot := by
  induction h with
  | nil => exact nofun
  | cons hpush _ ih =>
    obtain ⟨hhead, htail⟩ := List.forall_mem_cons.mp hapart
    exact List.forall_mem_cons.mpr ⟨beside_of_pushes hpush hhead hslot, ih htail⟩

theorem writeMemory_word (hs : s.Sound) {address : Word} (h : Replay.writeMemory address 4 id s = .ok () s') :
    ∃ slot m', AddressRange.ofAccess? address 4 = some slot ∧ s.memory.Replaces slot id m' ∧
      s' = { s with memory := m' } := by
  obtain ⟨-, slot, hslot, -⟩ := Replay.writeMemory_ok hs.separated h
  obtain ⟨_, s₁, hplan, hmodify⟩ := Replay.bind_ok (Replay.get_bind_ok h)
  obtain ⟨b, hb, rfl, rfl⟩ := Replay.plan_ok hplan
  obtain ⟨m', hrep, rfl⟩ := Memory.write_word hs.separated hs.cells_short hslot hb
  cases hmodify
  exact ⟨slot, m', hslot, hrep, rfl⟩

/-- A push that succeeds puts the value of the register into its slot, and does nothing else. -/
theorem step_pushes (hs : s.Sound) (hskip : s.skip.contains "push" = false) (h : insn.Pushes save)
    (hstep : Replay.step insn s = .ok () s') :
    ∃ slot id m', save.slot? = some slot ∧ s.registers.get? save.register = some id ∧
      s.memory.Replaces slot id m' ∧ s' = { s with memory := m', executed := s.executed + 1 } := by
  obtain ⟨name, hoperands, hname⟩ := h.takes
  have haction : Action.ofInstruction insn = .push (.register name 32) := by
    rw [Action.ofInstruction, hoperands, h.mnemonic]
    rfl
  have haddress : insn.pushAddress 4 = save.address := by rw [Instruction.pushAddress, h.address]; rfl
  rw [step_performed (by rw [h.mnemonic, hskip]), haction] at hstep
  obtain ⟨_, s₃, hpush, hcount⟩ := Replay.bind_ok hstep
  rw [Replay.perform, Replay.push, Operand.byteCount_word, haddress] at hpush
  obtain ⟨_, _, hcheck, hrest⟩ := Replay.bind_ok (Replay.get_bind_ok hpush)
  obtain ⟨-, rfl⟩ := Replay.check_ok hcheck
  obtain ⟨id, s₁, hread, hwrite⟩ := Replay.bind_ok hrest
  -- a whole register is read as it is
  obtain ⟨view, s₂, hnamed, hregister⟩ := Replay.bind_ok hread
  obtain ⟨hview, rfl⟩ := Replay.check_ok hnamed
  cases hname.symm.trans hview
  obtain ⟨id, hid, rfl, rfl⟩ := Replay.readRegister_ok hregister
  obtain ⟨slot, m', hslot, hrep, rfl⟩ := writeMemory_word hs hwrite
  cases hcount
  exact ⟨slot, id, m', hslot, hid, hrep, rfl⟩

def Saved (regs : RegisterFile) (s : Session) (save : Save) : Prop :=
  ∃ slot id, save.slot? = some slot ∧ regs.get? save.register = some id ∧ s.memory.get? slot = some id

/-- Pushes to slots that are apart save all their registers. Registers and table stay as they are. -/
theorem run_pushes {pushes : List Instruction} {saves : List Save}
    (hpushes : List.Forall₂ Instruction.Pushes pushes saves) (hapart : saves.Pairwise Save.Apart) (hs : s.Sound)
    (hskip : s.skip.contains "push" = false) (hrun : Replay.run pushes s = .ok () s') :
    s'.registers = s.registers ∧ s'.table = s.table ∧ ∀ save ∈ saves, Saved s.registers s' save := by
  induction hpushes generalizing s with
  | nil =>
    cases hrun
    exact ⟨rfl, rfl, nofun⟩
  | @cons insn save pushes saves hpush hpushes ih =>
    obtain ⟨hhead, htail⟩ := List.pairwise_cons.mp hapart
    obtain ⟨s₁, hstep, hrest⟩ := Replay.run_cons_ok.mp hrun
    have hs₁ := hs.step_ok hstep
    obtain ⟨slot, id, m', hslot, hid, hrep, rfl⟩ := step_pushes hs hskip hpush hstep
    obtain ⟨hregisters, htable, hsaved⟩ := ih htail hs₁ hskip hrest
    refine ⟨hregisters, htable, List.forall_mem_cons.mpr ⟨⟨slot, id, hslot, hid, ?_⟩, hsaved⟩⟩
    -- the later pushes write beside the slot
    have hcell : m'.get? slot = some id := SortedMap.get?_eq_some_iff.mpr ((hrep.mem_iff _).mpr (.inl rfl))
    exact run_keeps hs₁ hrest (fun later hlater _ => beside_of_all_pushes hpushes hhead hslot later hlater) hcell

/-! ## Popping -/

/-- A pop of a slot that is a cell gives the register its value, and does nothing else. -/
theorem step_pops (hskip : s.skip.contains "pop" = false) (h : insn.Pops save) (hslot : save.slot? = some slot)
    (hid : s.memory.get? slot = some id) : Replay.step insn s =
      .ok () { s with registers := s.registers.set save.register id, executed := s.executed + 1 } := by
  obtain ⟨name, hoperands, hname⟩ := h.takes
  have haction : Action.ofInstruction insn = .pop (.register name 32) := by
    rw [Action.ofInstruction, hoperands, h.mnemonic]
    rfl
  have haddress : insn.popAddress = save.address := by rw [Instruction.popAddress, h.address]; rfl
  have hplace : Replay.resolve insn (.register name 32) s = .ok (.register (.full save.register)) s := by
    show Replay.check (s.destination insn (.register name 32)) s = _
    simp only [destination, hname]
    rfl
  have hread : Replay.readMemory save.address 4 s = .ok id s := by
    show (Replay.plan (s.memory.read save.address 4) >>= _ : Replay ValueId) s = _
    rw [Memory.read_stored hslot hid]
    rfl
  rw [step_performed (by rw [h.mnemonic, hskip]), haction, Replay.perform, Replay.pop, Operand.byteCount_word,
    haddress, bind_run ((bind_run hplace).trans (bind_run hread))]
  rfl

/-- Pops of saved registers succeed. They get the values that were saved, and nothing else changes but
    the count. -/
theorem run_pops {regs : RegisterFile} {pops : List Instruction} {saves : List Save}
    (hpops : List.Forall₂ Instruction.Pops pops saves) (hskip : s.skip.contains "pop" = false)
    (hsaved : ∀ save ∈ saves, Saved regs s save) :
    ∃ s', Replay.run pops s = .ok () s' ∧ s'.table = s.table ∧ s'.memory = s.memory ∧
      ∀ r, s'.registers.get? r = if r ∈ saves.map (·.register) then regs.get? r else s.registers.get? r := by
  induction hpops generalizing s with
  | nil => exact ⟨s, rfl, rfl, rfl, fun r => rfl⟩
  | @cons insn save pops saves hpop hpops ih =>
    obtain ⟨⟨slot, id, hslot, hregister, hid⟩, hrest⟩ := List.forall_mem_cons.mp hsaved
    have hstep := step_pops hskip hpop hslot hid
    obtain ⟨s', hrun, htable, hmemory, hregisters⟩ :=
      ih (s := { s with registers := s.registers.set save.register id, executed := s.executed + 1 }) hskip hrest
    refine ⟨s', (Replay.run_cons_of_step hstep).mpr hrun, htable, hmemory, fun r => ?_⟩
    simp only [hregisters, List.map_cons, List.mem_cons, get?_set]
    by_cases hr : r = save.register
    · subst hr
      simp [hregister]
    · simp [hr]

/-! ## Saving and restoring -/

/-- In any session that a history leads to, whole registers are pushed to slots that are apart, and a
    trace runs whose memory destinations are beside the slots. Then the registers can be popped in
    reverse order: each holds what it held before the pushes, and the others and memory are as the
    trace left them. Neither pushes nor pops add a value. -/
theorem registers_saved_in_memory_come_back (skip : SkipSet) (start : Start) (events : List Event)
    (s s₁ s₂ : Session) (hs : s = (start.session skip).after events)
    (hpush : s.skip.contains "push" = false) (hpop : s.skip.contains "pop" = false)
    (saves : List Save) (hapart : saves.Pairwise Save.Apart) (pushes middle pops : List Instruction)
    (hpushes : List.Forall₂ Instruction.Pushes pushes saves)
    (hpops : List.Forall₂ Instruction.Pops pops saves.reverse)
    (hbeside : ∀ insn ∈ middle, s.skip.contains insn.mnemonic = false →
      ∀ save ∈ saves, ∀ slot ∈ save.slot?, Beside insn slot)
    (hsave : Replay.run pushes s = .ok () s₁) (hmiddle : Replay.run middle s₁ = .ok () s₂) :
    ∃ s₃, Replay.run pops s₂ = .ok () s₃ ∧
      (∀ save ∈ saves, ∃ id, s.registers.get? save.register = some id ∧
        s₃.registers.get? save.register = some id) ∧
      s₁.table = s.table ∧ s₃.table = s₂.table ∧
      (∀ r ∉ saves.map (·.register), s₃.registers.get? r = s₂.registers.get? r) ∧ s₃.memory = s₂.memory := by
  have hsound : s.Sound := hs ▸ (start.sound skip).after events
  obtain ⟨-, htable, hsaved⟩ := run_pushes hpushes hapart hsound hpush hsave
  have hsound₁ := hsound.run_ok hsave
  have hskip₁ := (Replay.extending_run pushes s () s₁ hsound.toTidy hsave).skip
  have hskip₂ := (Replay.extending_run middle s₁ () s₂ hsound₁.toTidy hmiddle).skip
  have hkept : ∀ save ∈ saves.reverse, Saved s.registers s₂ save := by
    intro save hin
    rw [List.mem_reverse] at hin
    obtain ⟨slot, id, hslot, hregister, hid⟩ := hsaved save hin
    refine ⟨slot, id, hslot, hregister, run_keeps hsound₁ hmiddle (fun insn hinsn hperformed => ?_) hid⟩
    exact hbeside insn hinsn (hskip₁ ▸ hperformed) save hin slot hslot
  obtain ⟨s₃, hrun, htable', hmemory, hregisters⟩ := run_pops hpops (by rw [hskip₂, hskip₁, hpop]) hkept
  rw [List.map_reverse] at hregisters
  refine ⟨s₃, hrun, fun save hin => ?_, htable, htable', fun r hr => ?_, hmemory⟩
  · obtain ⟨slot, id, -, hregister, -⟩ := hsaved save hin
    refine ⟨id, hregister, ?_⟩
    rw [hregisters, if_pos (List.mem_reverse.mpr (List.mem_map.mpr ⟨save, hin, rfl⟩)), hregister]
  · rw [hregisters, if_neg (by rwa [List.mem_reverse])]

def storedHalf : Instruction :=
  { address := 0x1000, mnemonic := "mov", operands := [.memory { form := .base .ecx, bits := 16 }, .immediate 7]
    writeAddress := some 0x102 }

def pushTo (name : String) (address : Word) : Instruction :=
  { address := 0x1010, mnemonic := "push", operands := [.register name 32], writeAddress := some address }

theorem pushes_pushTo {name : String} {r : Register} (h : RegisterFile.view name = .ok (.full r)) (address : Word) :
    (pushTo name address).Pushes ⟨r, address⟩ := ⟨rfl, ⟨name, rfl, h⟩, rfl⟩

def popFrom (name : String) (address : Word) : Instruction :=
  { address := 0x1030, mnemonic := "pop", operands := [.register name 32], readAddress := some address }

theorem pops_popFrom {name : String} {r : Register} (h : RegisterFile.view name = .ok (.full r)) (address : Word) :
    (popFrom name address).Pops ⟨r, address⟩ := ⟨rfl, ⟨name, rfl, h⟩, rfl⟩

/-- The saved registers are overwritten, a byte of a slot is read, and the bytes behind the slots are
    written. -/
def overwriting : List Instruction :=
  [{ address := 0x1020, mnemonic := "mov", operands := [.register "eax" 32, .immediate 1] },
    { address := 0x1022, mnemonic := "mov", operands := [.register "bl" 8, .memory { form := .base .ecx, bits := 8 }]
      readAddress := some 0x105 },
    { address := 0x1024, mnemonic := "mov", operands := [.memory { form := .base .ecx, bits := 32 }, .register "ebx" 32]
      writeAddress := some 0x10c }]

/-- One register is saved twice, and the first slot has two bytes before. -/
theorem a_register_saved_twice_comes_back :
    let s := ((Start.symbols Register.all).session ⟨.empty⟩).after [.step storedHalf]
    ∃ s₁ s₂ s₃, Replay.run [pushTo "eax" 0x100, pushTo "ebx" 0x104, pushTo "eax" 0x108] s = .ok () s₁ ∧
      Replay.run overwriting s₁ = .ok () s₂ ∧
      Replay.run [popFrom "eax" 0x108, popFrom "ebx" 0x104, popFrom "eax" 0x100] s₂ = .ok () s₃ ∧
      (∃ id, s.registers.get? .eax = some id ∧ s₃.registers.get? .eax = some id) ∧
      (∃ id, s.registers.get? .ebx = some id ∧ s₃.registers.get? .ebx = some id) ∧
      s₁.table = s.table ∧ s₃.table = s₂.table := by
  intro s
  have hfault : (Replay.run [pushTo "eax" 0x100, pushTo "ebx" 0x104, pushTo "eax" 0x108]).fault? s = none := by
    decide +kernel
  have hsave := Replay.ok_after_of_fault? hfault
  generalize hs₁ : (Replay.run [pushTo "eax" 0x100, pushTo "ebx" 0x104, pushTo "eax" 0x108]).after s = s₁ at hsave
  have hfault' : (Replay.run overwriting).fault? s₁ = none := by
    rw [← hs₁]
    decide +kernel
  have hmiddle := Replay.ok_after_of_fault? hfault'
  obtain ⟨s₃, hpops, hback, htable, htable', -⟩ := registers_saved_in_memory_come_back ⟨.empty⟩
    (.symbols Register.all) [.step storedHalf] s s₁ _ rfl rfl rfl [⟨.eax, 0x100⟩, ⟨.ebx, 0x104⟩, ⟨.eax, 0x108⟩]
    (by decide +kernel) [pushTo "eax" 0x100, pushTo "ebx" 0x104, pushTo "eax" 0x108] overwriting
    [popFrom "eax" 0x108, popFrom "ebx" 0x104, popFrom "eax" 0x100]
    (.cons (pushes_pushTo rfl _) (.cons (pushes_pushTo rfl _) (.cons (pushes_pushTo rfl _) .nil)))
    (.cons (pops_popFrom rfl _) (.cons (pops_popFrom rfl _) (.cons (pops_popFrom rfl _) .nil)))
    (by decide +kernel) hsave hmiddle
  exact ⟨s₁, _, s₃, hsave, hmiddle, hpops, hback ⟨.eax, 0x100⟩ (by simp), hback ⟨.ebx, 0x104⟩ (by simp),
    htable, htable'⟩

end Session

end TraceReplay
