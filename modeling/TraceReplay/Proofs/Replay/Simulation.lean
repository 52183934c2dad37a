/-
  TraceReplay.Proofs.Replay.Simulation — sessions that stand for a state of the machine.

  A session simulates the machine (`Simulates`) if its table is in order, every register holds a
  value for the machine's word, memory holds the machine's bytes, and bytes without a cell are
  those that the machine started with. Reading gives values for what the machine reads
  (`Simulates.readSources`), and an action combines them into a value for its result
  (`Simulates.combine`). A write keeps the simulation exactly if the word does no harm outside
  its place (`Absorbs`, `Simulates.write`): the bits of a narrow place do not cut off the word
  that is put there.
-/

import TraceReplay.Proofs.Memory.Refinement
import TraceReplay.Proofs.Replay.Reference

namespace TraceReplay

namespace Session

structure Binds (σ : Assignment) (init : Machine) (s : Session) : Prop where
  registers : ∀ e ∈ s.registers.inputs.entries, σ e.1 = init.registers e.2
  memory : ∀ e ∈ s.memory.inputs.entries, σ e.1 = init.memory.word e.2

/-- Whatever is read from a register means what the machine has there, and so does every cell.
    Bytes without a cell are as they were at first. -/
structure Agrees (R : Rules) (σ : Assignment) (init : Machine) (s : Session) (m : Machine) : Prop where
  views : ∀ view, ∃ b, s.registers.read view = .ok b ∧ (b s.table).2.Means R σ (b s.table).1 (m.view view)
  cells : ∀ e ∈ s.memory.cells.entries, s.table.Means R σ e.2 (m.memory.word e.1)
  untouched : ∀ a, ¬ s.memory.Covers a → m.memory a = init.memory a

/-- The invariant of a replay that has agreed so far. -/
structure Simulates (R : Rules) (σ : Assignment) (init : Machine) (s : Session) (m : Machine) : Prop where
  inOrder : s.table.InOrder R σ
  registers : ∀ r, ∃ id, s.registers.get? r = some id ∧ s.table.Means R σ id (m.registers r)
  memory : s.memory.Holds R σ s.table m.memory
  untouched : ∀ a, ¬ s.memory.Covers a → m.memory a = init.memory a

variable {R : Rules} {σ : Assignment} {init m : Machine} {s s' : Session} {v : Nat} {w : Word}

theorem Binds.of_extends (h : s'.Binds σ init) (he : s.Extends s') : s.Binds σ init :=
  ⟨he.registerInputs ▸ h.registers, fun e hin => h.memory e (he.memoryInputs e hin)⟩

theorem Simulates.agrees (h : Simulates R σ init s m) : Agrees R σ init s m := by
  refine ⟨fun view => ?_, h.memory.means, h.untouched⟩
  obtain ⟨owner, ho, hw⟩ := h.registers view.owner
  exact ⟨view.extract owner, RegisterFile.read_eq_ok ho, (view.gives_extract h.inOrder hw).post⟩

/-! ## Reading -/

theorem Simulates.ensures {α : Type} {b : Build α} {P : Table → α → Prop} (h : Simulates R σ init s m)
    (hb : b.Ensures R σ s.table P) : Simulates R σ init { s with table := (b s.table).2 } m := by
  refine ⟨hb.inOrder h.inOrder, fun r => ?_, h.memory.grow hb.grows, h.untouched⟩
  obtain ⟨id, hid, hw⟩ := h.registers r
  exact ⟨id, hid, hw.grow hb.grows⟩

theorem Simulates.build {b : Build ValueId} (h : Simulates R σ init s m) (hb : b.Gives R σ s.table w)
    (hrun : Replay.build b s = .ok v s') : Simulates R σ init s' m ∧ s'.table.Means R σ v w := by
  obtain ⟨rfl, rfl⟩ := Replay.build_ok hrun
  exact ⟨h.ensures hb, hb.post⟩

theorem Simulates.readRegister {view : RegisterView} (h : Simulates R σ init s m)
    (hrun : Replay.readRegister view s = .ok v s') :
    Simulates R σ init s' m ∧ s'.table.Means R σ v (m.view view) := by
  obtain ⟨owner, ho, rfl, rfl⟩ := Replay.readRegister_ok hrun
  obtain ⟨id, hid, hw⟩ := h.registers view.owner
  obtain rfl := Option.some.inj (ho.symm.trans hid)
  have gives := view.gives_extract h.inOrder hw
  exact ⟨h.ensures gives, gives.post⟩

theorem Simulates.readMemory {address : Word} {bytes : Nat} (h : Simulates R σ init s m)
    (hb : s'.Binds σ init) (h1 : 1 ≤ bytes) (h4 : bytes ≤ 4)
    (hrun : Replay.readMemory address bytes s = .ok v s') :
    Simulates R σ init s' m ∧ s'.table.Means R σ v (m.memory.load address bytes) := by
  obtain ⟨heq, access, ha, hstep⟩ := Replay.readMemory_ok hrun
  have hr := AddressRange.small_of_access h4 ha
  have hsize := AddressRange.size_of_access h1 h4 ha
  have hfirst := (AddressRange.ofAccess?_eq_some_iff.mp ha).1
  have hword : m.memory.word access = m.memory.load address bytes := by rw [ByteStore.word, hsize, hfirst]
  -- a new input stands for bytes that the machine has not touched yet
  obtain ⟨hmem, hv⟩ := h.memory.read hr hstep fun hnew hinputs => by
    have hin : (s.table.size, access) ∈ s'.memory.inputs.entries :=
      hinputs ▸ SortedMap.mem_insert.mpr (.inl rfl)
    rw [hb.memory _ hin, ByteStore.word_congr hr fun a hacc => (h.untouched a (hnew a hacc)).symm]
    refine BitRange.and_lowBits_mask_of_lt (by omega) ?_
    rw [Nat.mul_comm, ← hsize]
    exact m.memory.word_lt access
  rw [hword] at hv
  refine ⟨⟨hstep.inOrder h.memory h.inOrder hr, fun r => ?_, hmem, fun a hc => ?_⟩, hv⟩
  · obtain ⟨id, hid, hw⟩ := h.registers r
    exact ⟨id, by rw [heq]; exact hid, hw.grow hstep.grows⟩
  · exact h.untouched a fun hcov => hc ((hstep.covers_iff a).mpr (.inl hcov))

theorem Simulates.read {insn : Instruction} {o : Operand} (h : Simulates R σ init s m)
    (hb : s'.Binds σ init) (ho : o.WidthConsistent) (hrun : Replay.read insn o s = .ok v s') :
    Simulates R σ init s' m ∧ s'.table.Means R σ v (m.operand insn o) := by
  cases o with
  | immediate value => exact h.build (Build.gives_constant value s.table) hrun
  | register name bits =>
    obtain ⟨view, s₁, hcheck, hread⟩ := Replay.bind_ok hrun
    obtain ⟨hview, rfl⟩ := Replay.check_ok hcheck
    have hname : m.operand insn (.register name bits) = m.view view := by
      unfold RegisterFile.view at hview
      split at hview
      · rename_i view' hv
        cases hview
        rw [Machine.operand, hv]
        rfl
      · cases hview
    rw [hname]
    exact h.readRegister hread
  | memory o =>
    obtain ⟨address, s₁, hcheck, hread⟩ := Replay.bind_ok hrun
    obtain ⟨haddress, rfl⟩ := Replay.check_ok hcheck
    obtain ⟨h1, h4, -⟩ := ho.byteCount
    rw [Machine.operand, haddress]
    exact h.readMemory hb h1 h4 hread

theorem Simulates.readSource {insn : Instruction} {source : Source} (h : Simulates R σ init s m)
    (hb : s'.Binds σ init) (hw : source.WidthConsistent)
    (hrun : Replay.readSource insn source s = .ok v s') :
    Simulates R σ init s' m ∧ s'.table.Means R σ v (m.source insn source) := by
  cases source with
  | operand o => exact h.read hb hw hrun
  | slot address bytes => exact h.readMemory hb hw.1 hw.2 hrun
  | register r =>
    obtain ⟨hs, hv⟩ := h.readRegister hrun
    have hword : m.view (.full r) = m.registers r := BitRange.field_word _
    rw [hword] at hv
    exact ⟨hs, hv⟩

theorem Simulates.readSources {insn : Instruction} {sources : List Source} {vs : List ValueId}
    (h : Simulates R σ init s m) (ht : s.Tidy) (hb : s'.Binds σ init)
    (hw : ∀ source ∈ sources, source.WidthConsistent)
    (hrun : Replay.readSources insn sources s = .ok vs s') :
    Simulates R σ init s' m ∧ List.Forall₂ (s'.table.Means R σ) vs (sources.map (m.source insn)) := by
  induction sources generalizing s vs with
  | nil =>
    cases hrun
    exact ⟨h, .nil⟩
  | cons source sources ih =>
    rw [Replay.readSources, List.mapM_cons] at hrun
    obtain ⟨v, s₁, hsource, hrun⟩ := Replay.bind_ok hrun
    obtain ⟨vs', s₂, hsources, hrun⟩ := Replay.bind_ok hrun
    cases hrun
    have ht₁ := (Replay.extending_readSource insn source s v s₁ ht hsource).tidy
    have hext := Replay.extending_readSources insn sources s₁ vs' s' ht₁ hsources
    obtain ⟨h₁, hv⟩ := h.readSource (hb.of_extends hext) (hw source (by simp)) hsource
    obtain ⟨h₂, hvs⟩ := ih h₁ ht₁ (fun x hx => hw x (by simp [hx])) hsources
    exact ⟨h₂, .cons (hv.grow hext.grows) hvs⟩

/-! ## Combining -/

theorem gives_maskValue {t : Table} {opcode : Opcode} {x mask : Word} (ht : t.WellFormed)
    (hx : t.Means R σ v x) (hw : opcode.apply [x, mask] = some w) :
    (Replay.maskValue opcode v mask).Gives R σ t w := by
  have hfold : (Build.foldMask v opcode mask).Ensures R σ t fun t' folded =>
      t'.Means R σ v x ∧ ∀ id, folded = some id → t'.Means R σ id w := by
    cases hf : (t.pieces? v).bind (Build.maskedWord? t opcode mask) with
    | none =>
      have hrun : Build.foldMask v opcode mask t = (none, t) := by rw [Build.foldMask, hf]
      exact (Build.ensures_pure (a := none) ⟨hx, by simp⟩).congr hrun
    | some word =>
      obtain ⟨pieces, hp, hword⟩ := Option.bind_eq_some_iff.mp hf
      obtain rfl := Build.maskedWord?_eq ht hp hx hword hw
      have hrun : Build.foldMask v opcode mask t = (some <$> Build.constant word : Build (Option ValueId)) t := by
        rw [Build.foldMask, hf]
      refine Build.Ensures.congr ?_ hrun
      refine (Build.gives_constant word t).bind (f := fun id => pure (some id)) fun id t' g hid => ?_
      exact Build.ensures_pure ⟨hx.grow g, fun _ h => Option.some.inj h ▸ hid⟩
  refine hfold.bind fun folded t' _ h => ?_
  cases folded with
  | none => exact Build.gives_withConstant h.1 (R.extends_apply hw)
  | some id => exact Build.ensures_pure (h.2 id rfl)

theorem gives_scaledSum {t : Table} {base index : Nat} {x y : Word} (hb : t.Means R σ base x)
    (hi : t.Means R σ index y) (scale : Word) : Build.Gives R σ (do
      let factor ← Build.constant scale
      let scaled ← Build.binary .imul index factor
      Build.binary .add base scaled) t (x + y * scale) := by
  refine (Build.gives_constant scale t).bind fun factor t₁ g₁ hfactor => ?_
  refine (Build.gives_binary (hi.grow g₁) hfactor (R.extends_apply rfl)).bind fun scaled t₂ g₂ hscaled => ?_
  exact Build.gives_binary (hb.grow (g₁.trans g₂)) hscaled (R.extends_apply rfl)

theorem Simulates.shiftValue {opcode : Opcode} {d : Direction} {x count : Word} {id : Nat}
    (h : Simulates R σ init s m) (hd : Direction.ofOpcode? opcode = some d) (hx : s.table.Means R σ id x)
    (hrun : Replay.shiftValue opcode id count s = .ok v s') :
    Simulates R σ init s' m ∧ s'.table.Means R σ v (R.result opcode [x, count]) := by
  have happly := Direction.apply_eq hd x count
  rw [Rules.result_of_apply happly]
  replace hrun := Replay.get_bind_ok hrun
  split at hrun
  · rename_i hhybrid
    have hshift := Build.ensures_shiftHybrid count h.inOrder hx hhybrid hd
    obtain ⟨hv, rfl⟩ := Replay.attempt_ok hrun
    exact ⟨h.ensures hshift, hshift.post v hv⟩
  · exact h.build (Build.gives_withConstant hx (R.extends_apply happly)) hrun

theorem Simulates.combine {insn : Instruction} {a : Action} {vs : List ValueId} (h : Simulates R σ init s m)
    (hmod : a.Modelled R) (hvs : List.Forall₂ (s.table.Means R σ) vs ((a.sources insn).map (m.source insn)))
    (hrun : Replay.combine a vs s = .ok v s') :
    Simulates R σ init s' m ∧ s'.table.Means R σ v (a.result R ((a.sources insn).map (m.source insn))) := by
  cases a with
  | unary opcode target =>
    obtain _ | ⟨hx, _ | _⟩ := hvs
    exact h.build (Build.gives_unary hx (Rules.apply_eq_result (hmod _))) hrun
  | binary opcode target source =>
    obtain _ | ⟨hy, _ | ⟨hx, _ | _⟩⟩ := hvs
    exact h.build (Build.gives_binary hx hy (Rules.apply_eq_result (hmod _ _))) hrun
  | shift opcode target count =>
    obtain _ | ⟨hx, _ | _⟩ := hvs
    obtain ⟨d, hd⟩ := hmod
    exact h.shiftValue hd hx hrun
  | mask opcode target word =>
    obtain _ | ⟨hx, _ | _⟩ := hvs
    obtain ⟨w, hw⟩ := hmod (m.operand insn target) word
    have gives := gives_maskValue h.inOrder.wellFormed hx hw
    rw [← Rules.result_of_apply hw] at gives
    exact h.build gives hrun
  | multiply target source factor =>
    obtain _ | ⟨hx, _ | _⟩ := hvs
    exact h.build (Build.gives_withConstant hx (Rules.apply_eq_result ⟨_, R.extends_apply rfl⟩)) hrun
  | loadAddress target form =>
    cases form with
    | baseIndex base index scale =>
      obtain _ | ⟨hb, _ | ⟨hi, _ | _⟩⟩ := hvs
      exact h.build (gives_scaledSum hb hi scale) hrun
    | _ =>
      obtain _ | _ := hvs
      cases hrun
  | push source | pop target | move target source =>
    obtain _ | ⟨hx, _ | _⟩ := hvs
    cases hrun
    exact ⟨h, hx⟩
  | exchange x y =>
    obtain _ | ⟨hx, _⟩ := hvs
    cases hrun
    exact ⟨h, hx⟩
  | nothing | unsupported =>
    obtain _ | _ := hvs
    cases hrun

/-! ## Writing -/

/-- The written word does no harm outside its place. A piece of a hybrid word has to be as
    narrow as its range. Anything else is merged, so what the word spills must be set already. -/
def Absorbs (m : Machine) (s : Session) (w : Word) : Place → Prop
  | .register view => ∀ id, s.registers.get? view.owner = some id →
      if s.table.isHybrid id then w.toNat < 2 ^ view.bits
      else view.span.spill w &&& ~~~m.registers view.owner = 0
  | .memory address bytes => ∀ access, AddressRange.ofAccess? address bytes = some access →
      ∀ e ∈ s.memory.cells.entries, e.1.contains access = true →
        (Memory.lane e.1 access).spill w &&& ~~~m.memory.word e.1 = 0

theorem get?_set (regs : RegisterFile) (r r' : Register) (id : ValueId) :
    (regs.set r id).get? r' = if r' = r then some id else regs.get? r' := by
  have hindex : (r.index : Nat) = r'.index ↔ r' = r := by cases r <;> cases r' <;> decide
  simp only [RegisterFile.get?, RegisterFile.set, Vector.get_eq_getElem, Vector.getElem_set, hindex]

/-- A number as narrow as its place does no harm anywhere. -/
theorem absorbs_of_lt {place : Place} (hp : 8 ≤ place.bits ∧ place.bits ≤ 32)
    (hc : ∀ e ∈ s.memory.cells.entries, e.1.Small) (hw : w.toNat < 2 ^ place.bits) : s.Absorbs m w place := by
  cases place with
  | register view =>
    intro id _
    split
    · exact hw
    · rw [BitRange.spill_eq_zero_of_lt view.span_inWord hw]
      exact BitVec.zero_and
  | memory address bytes =>
    intro access ha e he hcontains
    simp only [Place.bits] at hp hw
    have hr := AddressRange.small_of_access (by omega) ha
    have hsize := AddressRange.size_of_access (by omega) (by omega) ha
    rw [BitRange.spill_eq_zero_of_lt (AddressRange.lane_inWord (hc e he) hcontains hr.1)]
    · exact BitVec.zero_and
    · rw [AddressRange.lane_width hr, hsize]
      exact hw

theorem Simulates.set {view : RegisterView} {id : Nat} {t : Table} (h : Simulates R σ init s m)
    (g : s.table.Grows t) (ht : t.InOrder R σ)
    (hid : t.Means R σ id (view.span.replace (m.registers view.owner) w)) :
    Simulates R σ init { s with table := t, registers := s.registers.set view.owner id } (m.setView view w) := by
  refine ⟨ht, fun r => ?_, h.memory.grow g, h.untouched⟩
  simp only [get?_set, Machine.setView]
  split
  · rename_i hr
    exact ⟨id, rfl, hr ▸ hid⟩
  · obtain ⟨id', hid', hw'⟩ := h.registers r
    exact ⟨id', hid', hw'.grow g⟩

/-- A whole register means what is read from it. -/
theorem Agrees.means (h : Agrees R σ init s m) {r : Register} {id : ValueId}
    (hid : s.registers.get? r = some id) : s.table.Means R σ id (m.registers r) := by
  obtain ⟨b, hb, hmeans⟩ := h.views (.full r)
  rw [RegisterFile.read, RegisterFile.owner, RegisterView.owner, hid] at hb
  cases hb
  rw [Machine.view, RegisterView.owner, show (RegisterView.full r).span = .word from rfl, BitRange.field_word] at hmeans
  exact hmeans

/-- A view that is a piece of its register is read as that piece. -/
theorem Agrees.means_piece (h : Agrees R σ init s m) {view : RegisterView} {id piece : ValueId}
    (hid : s.registers.get? view.owner = some id) (hpiece : s.table.piece? id view.span = some piece)
    (hpart : view.span ≠ .word) : s.table.Means R σ piece (m.view view) := by
  obtain ⟨b, hb, hmeans⟩ := h.views view
  cases (RegisterFile.read_eq_ok hid).symm.trans hb
  simpa only [RegisterView.extract_of_piece? hpiece hpart] using hmeans

theorem Simulates.writeRegister {view : RegisterView} {u : Unit} (h : Simulates R σ init s m)
    (hv : s.table.Means R σ v w) (hrun : Replay.writeRegister view v s = .ok u s') :
    (s'.Absorbs m w (.register view) → Simulates R σ init s' (m.setView view w)) ∧
      (Agrees R σ init s' (m.setView view w) → s'.Absorbs m w (.register view)) := by
  obtain ⟨owner, ho, hw⟩ := h.registers view.owner
  have hin := view.span_inWord
  have hstep := view.merge_step h.inOrder.wellFormed hw hv
  rw [Replay.writeRegister_ok ho hrun]
  generalize view.merge owner v s.table = merged at hstep
  obtain ⟨id, t'⟩ := merged
  have hget : (s.registers.set view.owner id).get? view.owner = some id := by rw [get?_set, if_pos rfl]
  simp only [Absorbs, hget, Option.some.injEq, forall_eq']
  have hset : (m.setView view w).registers view.owner = view.span.replace (m.registers view.owner) w := if_pos rfl
  cases hstep with
  | whole hspan =>
    have hwhole : view.span.replace (m.registers view.owner) w = w := by rw [hspan, BitRange.replace_word]
    have hbits : view.bits = 32 := by rw [RegisterView.bits, hspan]; rfl
    have hlt : w.toNat < 2 ^ view.bits := by rw [hbits]; exact w.isLt
    refine ⟨fun _ => h.set (.refl _) h.inOrder (hwhole.symm ▸ hv), fun _ => ?_⟩
    split
    · exact hlt
    · rw [BitRange.spill_eq_zero_of_lt hin hlt]
      exact BitVec.zero_and
  | masked _ g hord hmeans hhybrid =>
    -- the register holds the merged words, which is what is wanted exactly if nothing spills
    rw [hhybrid, if_neg Bool.false_ne_true, ← BitRange.merge_eq_replace_iff hin]
    refine ⟨fun heq => h.set g (hord h.inOrder) (heq ▸ hmeans), fun hagrees => ?_⟩
    have := hagrees.means hget
    rw [hset] at this
    exact hmeans.unique this
  | split _ g hhybrid hpiece _ hmeans hfit =>
    rw [if_pos hhybrid]
    refine ⟨fun hlt => h.set g (hfit hlt h.inOrder) hmeans, fun hagrees => ?_⟩
    by_cases hpart : view.span = .word
    · rw [RegisterView.bits, hpart]
      exact w.isLt
    · -- the piece is read as it is, and a view is never wider than its span
      have hview := (hv.grow g).unique (hagrees.means_piece hget hpiece hpart)
      rw [hview]
      exact BitRange.field_lt hin _

theorem Simulates.writeMemory {address : Word} {bytes : Nat} {u : Unit} (h : Simulates R σ init s m)
    (h1 : 1 ≤ bytes) (h4 : bytes ≤ 4) (hv : s.table.Means R σ v w)
    (hrun : Replay.writeMemory address bytes v s = .ok u s') :
    (s'.Absorbs m w (.memory address bytes) → Simulates R σ init s' (m.write (.memory address bytes) w)) ∧
      (Agrees R σ init s' (m.write (.memory address bytes) w) → s'.Absorbs m w (.memory address bytes)) := by
  obtain ⟨heq, access, ha, hstep⟩ := Replay.writeMemory_ok h.memory.separated hrun
  have hr := AddressRange.small_of_access h4 ha
  have hput : m.memory.store address bytes w = m.memory.put access w := by
    rw [ByteStore.put, AddressRange.size_of_access h1 h4 ha, (AddressRange.ofAccess?_eq_some_iff.mp ha).1]
  have hsep := hstep.separated h.memory.separated hr.1
  obtain ⟨cell, v', hcell, hcontains, hc, hiff⟩ := h.memory.write hr hv hstep
  -- cells are apart, so only one contains the access
  have honly (e : AddressRange × ValueId) (he : e ∈ s'.memory.cells.entries) (hcont : e.1.contains access = true) :
      e.1 = cell := by
    have hfirst := AddressRange.has_first hr.1
    exact hsep.disjoint e he _ hcell _ (AddressRange.has_of_contains hcont hfirst)
      (AddressRange.has_of_contains hcontains hfirst)
  rw [Machine.write, hput]
  constructor
  · intro habs
    have hholds := hiff.mpr (habs access ha (cell, v') hcell hcontains)
    refine ⟨hstep.inOrder h.memory h.inOrder hr hv, fun r => ?_, hholds, ?_⟩
    · obtain ⟨id, hid, hw⟩ := h.registers r
      exact ⟨id, by rw [heq]; exact hid, hw.grow hstep.grows⟩
    · intro a hnot
      rw [hstep.covers_iff, not_or] at hnot
      simp only [ByteStore.put_apply _ _ hr, if_neg hnot.2]
      exact h.untouched a hnot.1
  · intro hagrees access' ha' e he hcont
    obtain rfl := Option.some.inj (ha.symm.trans ha')
    rw [honly e he hcont]
    exact hiff.mp ⟨hsep, hstep.small h.memory.small hr, hagrees.cells⟩

/-- What is written is what the machine writes exactly if it does no harm elsewhere. -/
theorem Simulates.write {place : Place} {u : Unit} (h : Simulates R σ init s m)
    (hp : 8 ≤ place.bits ∧ place.bits ≤ 32) (hv : s.table.Means R σ v w)
    (hrun : Replay.write v place s = .ok u s') :
    (s'.Absorbs m w place → Simulates R σ init s' (m.write place w)) ∧
      (Agrees R σ init s' (m.write place w) → s'.Absorbs m w place) := by
  cases place with
  | register view => exact h.writeRegister hv hrun
  | memory address bytes =>
    simp only [Place.bits] at hp
    exact h.writeMemory (by omega) (by omega) hv hrun

theorem Simulates.small_of_write {place : Place} {u : Unit} (h : Simulates R σ init s m)
    (hp : place.bits ≤ 32) (hrun : Replay.write v place s = .ok u s') :
    ∀ e ∈ s'.memory.cells.entries, e.1.Small := by
  cases place with
  | register view =>
    obtain ⟨owner, ho, -⟩ := h.registers view.owner
    rw [Replay.writeRegister_ok ho hrun]
    exact h.memory.small
  | memory address bytes =>
    obtain ⟨-, access, ha, hstep⟩ := Replay.writeMemory_ok h.memory.separated hrun
    simp only [Place.bits] at hp
    exact hstep.small h.memory.small (AddressRange.small_of_access (by omega) ha)

theorem Simulates.write_of_lt {place : Place} {u : Unit} (h : Simulates R σ init s m)
    (hp : 8 ≤ place.bits ∧ place.bits ≤ 32) (hv : s.table.Means R σ v w) (hlt : w.toNat < 2 ^ place.bits)
    (hrun : Replay.write v place s = .ok u s') : Simulates R σ init s' (m.write place w) :=
  (h.write hp hv hrun).1 (absorbs_of_lt hp (h.small_of_write hp.2 hrun) hlt)

end Session

end TraceReplay
