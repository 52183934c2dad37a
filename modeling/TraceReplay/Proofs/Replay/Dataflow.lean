/-
  TraceReplay.Proofs.Replay.Dataflow — whole traces, followed by the reference machine.

  A session that simulates the machine goes on doing so through an instruction exactly if what
  the instruction writes is clean (`Simulates.step`, `Follows`), so a replay agrees with the
  machine at every point of a trace exactly if every write in it is clean
  (`replay_follows_the_machine_iff_writes_are_clean`). A word that fits its place is always
  written cleanly; exchanges and all writes of whole registers are of that kind.

  A narrow sum does not always fit: `a_carry_leaves_its_byte` adds two bytes, and the carry ends
  up in the rest of the register.
-/

import TraceReplay.Proofs.Replay.Simulation

namespace TraceReplay

namespace Session

variable {R : Rules} {σ : Assignment} {init m : Machine} {s s' : Session} {w : Word}

/-! ## One instruction -/

/-- What the instruction has written, if anything, does no harm outside its place. -/
def Clean (R : Rules) (m : Machine) (s : Session) (insn : Instruction) : Prop :=
  s.skip.contains insn.mnemonic = false → insn.exchanged? = none →
    ∀ place w, m.result? R insn = some (place, w) → s.Absorbs m w place

variable {insn : Instruction}

/-- The two words of an exchange are as wide as the places where they go. -/
theorem Simulates.exchange {x y : Operand} {u : Unit} (h : Simulates R σ init s m) (ht : s.Tidy)
    (hb : s'.Binds σ init) (hx : x.WidthConsistent) (hy : y.WidthConsistent) (hbits : x.bits = y.bits)
    (hrun : Replay.exchange insn x y s = .ok u s') : Simulates R σ init s' (m.exchange insn x y) := by
  obtain ⟨p, _, hresolvep, hrest⟩ := Replay.bind_ok hrun
  obtain ⟨hp, rfl⟩ := Replay.check_ok (Replay.get_bind_ok hresolvep)
  obtain ⟨q, _, hresolveq, hreads⟩ := Replay.bind_ok hrest
  obtain ⟨hq, rfl⟩ := Replay.check_ok (Replay.get_bind_ok hresolveq)
  obtain ⟨vx, s₁, hreadx, htail⟩ := Replay.bind_ok hreads
  obtain ⟨vy, s₂, hready, hwrites⟩ := Replay.bind_ok htail
  obtain ⟨u', s₃, hwritep, hwriteq⟩ := Replay.bind_ok hwrites
  have e₁ := Replay.extending_read insn x _ _ _ ht hreadx
  have e₂ := Replay.extending_read insn y _ _ _ e₁.tidy hready
  have e₃ := Replay.extending_write vy p _ _ _ e₂.tidy hwritep
  have e₄ := Replay.extending_write vx q _ _ _ e₃.tidy hwriteq
  obtain ⟨h₁, hvx⟩ := h.read (hb.of_extends (e₂.trans (e₃.trans e₄))) hx hreadx
  obtain ⟨h₂, hvy⟩ := h₁.read (hb.of_extends (e₃.trans e₄)) hy hready
  have htp := target_of_destination hp
  have htq := target_of_destination hq
  have hpbits := Instruction.target_bits hx htp
  have hqbits := Instruction.target_bits hy htq
  obtain ⟨hx1, hx4, hxb⟩ := hx.byteCount
  obtain ⟨hy1, hy4, hyb⟩ := hy.byteCount
  have h₃ := h₂.write_of_lt (by omega) hvy (by rw [hpbits, hbits]; exact m.operand_lt insn hy) hwritep
  have h₄ := h₃.write_of_lt (by omega) ((hvx.grow e₂.grows).grow e₃.grows)
    (by rw [hqbits, ← hbits]; exact m.operand_lt insn hx) hwriteq
  rw [Machine.exchange, htp, htq]
  exact h₄

/-- An action that follows the plan writes what the machine writes, if it does no harm. -/
theorem Simulates.plan {u : Unit} (h : Simulates R σ init s m) (ht : s.Tidy) (hb : s'.Binds σ init)
    (hw : insn.WidthConsistent) (hmod : insn.Modelled R) (hn : Action.ofInstruction insn ≠ .nothing)
    (hx : ∀ x y, Action.ofInstruction insn ≠ .exchange x y)
    (hrun : Replay.perform insn (.ofInstruction insn) s = .ok u s') :
    ∃ place w, m.result? R insn = some (place, w) ∧
      (w.toNat < 2 ^ place.bits → s'.Absorbs m w place) ∧
      (s'.Absorbs m w place → Simulates R σ init s' (m.write place w)) ∧
      (Agrees R σ init s' (m.write place w) → s'.Absorbs m w place) := by
  rw [Replay.perform_eq insn hn hx] at hrun
  obtain ⟨place, _, hcheck, hrest⟩ := Replay.bind_ok (Replay.get_bind_ok hrun)
  obtain ⟨hplace, rfl⟩ := Replay.check_ok hcheck
  obtain ⟨vs, s₁, hread, htail⟩ := Replay.bind_ok hrest
  obtain ⟨v, s₂, hcombine, hwrite⟩ := Replay.bind_ok htail
  have e₁ := Replay.extending_readSources insn _ _ _ _ ht hread
  have e₂ := Replay.extending_combine _ vs _ _ _ e₁.tidy hcombine
  have e₃ := Replay.extending_write v place _ _ _ e₂.tidy hwrite
  obtain ⟨h₁, hvs⟩ := h.readSources ht (hb.of_extends (e₂.trans e₃)) hw.sources hread
  obtain ⟨h₂, hv⟩ := h₁.combine (Action.modelled_ofInstruction hmod) hvs hcombine
  have hp := hw.place hplace
  exact ⟨place, _, m.result?_eq hplace, absorbs_of_lt hp (h₂.small_of_write hp.2 hwrite), h₂.write hp hv hwrite⟩

/-- What follows from one instruction: the machine is followed exactly if the write was clean,
    which it is if the word fits where it goes. -/
structure Follows (R : Rules) (σ : Assignment) (init m : Machine) (insn : Instruction) (s : Session) : Prop where
  clean_of_fits : (s.skip.contains insn.mnemonic = false → m.Fits R insn) → s.Clean R m insn
  simulates : s.Clean R m insn → Simulates R σ init s (m.step R s.skip insn)
  clean : Agrees R σ init s (m.step R s.skip insn) → s.Clean R m insn

theorem Follows.of_simulates (h : Simulates R σ init s (m.step R s.skip insn)) (hc : s.Clean R m insn) :
    Follows R σ init m insn s := ⟨fun _ => hc, fun _ => h, fun _ => hc⟩

/-- One word is written, and all depends on whether it does harm. -/
theorem Follows.of_write {place : Place} (hskip : s.skip.contains insn.mnemonic = false)
    (hex : insn.exchanged? = none) (hres : m.result? R insn = some (place, w))
    (hfits : w.toNat < 2 ^ place.bits → s.Absorbs m w place)
    (hsim : s.Absorbs m w place → Simulates R σ init s (m.write place w))
    (habs : Agrees R σ init s (m.write place w) → s.Absorbs m w place) : Follows R σ init m insn s := by
  have hclean : s.Clean R m insn ↔ s.Absorbs m w place := by
    simp only [Clean, hskip, hex, hres, Option.some.injEq, Prod.mk.injEq, and_imp, forall_const, forall_eq',
      forall_apply_eq_imp_iff]
  have hstep : m.step R s.skip insn = m.write place w := by
    rw [Machine.step, if_neg (by simp [hskip]), Machine.execute, hex, hres]
  refine ⟨fun hf => hclean.mpr (hfits (hf hskip hex place w hres)), fun hc => ?_, fun ha => ?_⟩
  · rw [hstep]
    exact hsim (hclean.mp hc)
  · rw [hstep] at ha
    exact hclean.mpr (habs ha)

theorem Simulates.perform {u : Unit} (h : Simulates R σ init s m) (ht : s.Tidy) (hb : s'.Binds σ init)
    (hskip : s.skip.contains insn.mnemonic = false) (hw : insn.WidthConsistent) (hmod : insn.Modelled R)
    (hrun : Replay.perform insn (.ofInstruction insn) s = .ok u s') : Follows R σ init m insn s' := by
  have hskip' : s'.skip.contains insn.mnemonic = false :=
    (Replay.extending_perform insn _ _ _ _ ht hrun).skip ▸ hskip
  have hstep : m.step R s'.skip insn = m.execute R insn := if_neg (by simp [hskip'])
  cases ha : Action.ofInstruction insn using Action.plan_cases with
  | nothing =>
    rw [ha] at hrun
    cases hrun
    have hnone := Machine.result?_of_nothing R m ha
    have hx : insn.exchanged? = none := by rw [Action.exchanged?_eq, ha]
    refine .of_simulates ?_ fun _ _ place w hres => ?_
    · rw [hstep, Machine.execute, hx, hnone]
      exact h
    · rw [hnone] at hres
      cases hres
  | exchange x y =>
    have hex : insn.exchanged? = some (x, y) := by rw [Action.exchanged?_eq, ha]
    have hops := hw.operands
    rw [ha] at hrun hops
    have hsim := h.exchange ht hb (hops x (by simp [Action.operands])) (hops y (by simp [Action.operands]))
      (hw.2 (x, y) hex) hrun
    refine .of_simulates ?_ fun _ hnone => ?_
    · rw [hstep, Machine.execute, hex]
      exact hsim
    · rw [hex] at hnone
      cases hnone
  | planned a hn hx =>
    subst ha
    have hex : insn.exchanged? = none := by
      rw [Action.exchanged?_eq]
      split
      · rename_i x y hxy
        exact absurd hxy (hx x y)
      · rfl
    obtain ⟨place, w, hres, hfits, hsim, habs⟩ := h.plan ht hb hw hmod hn hx hrun
    exact .of_write hskip' hex hres hfits hsim habs

theorem Simulates.step {u : Unit} (h : Simulates R σ init s m) (ht : s.Tidy) (hb : s'.Binds σ init)
    (hw : s.skip.contains insn.mnemonic = false → insn.WidthConsistent ∧ insn.Modelled R)
    (hrun : Replay.step insn s = .ok u s') : Follows R σ init m insn s' := by
  replace hrun := Replay.get_bind_ok hrun
  split at hrun
  · rename_i hskip
    cases hrun
    refine .of_simulates ?_ fun hrun => ?_
    · rw [Machine.step, if_pos hskip]
      exact h
    · rw [hskip] at hrun
      cases hrun
  · rename_i hskip
    rw [Bool.not_eq_true] at hskip
    obtain ⟨u', s₁, hperform, hmodify⟩ := Replay.bind_ok hrun
    cases hmodify
    have hb₁ : s₁.Binds σ init := ⟨hb.registers, hb.memory⟩
    have hf := h.perform ht hb₁ hskip (hw hskip).1 (hw hskip).2 hperform
    -- counting the instruction changes nothing that is compared
    refine ⟨hf.clean_of_fits, fun hc => ?_, fun ha => hf.clean ⟨ha.1, ha.2, ha.3⟩⟩
    have hs := hf.simulates hc
    exact ⟨hs.1, hs.2, hs.3, hs.4⟩

/-! ## Whole traces -/

def AlwaysAgrees (R : Rules) (σ : Assignment) (init m : Machine) (s : Session) (trace : List Instruction) : Prop :=
  ∀ before after, trace = before ++ after → ∀ s', Replay.run before s = .ok () s' →
    Agrees R σ init s' (m.run R s.skip before)

def AlwaysClean (R : Rules) (m : Machine) (s : Session) (trace : List Instruction) : Prop :=
  ∀ before insn after, trace = before ++ insn :: after → ∀ s', Replay.run (before ++ [insn]) s = .ok () s' →
    s'.Clean R (m.run R s.skip before) insn

theorem alwaysAgrees_cons {s₁ : Session} {rest : List Instruction} (hstep : Replay.step insn s = .ok () s₁)
    (hskip : s₁.skip = s.skip) : AlwaysAgrees R σ init m s (insn :: rest) ↔
      Agrees R σ init s m ∧ AlwaysAgrees R σ init (m.step R s.skip insn) s₁ rest := by
  simp only [AlwaysAgrees, hskip]
  rw [Trace.forall_before_cons]
  refine and_congr ⟨fun h => h s rfl, fun h s' hrun => ?_⟩ ?_
  · cases hrun
    exact h
  · simp only [Replay.run_cons_of_step hstep]
    rfl

theorem alwaysClean_cons {s₁ : Session} {rest : List Instruction} (hstep : Replay.step insn s = .ok () s₁)
    (hskip : s₁.skip = s.skip) : AlwaysClean R m s (insn :: rest) ↔
      s₁.Clean R m insn ∧ AlwaysClean R (m.step R s.skip insn) s₁ rest := by
  simp only [AlwaysClean, hskip]
  rw [Trace.forall_at_cons]
  refine and_congr ⟨fun h => h s₁ ((Replay.run_cons_of_step hstep).mpr rfl), fun h s' hrun => ?_⟩ ?_
  · cases (Replay.run_cons_of_step hstep).mp hrun
    exact h
  · simp only [List.cons_append, Replay.run_cons_of_step hstep]
    rfl

theorem alwaysClean_nil : AlwaysClean R m s [] := by
  intro before insn after hsplit
  simp at hsplit

theorem alwaysAgrees_nil : AlwaysAgrees R σ init m s [] ↔ Agrees R σ init s m := by
  refine ⟨fun h => h [] [] rfl s rfl, fun h before after hsplit s' hrun => ?_⟩
  obtain ⟨rfl, -⟩ := List.append_eq_nil_iff.mp hsplit.symm
  cases hrun
  exact h

theorem Simulates.run {trace : List Instruction} (h : Simulates R σ init s m) (ht : s.Tidy)
    (hb : s'.Binds σ init)
    (hw : ∀ insn ∈ trace, s.skip.contains insn.mnemonic = false → insn.WidthConsistent ∧ insn.Modelled R)
    (hrun : Replay.run trace s = .ok () s') :
    (AlwaysAgrees R σ init m s trace ↔ AlwaysClean R m s trace) ∧
      (m.AlwaysFits R s.skip trace → AlwaysClean R m s trace) := by
  induction trace generalizing s m with
  | nil => exact ⟨⟨fun _ => alwaysClean_nil, fun _ => alwaysAgrees_nil.mpr h.agrees⟩, fun _ => alwaysClean_nil⟩
  | cons insn rest ih =>
    obtain ⟨s₁, hstep, hrest⟩ := Replay.run_cons_ok.mp hrun
    have e₁ := Replay.extending_step insn s () s₁ ht hstep
    have hext := Replay.extending_run rest s₁ () s' e₁.tidy hrest
    have hf := h.step ht (hb.of_extends hext) (hw insn (by simp)) hstep
    have hw₁ : ∀ x ∈ rest, s₁.skip.contains x.mnemonic = false → x.WidthConsistent ∧ x.Modelled R := by
      rw [e₁.skip]
      exact fun x hx => hw x (by simp [hx])
    obtain ⟨hfits, hsim, hclean⟩ := hf
    rw [alwaysAgrees_cons hstep e₁.skip, alwaysClean_cons hstep e₁.skip, Machine.alwaysFits_cons]
    rw [e₁.skip] at hfits hsim hclean
    have hrec (hc : s₁.Clean R m insn) := ih (hsim hc) e₁.tidy hw₁ hrest
    rw [e₁.skip] at hrec
    refine ⟨⟨fun ⟨_, hagrees⟩ => ?_, fun ⟨hc, hrc⟩ => ⟨h.agrees, (hrec hc).1.mpr hrc⟩⟩, fun ⟨hfit, hrf⟩ => ?_⟩
    · -- the rest agrees from the start, and that is right after this instruction
      have hc := hclean (hagrees [] rest rfl s₁ rfl)
      exact ⟨hc, (hrec hc).1.mp hagrees⟩
    · have hc := hfits hfit
      exact ⟨hc, (hrec hc).2 hrf⟩

/-! ## From the start -/

structure Seeds (R : Rules) (σ : Assignment) (rs : List Register) (s : Session) : Prop where
  inOrder : s.table.InOrder R σ
  inputs_lt : ∀ e ∈ s.registers.inputs.entries, e.1 < s.table.size
  held : ∀ r ∈ rs, ∃ id, s.registers.get? r = some id ∧ (id, r) ∈ s.registers.inputs.entries ∧
    s.table.Means R σ id (σ id)
  memory : s.memory = .empty

theorem Seeds.seed {rs : List Register} (h : Seeds R σ rs s) (r : Register) : Seeds R σ (r :: rs) (s.seed r).2 := by
  have gives : (Build.symbol 32).Gives R σ s.table _ := Build.gives_symbol 32 s.table
  rw [BitRange.and_lowBits_mask_of_lt (by decide) (BitVec.isLt _)] at gives
  have hinputs : (s.seed r).2.registers.inputs = s.registers.inputs.insert s.table.size r := rfl
  have hslots (r' : Register) : (s.seed r).2.registers.get? r' =
      if r' = r then some s.table.size else s.registers.get? r' := get?_set s.registers r r' s.table.size
  refine ⟨gives.inOrder h.inOrder, ?_, ?_, h.memory⟩
  · rw [hinputs]
    intro e he
    rcases SortedMap.mem_insert.mp he with rfl | ⟨he, -⟩
    · exact gives.post.1
    · exact gives.grows.lt (h.inputs_lt e he)
  · intro r' hr'
    rw [hslots, hinputs]
    by_cases heq : r' = r
    · subst heq
      exact ⟨s.table.size, if_pos rfl, SortedMap.mem_insert.mpr (.inl rfl), gives.post⟩
    · obtain ⟨id, hid, hin, hmeans⟩ := h.held r' ((List.mem_cons.mp hr').resolve_left heq)
      refine ⟨id, by rw [if_neg heq]; exact hid, SortedMap.mem_insert.mpr (.inr ⟨hin, ?_⟩), hmeans.grow gives.grows⟩
      exact Nat.ne_of_lt (h.inputs_lt _ hin)

theorem Seeds.foldl (l : List Register) {rs : List Register} (h : Seeds R σ rs s) :
    Seeds R σ (l.reverse ++ rs) (l.foldl (fun s r => (s.seed r).2) s) := by
  induction l generalizing s rs with
  | nil => exact h
  | cons r l ih =>
    rw [List.reverse_cons, List.append_assoc]
    exact ih (h.seed r)

theorem seeds_seeded (R : Rules) (σ : Assignment) (skip : SkipSet) :
    Seeds R σ (Register.all.reverse ++ []) (seeded skip) := by
  have hempty : Seeds R σ [] (empty skip) :=
    ⟨⟨Table.wellFormed_empty, fun id pieces h => by cases h⟩, nofun, nofun, rfl⟩
  exact hempty.foldl Register.all

theorem simulates_seeded {skip : SkipSet} (hb : (seeded skip).Binds σ init) :
    Simulates R σ init (seeded skip) init := by
  have hs := seeds_seeded R σ skip
  refine ⟨hs.inOrder, fun r => ?_, ?_, fun a _ => rfl⟩
  · obtain ⟨id, hid, hin, hmeans⟩ := hs.held r (by cases r <;> decide)
    rw [hb.registers _ hin] at hmeans
    exact ⟨id, hid, hmeans⟩
  · rw [hs.memory]
    exact Memory.holds_empty _ _

theorem tidy_seeded (skip : SkipSet) : (seeded skip).Tidy := by
  have hmemory := (seeds_seeded .standard (fun _ => 0) skip).memory
  constructor <;> rw [hmemory]
  · exact Memory.separated_empty
  · nofun

/-- Whatever evaluation finds in a register or in a cell is what the machine has there. -/
structure Evaluates (σ : Assignment) (s : Session) (m : Machine) : Prop where
  views : ∀ view b w, s.registers.read view = .ok b → (b s.table).2.eval σ (b s.table).1 = .ok w →
    w = m.view view
  cells : ∀ e ∈ s.memory.cells.entries, ∀ w, s.table.eval σ e.2 = .ok w → w = m.memory.word e.1

theorem Agrees.evaluates (h : Agrees R σ init s m) : s.Evaluates σ m := by
  constructor
  · intro view b w hb hw
    obtain ⟨b', hb', hmeans⟩ := h.views view
    obtain rfl := Except.ok.inj (hb.symm.trans hb')
    exact Except.ok.inj ((Table.evalWith_of_eval R hw).symm.trans hmeans.2)
  · intro e he w hw
    exact Except.ok.inj ((Table.evalWith_of_eval R hw).symm.trans (h.cells e he).2)

/-- A replay follows the machine through a trace exactly if all its writes are clean. Words that
    fit their places are written cleanly. Under the standard rules a value means what evaluation
    finds; rules that give every operation a result leave out no trace. -/
theorem replay_follows_the_machine_iff_writes_are_clean (R : Rules) (σ : Assignment) (init : Machine)
    (skip : SkipSet) (trace : List Instruction) (s : Session)
    (hw : ∀ insn ∈ trace, skip.contains insn.mnemonic = false → insn.WidthConsistent ∧ insn.Modelled R)
    (hrun : Replay.run trace (seeded skip) = .ok () s) (hb : s.Binds σ init) :
    (AlwaysAgrees R σ init init (seeded skip) trace ↔ AlwaysClean R init (seeded skip) trace) ∧
    (init.AlwaysFits R skip trace → AlwaysClean R init (seeded skip) trace) ∧
    (AlwaysClean R init (seeded skip) trace → s.Evaluates σ (init.run R skip trace)) := by
  have ht := tidy_seeded skip
  have hext := Replay.extending_run trace _ _ _ ht hrun
  obtain ⟨hiff, hfits⟩ := (simulates_seeded (R := R) (hb.of_extends hext)).run ht hb hw hrun
  exact ⟨hiff, hfits, fun hc => (hiff.mpr hc trace [] (List.append_nil _).symm s hrun).evaluates⟩

def byteTrace : List Instruction := [
  { address := 0x1000, mnemonic := "mov", operands := [.register "eax" 32, .immediate 0x11223344] },
  { address := 0x1005, mnemonic := "mov", operands := [.register "ah" 8, .register "bl" 8] },
  { address := 0x1007, mnemonic := "shl", operands := [.register "eax" 32, .immediate 4] },
  { address := 0x100a, mnemonic := "mov", operands := [.register "cl" 8, .memory { form := .base .edi, bits := 8 }],
    readAddress := some 0x100 }]

def byteMachine : Machine := ⟨fun r => if r = .ebx then 0x1ab else 0, fun _ => 0x5a⟩

def byteInputs : Assignment := fun id => if id = 1 then 0x1ab else if id = 18 then 0x5a else 0

theorem a_byte_in_a_known_word_is_followed :
    ∃ s, Replay.run byteTrace (seeded ⟨.empty⟩) = .ok () s ∧ s.Binds byteInputs byteMachine ∧
      AlwaysAgrees .standard byteInputs byteMachine byteMachine (seeded ⟨.empty⟩) byteTrace := by
  have hw : ∀ insn ∈ byteTrace, (SkipSet.mk .empty).contains insn.mnemonic = false →
      insn.WidthConsistent ∧ insn.Modelled .standard := by
    have hmodelled : ∀ insn ∈ byteTrace, insn.operation? = none ∨ insn.operation? = some (.shl, 2) := by
      decide +kernel
    refine fun insn hin _ => ⟨(by decide +kernel : ∀ insn ∈ byteTrace, insn.WidthConsistent) insn hin, ?_⟩
    intro opcode n hop args hargs
    rcases hmodelled insn hin with h | h <;> rw [h] at hop <;> cases hop
    obtain ⟨x, y, rfl⟩ := List.length_eq_two.mp hargs
    exact ⟨_, rfl⟩
  have hfits : byteMachine.AlwaysFits .standard ⟨.empty⟩ byteTrace := by
    unfold byteTrace
    iterate 4 refine Machine.alwaysFits_cons.mpr ⟨fun _ => by decide +kernel, ?_⟩
    exact fun before insn after hsplit => by simp at hsplit
  have hend : (match Replay.run byteTrace (seeded ⟨.empty⟩) with
      | .ok _ s => decide ((∀ e ∈ s.registers.inputs.entries, byteInputs e.1 = byteMachine.registers e.2) ∧
          ∀ e ∈ s.memory.inputs.entries, byteInputs e.1 = byteMachine.memory.word e.2)
      | .error _ _ => false) = true := by decide +kernel
  cases hrun : Replay.run byteTrace (seeded ⟨.empty⟩) with
  | error fault s => rw [hrun] at hend; cases hend
  | ok u s =>
    rw [hrun] at hend
    have hends := of_decide_eq_true hend
    have hb : s.Binds byteInputs byteMachine := ⟨hends.1, hends.2⟩
    obtain ⟨hiff, hclean, -⟩ := replay_follows_the_machine_iff_writes_are_clean .standard byteInputs byteMachine
      ⟨.empty⟩ byteTrace s hw hrun hb
    exact ⟨s, rfl, hb, hiff.mpr (hclean hfits)⟩

def carryTrace : List Instruction := [
  { address := 0x1000, mnemonic := "add", operands := [.register "al" 8, .register "bl" 8] }]

def carryMachine : Machine := ⟨fun r => if r = .eax then 0xff else if r = .ebx then 1 else 0, fun _ => 0⟩

def carryInputs : Assignment := fun id => if id = 0 then 0xff else if id = 1 then 1 else 0

theorem a_carry_leaves_its_byte :
    ∃ s id, Replay.run carryTrace (seeded ⟨.empty⟩) = .ok () s ∧ s.Binds carryInputs carryMachine ∧
      s.registers.get? .eax = some id ∧ s.table.eval carryInputs id = .ok 0x100 ∧
      (carryMachine.run .standard ⟨.empty⟩ carryTrace).registers .eax = 0 := by
  have hend : (match Replay.run carryTrace (seeded ⟨.empty⟩) with
      | .ok _ s => decide (((∀ e ∈ s.registers.inputs.entries, carryInputs e.1 = carryMachine.registers e.2) ∧
          ∀ e ∈ s.memory.inputs.entries, carryInputs e.1 = carryMachine.memory.word e.2) ∧
          s.registers.get? .eax = some 15 ∧ (s.table.eval carryInputs 15).toOption = some 0x100)
      | .error _ _ => false) = true := by decide +kernel
  cases hrun : Replay.run carryTrace (seeded ⟨.empty⟩) with
  | error fault s => rw [hrun] at hend; cases hend
  | ok u s =>
    rw [hrun] at hend
    obtain ⟨⟨hregs, hmem⟩, hget, heval⟩ := of_decide_eq_true hend
    refine ⟨s, 15, rfl, ⟨hregs, hmem⟩, hget, ?_, by decide +kernel⟩
    cases he : s.table.eval carryInputs 15 with
    | error opcode => rw [he] at heval; cases heval
    | ok w => rw [he] at heval; cases heval; rfl

end Session

end TraceReplay
