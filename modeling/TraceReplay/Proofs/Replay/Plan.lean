/-
  TraceReplay.Proofs.Replay.Plan — every action follows one plan.

  Exchanges apart, an action finds the place that it will write, reads its sources in order,
  combines what it has read into one value, and writes that (`perform_eq`). So what holds of
  every read, every combination and every write holds of every action. Exchanges included, an
  action first prepares its writes and then commits them (`perform_eq_commit`).

  The second part says what the operations of a replay do when they succeed, and that a
  session only grows by them (`Session.Extends`): values keep their ids and inputs stay
  inputs.
-/

import TraceReplay.Proofs.Memory.Cells
import TraceReplay.Proofs.RegisterViews
import TraceReplay.Replay.Step

namespace TraceReplay

/-! ## Sources, places and combinations -/

inductive Source where
  | operand (o : Operand)
  | slot (address : Word) (bytes : Nat)
  | register (r : Register)

def Action.sources (insn : Instruction) : Action → List Source
  | push source => [.operand source]
  | pop target => [.slot insn.popAddress target.byteCount]
  | move _ source => [.operand source]
  | exchange a b => [.operand a, .operand b]
  | loadAddress _ (.baseIndex base index _) => [.register base, .register index]
  | unary _ target => [.operand target]
  | binary _ target source => [.operand source, .operand target]
  | shift _ target _ => [.operand target]
  | mask _ target _ => [.operand target]
  | multiply _ source _ => [.operand source]
  | _ => []

/-- An action does nothing, exchanges two operands, or follows the plan. -/
@[elab_as_elim]
theorem Action.plan_cases {motive : Action → Prop} (nothing : motive .nothing)
    (exchange : ∀ x y, motive (.exchange x y))
    (planned : ∀ a, a ≠ .nothing → (∀ x y, a ≠ .exchange x y) → motive a) (a : Action) : motive a := by
  cases a with
  | nothing => exact nothing
  | exchange x y => exact exchange x y
  | _ => exact planned _ (by simp) (by simp)

/-- A destination is a part of a register, or bytes at an address, that passed its check. -/
theorem Session.destination_ok {s : Session} {insn : Instruction} {o : Operand} {place : Place}
    (h : s.destination insn o = .ok place) :
    (∃ name bits view, o = .register name bits ∧ RegisterView.ofName? name = some view ∧
      s.registers.checkWrite view = .ok () ∧ place = .register view) ∨
    ∃ m address, o = .memory m ∧ insn.accessAddress .write m = .ok address ∧
      s.memory.checkWrite address m.byteCount = .ok () ∧ place = .memory address m.byteCount := by
  cases o with
  | immediate value => cases h
  | register name bits =>
    simp only [destination, RegisterFile.view, bind, Except.bind, pure, Except.pure] at h
    cases hname : RegisterView.ofName? name with
    | none => rw [hname] at h; cases h
    | some view =>
      rw [hname] at h
      cases hcheck : s.registers.checkWrite view with
      | error fault => simp only [hcheck] at h; cases h
      | ok u =>
        simp only [hcheck] at h
        cases h
        exact .inl ⟨name, bits, view, rfl, hname, hcheck, rfl⟩
  | memory m =>
    simp only [destination, bind, Except.bind, pure, Except.pure] at h
    cases haddress : insn.accessAddress .write m with
    | error fault => rw [haddress] at h; cases h
    | ok address =>
      rw [haddress] at h
      cases hcheck : s.memory.checkWrite address m.byteCount with
      | error fault => simp only [hcheck] at h; cases h
      | ok u =>
        simp only [hcheck] at h
        cases h
        exact .inr ⟨m, address, rfl, haddress, hcheck, rfl⟩

/-- The place that the action writes, or why it cannot. An exchange has two. -/
def Session.locate (s : Session) (insn : Instruction) : Action → Except Fault Place
  | .push source => do
    s.memory.checkWrite (insn.pushAddress source.byteCount) source.byteCount
    return .memory (insn.pushAddress source.byteCount) source.byteCount
  | .pop target => s.destination insn target
  | .move target _ => s.destination insn target
  | .loadAddress target (.baseIndex ..) => s.destination insn target
  | .loadAddress _ form => .error (.unsupportedAddressForm form.tag)
  | .unary _ target => s.destination insn target
  | .binary _ target _ => s.destination insn target
  | .shift _ target _ => s.destination insn target
  | .mask _ target _ => s.destination insn target
  | .multiply target _ _ => s.destination insn target
  | _ => .error insn.unsupportedShape

namespace Replay

variable {α β : Type}

def readSource (insn : Instruction) : Source → Replay ValueId
  | .operand o => read insn o
  | .slot address bytes => readMemory address bytes
  | .register r => readRegister (.full r)

def readSources (insn : Instruction) (sources : List Source) : Replay (List ValueId) :=
  sources.mapM (readSource insn)

def combine : Action → List ValueId → Replay ValueId
  | .unary opcode _, [v] => build (Build.unary opcode v)
  | .binary opcode _ _, [b, a] => build (Build.binary opcode a b)
  | .shift opcode _ count, [v] => shiftValue opcode v count
  | .mask opcode _ word, [v] => build (maskValue opcode v word)
  | .multiply _ _ factor, [v] => build (withConstant .imul v factor)
  | .loadAddress _ (.baseIndex _ _ scale), [b, i] => build do
    let factor ← Build.constant scale
    let scaled ← Build.binary .imul i factor
    Build.binary .add b scaled
  | _, v :: _ => return v
  | _, [] => throw .brokenPartition

inductive Combination : Build ValueId → Prop where
  | unary (opcode : Opcode) (v : ValueId) : Combination (Build.unary opcode v)
  | binary (opcode : Opcode) (a b : ValueId) : Combination (Build.binary opcode a b)
  | mask (opcode : Opcode) (v : ValueId) (word : Word) : Combination (maskValue opcode v word)
  | multiply (v : ValueId) (factor : Word) : Combination (withConstant .imul v factor)
  | scaledSum (base index : ValueId) (scale : Word) : Combination do
      let factor ← Build.constant scale
      let scaled ← Build.binary .imul index factor
      Build.binary .add base scaled

/-- Combining builds a value, shifts one, or takes the first of those that were read. -/
@[elab_as_elim]
theorem combine_cases {motive : Action → List ValueId → Prop}
    (built : ∀ a vs b, combine a vs = build b → Combination b → motive a vs)
    (shift : ∀ opcode target count v, motive (.shift opcode target count) [v])
    (first : ∀ a v vs, combine a (v :: vs) = pure v → motive a (v :: vs))
    (none : ∀ a, combine a [] = throw .brokenPartition → motive a [])
    (a : Action) (vs : List ValueId) : motive a vs := by
  fun_cases combine a vs with
  | case1 opcode target v => exact built _ _ _ rfl (.unary opcode v)
  | case2 opcode target source b a => exact built _ _ _ rfl (.binary opcode a b)
  | case3 opcode target count v => exact shift opcode target count v
  | case4 opcode target word v => exact built _ _ _ rfl (.mask opcode v word)
  | case5 target source factor v => exact built _ _ _ rfl (.multiply v factor)
  | case6 target base index scale b i => exact built _ _ _ rfl (.scaledSum b i scale)
  | case7 a v vs => exact first a v vs (combine.eq_7 a v vs ‹_› ‹_› ‹_› ‹_› ‹_› ‹_›)
  | case8 a => exact none a (combine.eq_8 a)

/-- Two combinations of values that are related one by one are of the same kind. -/
@[elab_as_elim]
theorem combine_cases₂ {T : ValueId → ValueId → Prop}
    {motive : Action → (vs ws : List ValueId) → List.Forall₂ T vs ws → Prop}
    (unary : ∀ opcode target v w (h : T v w), motive (.unary opcode target) [v] [w] (.cons h .nil))
    (binary : ∀ opcode target source b b' (hb : T b b') a a' (ha : T a a'),
      motive (.binary opcode target source) [b, a] [b', a'] (.cons hb (.cons ha .nil)))
    (shift : ∀ opcode target count v w (h : T v w), motive (.shift opcode target count) [v] [w] (.cons h .nil))
    (mask : ∀ opcode target word v w (h : T v w), motive (.mask opcode target word) [v] [w] (.cons h .nil))
    (multiply : ∀ target source factor v w (h : T v w),
      motive (.multiply target source factor) [v] [w] (.cons h .nil))
    (scaledSum : ∀ target base index scale b b' (hb : T b b') i i' (hi : T i i'),
      motive (.loadAddress target (.baseIndex base index scale)) [b, i] [b', i'] (.cons hb (.cons hi .nil)))
    (first : ∀ a v w (h : T v w) vs ws (hs : List.Forall₂ T vs ws), combine a (v :: vs) = pure v →
      combine a (w :: ws) = pure w → motive a (v :: vs) (w :: ws) (.cons h hs))
    (none : ∀ a, combine a [] = throw .brokenPartition → motive a [] [] .nil)
    (a : Action) (vs ws : List ValueId) (h : List.Forall₂ T vs ws) : motive a vs ws h := by
  -- the two sides are of one length, so they are cut at the same place
  rcases h with _ | ⟨h, _ | ⟨h', _ | ⟨h'', hs⟩⟩⟩
  · exact none a (combine.eq_8 a)
  · cases a with
    | unary opcode target => exact unary opcode target _ _ h
    | shift opcode target count => exact shift opcode target count _ _ h
    | mask opcode target word => exact mask opcode target word _ _ h
    | multiply target source factor => exact multiply target source factor _ _ h
    | loadAddress target form => cases form <;> exact first _ _ _ h _ _ .nil rfl rfl
    | _ => exact first _ _ _ h _ _ .nil rfl rfl
  · cases a with
    | binary opcode target source => exact binary opcode target source _ _ h _ _ h'
    | loadAddress target form =>
      cases form with
      | baseIndex base index scale => exact scaledSum target base index scale _ _ h _ _ h'
      | _ => exact first _ _ _ h _ _ (.cons h' .nil) rfl rfl
    | _ => exact first _ _ _ h _ _ (.cons h' .nil) rfl rfl
  · refine first _ _ _ h _ _ (.cons h' (.cons h'' hs)) ?_ ?_ <;> simp [combine]

/-- Exchanges apart, an action that does anything follows the plan. -/
theorem perform_eq (insn : Instruction) {a : Action} (hn : a ≠ .nothing) (hx : ∀ x y, a ≠ .exchange x y) :
    perform insn a = (do
      let place ← check ((← get).locate insn a)
      let vs ← readSources insn (a.sources insn)
      let v ← combine a vs
      write v place) := by
  cases a with
  | nothing => exact absurd rfl hn
  | exchange x y => exact absurd rfl (hx x y)
  | unsupported => rfl
  | push source =>
    simp only [perform, push, Session.locate, Action.sources, readSources, List.mapM_cons, List.mapM_nil,
      bind_assoc, pure_bind, readSource, combine]
    refine bind_congr fun s => ?_
    cases s.memory.checkWrite (insn.pushAddress source.byteCount) source.byteCount <;> rfl
  | loadAddress target form =>
    cases form with
    | baseIndex base index scale =>
      simp [perform, loadAddress, resolve, Session.locate, Action.sources, readSources, readSource, combine]
    | _ => rfl
  | pop _ | move _ _ | unary _ _ | binary _ _ _ | shift _ _ _ | mask _ _ _ | multiply _ _ _ =>
    simp [perform, pop, resolve, Session.locate, Action.sources, readSources, readSource, combine]

/-- An action up to its writes: each place with the value that it will get, in order. -/
def prepare (insn : Instruction) : Action → Replay (List (Place × ValueId))
  | .nothing => return []
  | .exchange a b => do
    let p ← resolve insn a
    let q ← resolve insn b
    let va ← read insn a
    let vb ← read insn b
    return [(p, vb), (q, va)]
  | a => do
    let place ← check ((← get).locate insn a)
    let vs ← readSources insn (a.sources insn)
    let v ← combine a vs
    return [(place, v)]

def commit : List (Place × ValueId) → Replay Unit
  | [] => return
  | (place, v) :: rest => do
    write v place
    commit rest

theorem prepare_eq (insn : Instruction) {a : Action} (hn : a ≠ .nothing) (hx : ∀ x y, a ≠ .exchange x y) :
    prepare insn a = (do
      let place ← check ((← get).locate insn a)
      let vs ← readSources insn (a.sources insn)
      let v ← combine a vs
      return [(place, v)]) := prepare.eq_3 insn a hn hx

theorem perform_eq_commit (insn : Instruction) (a : Action) : perform insn a = prepare insn a >>= commit := by
  cases a using Action.plan_cases with
  | nothing => rfl
  | exchange x y => simp [perform, exchange, prepare, commit]
  | planned a hn hx =>
    rw [perform_eq insn hn hx, prepare_eq insn hn hx]
    simp [commit]

/-! ## Operations that succeed -/

variable {s s' : Session} {a : α}

theorem bind_ok {x : Replay α} {f : α → Replay β} {b : β} (h : (x >>= f) s = .ok b s') :
    ∃ a s₁, x s = .ok a s₁ ∧ f a s₁ = .ok b s' := by
  replace h : EStateM.bind x f s = .ok b s' := h
  unfold EStateM.bind at h
  split at h
  · exact ⟨_, _, ‹_›, h⟩
  · cases h

theorem get_bind_ok {f : Session → Replay β} {b : β} (h : (get >>= f) s = .ok b s') : f s s = .ok b s' := h

theorem check_ok {outcome : Except Fault α} (h : check outcome s = .ok a s') : outcome = .ok a ∧ s' = s := by
  cases outcome with
  | error fault => cases h
  | ok a => cases h; exact ⟨rfl, rfl⟩

theorem build_run (b : Build α) (s : Session) :
    build b s = .ok (b s.table).1 { s with table := (b s.table).2 } := rfl

theorem build_ok {b : Build α} (h : build b s = .ok a s') :
    a = (b s.table).1 ∧ s' = { s with table := (b s.table).2 } := by
  rw [build_run] at h
  cases h
  exact ⟨rfl, rfl⟩

theorem plan_ok {plan : Except Fault (Build α)} (h : Replay.plan plan s = .ok a s') :
    ∃ b, plan = .ok b ∧ a = (b s.table).1 ∧ s' = { s with table := (b s.table).2 } := by
  cases plan with
  | error fault => cases h
  | ok b => exact ⟨b, rfl, build_ok h⟩

theorem attempt_ok {b : ExceptT Fault Build α} (h : attempt b s = .ok a s') :
    (b.run s.table).1 = .ok a ∧ s' = { s with table := (b.run s.table).2 } := by
  obtain ⟨r, s₁, hb, h⟩ := bind_ok h
  obtain ⟨rfl, rfl⟩ := build_ok hb
  cases hr : (b.run s.table).1 with
  | error fault => rw [hr] at h; cases h
  | ok a =>
    rw [hr] at h
    cases h
    exact ⟨rfl, rfl⟩

theorem map_ok {f : α → β} {x : Except Fault α} {b : β} (h : x.map f = .ok b) : ∃ a, x = .ok a ∧ f a = b := by
  cases x with
  | error fault => cases h
  | ok a => cases h; exact ⟨a, rfl, rfl⟩

theorem owner_ok {regs : RegisterFile} {r : Register} {id : ValueId} (h : regs.owner r = .ok id) :
    regs.get? r = some id := by
  unfold RegisterFile.owner at h
  split at h
  · cases h; assumption
  · cases h

theorem readRegister_ok {view : RegisterView} {v : ValueId} (h : readRegister view s = .ok v s') :
    ∃ owner, s.registers.get? view.owner = some owner ∧ v = (view.extract owner s.table).1 ∧
      s' = { s with table := (view.extract owner s.table).2 } := by
  obtain ⟨b, hb, rfl, rfl⟩ := plan_ok h
  obtain ⟨owner, ho, rfl⟩ := map_ok hb
  exact ⟨owner, owner_ok ho, rfl, rfl⟩

/-- A part of a register is written only if the register holds a value. -/
theorem full_or_owner {regs : RegisterFile} {view : RegisterView} {value : ValueId} {b : Build RegisterFile}
    (h : regs.write view value = .ok b) :
    (∃ r, view = .full r) ∨ ∃ owner, regs.get? view.owner = some owner := by
  cases view with
  | full r => exact .inl ⟨r, rfl⟩
  | low16 r | low8 r | high8 r =>
    obtain ⟨owner, ho, -⟩ := map_ok h
    exact .inr ⟨owner, owner_ok ho⟩

theorem writeRegister_ok {view : RegisterView} {value owner : ValueId}
    (ho : s.registers.get? view.owner = some owner) {u : Unit} (h : writeRegister view value s = .ok u s') :
    s' = { s with table := (view.merge owner value s.table).2,
                  registers := s.registers.set view.owner (view.merge owner value s.table).1 } := by
  obtain ⟨regs, s₁, hplan, h⟩ := bind_ok (get_bind_ok h)
  obtain ⟨b, hb, rfl, rfl⟩ := plan_ok hplan
  rw [RegisterFile.write_eq_ok ho] at hb
  cases h
  cases hb
  rfl

theorem readMemory_ok {address : Word} {bytes : Nat} {v : ValueId} (h : readMemory address bytes s = .ok v s') :
    s' = { s with table := s'.table, memory := s'.memory } ∧
      ∃ access, AddressRange.ofAccess? address bytes = some access ∧
        Memory.ReadStep s.table s.memory bytes access v s'.table s'.memory := by
  obtain ⟨⟨v', memory⟩, s₁, hplan, h⟩ := bind_ok (get_bind_ok h)
  obtain ⟨b, hb, hv, rfl⟩ := plan_ok hplan
  cases h
  obtain ⟨access, ha, hstep⟩ := Memory.read_step hb s.table
  rw [← hv] at hstep
  exact ⟨rfl, access, ha, hstep⟩

theorem writeMemory_ok (hs : s.memory.Separated) {address : Word} {bytes : Nat} {value : ValueId} {u : Unit}
    (h : writeMemory address bytes value s = .ok u s') :
    s' = { s with table := s'.table, memory := s'.memory } ∧
      ∃ access, AddressRange.ofAccess? address bytes = some access ∧
        Memory.WriteStep s.table s.memory access value s'.table s'.memory := by
  obtain ⟨memory, s₁, hplan, h⟩ := bind_ok (get_bind_ok h)
  obtain ⟨b, hb, rfl, rfl⟩ := plan_ok hplan
  cases h
  obtain ⟨access, ha, hstep⟩ := Memory.write_step hs hb s.table
  exact ⟨rfl, access, ha, hstep⟩

end Replay

/-! ## Sessions only grow -/

namespace Session

structure Tidy (s : Session) : Prop where
  separated : s.memory.Separated
  inputs_lt : ∀ e ∈ s.memory.inputs.entries, e.1 < s.table.size

structure Extends (s s' : Session) : Prop where
  tidy : s'.Tidy
  skip : s'.skip = s.skip
  grows : s.table.Grows s'.table
  registerInputs : s'.registers.inputs = s.registers.inputs
  memoryInputs : ∀ e ∈ s.memory.inputs.entries, e ∈ s'.memory.inputs.entries

variable {s s' s'' : Session}

theorem Extends.refl (h : s.Tidy) : s.Extends s := ⟨h, rfl, .refl _, rfl, fun _ he => he⟩

theorem Extends.trans (h : s.Extends s') (h' : s'.Extends s'') : s.Extends s'' :=
  ⟨h'.tidy, h'.skip.trans h.skip, h.grows.trans h'.grows, h'.registerInputs.trans h.registerInputs,
    fun e he => h'.memoryInputs e (h.memoryInputs e he)⟩

theorem Tidy.extends_table (h : s.Tidy) {t : Table} (g : s.table.Grows t) : s.Extends { s with table := t } :=
  ⟨⟨h.separated, fun e he => g.lt (h.inputs_lt e he)⟩, rfl, g, rfl, fun _ he => he⟩

end Session

namespace Replay

def Extending {α : Type} (x : Replay α) : Prop :=
  ∀ (s : Session) (a : α) (s' : Session), s.Tidy → x s = .ok a s' → s.Extends s'

variable {α β : Type}

theorem Extending.bind {x : Replay α} {f : α → Replay β} (hx : x.Extending) (hf : ∀ a, (f a).Extending) :
    (x >>= f).Extending := by
  intro s b s' hs h
  obtain ⟨a, s₁, h₁, h₂⟩ := bind_ok h
  have he := hx s a s₁ hs h₁
  exact he.trans (hf a s₁ b s' he.tidy h₂)

theorem extending_pure (a : α) : (pure a : Replay α).Extending := by
  intro s b s' hs h
  cases h
  exact .refl hs

theorem extending_throw (fault : Fault) : (throw fault : Replay α).Extending := nofun

theorem extending_get {f : Session → Replay α} (h : ∀ s, (f s).Extending) : (get >>= f).Extending :=
  fun s a s' hs hrun => h s s a s' hs (get_bind_ok hrun)

theorem extending_check (outcome : Except Fault α) : (check outcome).Extending := by
  intro s a s' hs h
  obtain ⟨-, rfl⟩ := check_ok h
  exact .refl hs

theorem extending_build {p : Node → Prop} {b : Build α} (hb : b.Adds p) : (build b).Extending := by
  intro s a s' hs h
  obtain ⟨rfl, rfl⟩ := build_ok h
  exact hs.extends_table (hb s.table).grows

theorem extending_attempt {p : Node → Prop} {b : ExceptT Fault Build α} (hb : b.run.Adds p) : (attempt b).Extending := by
  intro s a s' hs h
  obtain ⟨-, rfl⟩ := attempt_ok h
  exact hs.extends_table (hb s.table).grows

theorem extending_readRegister (view : RegisterView) : (readRegister view).Extending := by
  intro s v s' hs h
  obtain ⟨owner, -, -, rfl⟩ := readRegister_ok h
  exact hs.extends_table (view.adds_extract owner s.table).grows

theorem extending_readMemory (address : Word) (bytes : Nat) : (readMemory address bytes).Extending := by
  intro s v s' hs h
  obtain ⟨heq, access, ha, hstep⟩ := readMemory_ok h
  obtain ⟨hlt, hinputs⟩ := hstep.inputs hs.inputs_lt
  have hsep := hstep.separated hs.separated (AddressRange.first_le_last_of_access ha)
  exact ⟨⟨hsep, hlt⟩, by rw [heq], hstep.grows, by rw [heq], hinputs⟩

theorem extending_writeRegister (view : RegisterView) (value : ValueId) :
    (writeRegister view value).Extending := by
  intro s u s' hs h
  obtain ⟨_, _, hplan, -⟩ := bind_ok (get_bind_ok h)
  obtain ⟨b, hb, -⟩ := plan_ok hplan
  rcases full_or_owner hb with ⟨r, rfl⟩ | ⟨owner, ho⟩
  · cases h
    exact ⟨⟨hs.separated, hs.inputs_lt⟩, rfl, .refl _, rfl, fun _ he => he⟩
  · rw [writeRegister_ok ho h]
    have hext := hs.extends_table (view.adds_merge owner value s.table).grows
    exact ⟨⟨hext.tidy.separated, hext.tidy.inputs_lt⟩, rfl, hext.grows, rfl, hext.memoryInputs⟩

theorem extending_writeMemory (address : Word) (bytes : Nat) (value : ValueId) :
    (writeMemory address bytes value).Extending := by
  intro s u s' hs h
  obtain ⟨heq, access, ha, hstep⟩ := writeMemory_ok hs.separated h
  have hsep := hstep.separated hs.separated (AddressRange.first_le_last_of_access ha)
  have hin := hstep.inputs_eq
  refine ⟨⟨hsep, ?_⟩, by rw [heq], hstep.grows, by rw [heq], ?_⟩ <;> rw [hin]
  · exact fun e he => hstep.grows.lt (hs.inputs_lt e he)
  · exact fun _ he => he

theorem extending_read (insn : Instruction) (o : Operand) : (read insn o).Extending := by
  cases o with
  | immediate value => exact extending_build (Build.makes_constant value).adds
  | register name bits => exact .bind (extending_check _) fun view => extending_readRegister view
  | memory m => exact .bind (extending_check _) fun address => extending_readMemory address _

theorem extending_write (value : ValueId) (place : Place) : (write value place).Extending := by
  cases place with
  | register view => exact extending_writeRegister view value
  | memory address bytes => exact extending_writeMemory address bytes value

theorem extending_readSource (insn : Instruction) (source : Source) : (readSource insn source).Extending := by
  cases source with
  | operand o => exact extending_read insn o
  | slot address bytes => exact extending_readMemory address bytes
  | register r => exact extending_readRegister _

theorem extending_readSources (insn : Instruction) (sources : List Source) :
    (readSources insn sources).Extending := by
  unfold readSources
  induction sources with
  | nil => exact extending_pure _
  | cons source sources ih =>
    rw [List.mapM_cons]
    exact .bind (extending_readSource insn source) fun _ => .bind ih fun _ => extending_pure _

theorem makes_withConstant (opcode : Opcode) (value : ValueId) (word : Word) :
    (withConstant opcode value word).Makes Node.Computed :=
  Build.makes_withConstant opcode value word

theorem maskValue_run (opcode : Opcode) (v : ValueId) (mask : Word) (t : Table) :
    maskValue opcode v mask t = withConstant opcode v mask t ∨
      ∃ word, maskValue opcode v mask t = Build.constant word t := by
  unfold maskValue
  cases hf : (t.pieces? v).bind (Build.maskedWord? t opcode mask) with
  | none =>
    have hrun : Build.foldMask v opcode mask t = (none, t) := by rw [Build.foldMask, hf]
    exact .inl (by simp only [bind, StateT.bind, hrun])
  | some word =>
    have hrun : Build.foldMask v opcode mask t = (some (Build.constant word t).1, (Build.constant word t).2) := by
      rw [Build.foldMask, hf]
      rfl
    exact .inr ⟨word, by simp only [bind, StateT.bind, hrun]; rfl⟩

theorem makes_maskValue (opcode : Opcode) (v : ValueId) (mask : Word) :
    (maskValue opcode v mask).Makes Node.Computed := by
  constructor <;> intro t <;> rcases maskValue_run opcode v mask t with hrun | ⟨word, hrun⟩ <;> rw [hrun]
  · exact (makes_withConstant opcode v mask).adds t
  · exact (Build.makes_constant word).adds t
  · exact (makes_withConstant opcode v mask).fresh t
  · exact (Build.makes_constant word).fresh t

/-- Whatever is combined, the result is a new constant or a new operation. -/
theorem Combination.makes {b : Build ValueId} (h : Combination b) : b.Makes Node.Computed := by
  cases h with
  | unary opcode v => exact Build.makes_unary opcode v
  | binary opcode a b => exact Build.makes_binary opcode a b
  | mask opcode v word => exact makes_maskValue opcode v word
  | multiply v factor => exact makes_withConstant .imul v factor
  | scaledSum base index scale =>
    exact (Build.makes_constant _).adds.bindMakes fun _ => (Build.makes_binary _ _ _).adds.bindMakes fun _ =>
      Build.makes_binary _ _ _

theorem extending_combine (a : Action) (vs : List ValueId) : (combine a vs).Extending := by
  cases a, vs using combine_cases with
  | built a vs b hrun hb =>
    rw [hrun]
    exact extending_build hb.makes.adds
  | shift opcode _ count v =>
    refine extending_get fun s => ?_
    split
    · exact extending_attempt (Build.adds_shiftHybrid _ _ _)
    · exact extending_build (makes_withConstant _ _ _).adds
  | first a v vs hrun =>
    rw [hrun]
    exact extending_pure v
  | none a hrun =>
    rw [hrun]
    exact extending_throw _

theorem extending_perform (insn : Instruction) (a : Action) : (perform insn a).Extending := by
  cases a using Action.plan_cases with
  | nothing => exact extending_pure _
  | exchange x y =>
    exact .bind (extending_get fun _ => extending_check _) fun _ => .bind (extending_get fun _ => extending_check _) fun _ =>
      .bind (extending_read insn x) fun _ => .bind (extending_read insn y) fun _ =>
        .bind (extending_write _ _) fun _ => extending_write _ _
  | planned a hn hx =>
    rw [perform_eq insn hn hx]
    exact extending_get fun _ => .bind (extending_check _) fun _ => .bind (extending_readSources insn _) fun _ =>
      .bind (extending_combine a _) fun _ => extending_write _ _

theorem extending_commit (ws : List (Place × ValueId)) : (commit ws).Extending := by
  induction ws with
  | nil => exact extending_pure _
  | cons p ws ih => exact (extending_write p.2 p.1).bind fun _ => ih

/-- An instruction only adds to a session. -/
theorem extending_step (insn : Instruction) : (step insn).Extending := by
  refine extending_get fun s => ?_
  split
  · exact extending_pure _
  · refine .bind (extending_perform insn _) fun _ => ?_
    intro s u s' hs h
    cases h
    exact ⟨⟨hs.separated, hs.inputs_lt⟩, rfl, .refl _, rfl, fun _ he => he⟩

/-! ## Runs -/

variable {s s' : Session}

theorem adaptExcept_ok {x : Replay α} {f : Fault → Fault} {a : α} :
    x.adaptExcept f s = .ok a s' ↔ x s = .ok a s' := by
  unfold EStateM.adaptExcept
  split <;> simp_all

theorem runFrom_cons_ok {i : Nat} {insn : Instruction} {rest : List Instruction} :
    runFrom i (insn :: rest) s = .ok () s' ↔
      ∃ s₁, step insn s = .ok () s₁ ∧ runFrom (i + 1) rest s₁ = .ok () s' := by
  rw [runFrom]
  constructor
  · intro h
    obtain ⟨u, s₁, hstep, hrest⟩ := bind_ok h
    exact ⟨s₁, adaptExcept_ok.mp hstep, hrest⟩
  · rintro ⟨s₁, hstep, hrest⟩
    rw [bind_run (adaptExcept_ok.mpr hstep)]
    exact hrest

/-- Positions are for faults only. -/
theorem runFrom_ok_index {i : Nat} (j : Nat) {trace : List Instruction} (h : runFrom i trace s = .ok () s') :
    runFrom j trace s = .ok () s' := by
  induction trace generalizing i j s with
  | nil => exact h
  | cons insn rest ih =>
    obtain ⟨s₁, hstep, hrest⟩ := runFrom_cons_ok.mp h
    exact runFrom_cons_ok.mpr ⟨s₁, hstep, ih (j + 1) hrest⟩

theorem run_cons_ok {insn : Instruction} {rest : List Instruction} :
    run (insn :: rest) s = .ok () s' ↔ ∃ s₁, step insn s = .ok () s₁ ∧ run rest s₁ = .ok () s' := by
  rw [run, runFrom_cons_ok]
  exact exists_congr fun s₁ => and_congr_right fun _ => ⟨runFrom_ok_index 0, runFrom_ok_index 1⟩

theorem run_cons_of_step {insn : Instruction} {rest : List Instruction} {s₁ : Session}
    (hstep : step insn s = .ok () s₁) : run (insn :: rest) s = .ok () s' ↔ run rest s₁ = .ok () s' := by
  rw [run_cons_ok, hstep]
  simp

theorem extending_run (trace : List Instruction) : (run trace).Extending := by
  induction trace with
  | nil => exact extending_pure _
  | cons insn rest ih =>
    intro s u s' hs h
    obtain ⟨s₁, hstep, hrest⟩ := run_cons_ok.mp h
    have he := extending_step insn s () s₁ hs hstep
    exact he.trans (ih s₁ () s' he.tidy hrest)

end Replay

end TraceReplay
