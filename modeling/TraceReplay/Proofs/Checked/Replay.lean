/-
  TraceReplay.Proofs.Checked.Replay — instructions are replayed without a failing operation.

  A checked replay (`Checked.Replayer`) is a replay whose arithmetic is checked, whose values are
  built by checked builders, which takes the first cell of a list only if there is one, and whose
  count of instructions has 64 bits. Faults are among its results: a replay may stop with one, but
  an operation that fails has no result at all.

  On a proper session (`Session.Proper`), sound and with a proper table, a checked replay does what
  the replay does if the values that are built fit (`Checked.Follows`): it finds places
  (`locate_eq`), reads and writes memory and registers (`follows_readMemory`, `follows_writeMemory`,
  `follows_readRegister`, `follows_writeRegister`), and so performs any instruction (`follows_step`).
-/

import TraceReplay.Proofs.Checked.Building
import TraceReplay.Proofs.Replay.Effects

namespace TraceReplay

namespace Checked

variable {α β : Type}

abbrev Replayer := ExceptT Fault (StateT Session Option)

def build (b : Builder α) : Replayer α :=
  ExceptT.mk fun s => (b s.table).map fun r => (.ok r.1, { s with table := r.2 })

def check (decision : ExceptT Fault Option α) : Replayer α := ExceptT.mk fun s => decision.run.map (·, s)

def settled (outcome : Except Fault α) : ExceptT Fault Option α := ExceptT.mk (some outcome)

/-! ## Places -/

def checkWrite (m : Memory) (address : Word) (bytes : Nat) : ExceptT Fault Option Unit := do
  let range ← access address bytes
  match m.classify range with
  | .straddling cell => throw (.partialOverlap range cell)
  | .within cell _ => if (← size cell) > 4 then throw (.oversizedRange cell) else return
  | _ => return

def destination (s : Session) (insn : Instruction) : Operand → ExceptT Fault Option Place
  | .memory m => do
    let address ← settled (insn.accessAddress .write m)
    checkWrite s.memory address m.byteCount
    return .memory address m.byteCount
  | o => settled (s.destination insn o)

def locate (s : Session) (insn : Instruction) : Action → ExceptT Fault Option Place
  | .push source => do
    checkWrite s.memory (insn.pushAddress source.byteCount) source.byteCount
    return .memory (insn.pushAddress source.byteCount) source.byteCount
  | .pop target => destination s insn target
  | .move target _ => destination s insn target
  | .loadAddress target (.baseIndex ..) => destination s insn target
  | .unary _ target => destination s insn target
  | .binary _ target _ => destination s insn target
  | .shift _ target _ => destination s insn target
  | .mask _ target _ => destination s insn target
  | .multiply target _ _ => destination s insn target
  | a => settled (s.locate insn a)

/-! ## Reading and writing -/

def readRegister (view : RegisterView) : Replayer ValueId := do
  let owner ← check (settled ((← get).registers.owner view.owner))
  build (extract owner view)

def writeRegister (view : RegisterView) (value : ValueId) : Replayer Unit := do
  match view with
  | .full r => modify (·.set r value)
  | _ =>
    let owner ← check (settled ((← get).registers.owner view.owner))
    let merged ← build (merge owner value view)
    modify (·.set view.owner merged)

def readNamed (name : String) : Replayer ValueId := do
  readRegister (← check (settled (RegisterFile.view name)))

def readPlaced (m : Memory) (range : AddressRange) (bytes : Nat) : Placement → Replayer ValueId
  | .exact stored => return stored
  | .fresh => do
    let input ← build (symbol (← mul 32 bytes 8))
    modify fun s => { s with memory := ⟨m.cells.insert range input, m.inputs.insert input range⟩ }
    return input
  | .within cell stored => do
    if (← size cell) > 4 then throw (.oversizedRange cell)
    else
      let (mask, count) ← byteMask cell range
      build (maskDown stored mask count (← mul 32 bytes 8))
  | .covering .. => do throw (.partialOverlap range (← (m.touched range).head?).1)
  | .straddling cell => throw (.partialOverlap range cell)

def readMemory (address : Word) (bytes : Nat) : Replayer ValueId := do
  let m := (← get).memory
  let range ← check (access address bytes)
  readPlaced m range bytes (m.classify range)

def writePlaced (m : Memory) (range : AddressRange) (value : ValueId) : Placement → Replayer Unit
  | .exact _ => modify fun s => { s with memory := m.store range value }
  | .fresh => modify fun s => { s with memory := m.store range value }
  | .covering first rest => modify fun s =>
    { s with memory := { m with cells := ((first :: rest).foldl (·.erase ·) m.cells).insert range value } }
  | .within cell stored => do
    if (← size cell) > 4 then throw (.oversizedRange cell)
    else
      let (mask, count) ← byteMask cell range
      let merged ← build (mergeUp stored value (~~~mask) count)
      modify fun s => { s with memory := m.store cell merged }
  | .straddling cell => throw (.partialOverlap range cell)

def writeMemory (address : Word) (bytes : Nat) (value : ValueId) : Replayer Unit := do
  let m := (← get).memory
  let range ← check (access address bytes)
  writePlaced m range value (m.classify range)

def read (insn : Instruction) : Operand → Replayer ValueId
  | .immediate value => build (constant value)
  | .register name _ => readNamed name
  | .memory m => do readMemory (← check (settled (insn.accessAddress .read m))) m.byteCount

def write (value : ValueId) : Place → Replayer Unit
  | .register view => writeRegister view value
  | .memory address bytes => writeMemory address bytes value

/-! ## Instructions -/

def readSource (insn : Instruction) : Source → Replayer ValueId
  | .operand o => read insn o
  | .slot address bytes => readMemory address bytes
  | .register r => readRegister (.full r)

def shiftValue (opcode : Opcode) (value : ValueId) (count : Word) : Replayer ValueId := do
  if (← build (fetch value)).pieces?.isSome then
    match ← build (shiftHybrid value opcode count) with
    | .ok shifted => return shifted
    | .error fault => throw fault
  else build (withConstant opcode value count)

def combine : Action → List ValueId → Replayer ValueId
  | .unary opcode _, [v] => build (unary opcode v)
  | .binary opcode _ _, [b, a] => build (binary opcode a b)
  | .shift opcode _ count, [v] => shiftValue opcode v count
  | .mask opcode _ word, [v] => build (maskValue opcode v word)
  | .multiply _ _ factor, [v] => build (withConstant .imul v factor)
  | .loadAddress _ (.baseIndex _ _ scale), [b, i] => build do binary .add b (← withConstant .imul i scale)
  | _, v :: _ => return v
  | _, [] => throw .brokenPartition

def prepare (insn : Instruction) : Action → Replayer (List (Place × ValueId))
  | .nothing => return []
  | .exchange a b => do
    let p ← check (destination (← get) insn a)
    let q ← check (destination (← get) insn b)
    let va ← read insn a
    let vb ← read insn b
    return [(p, vb), (q, va)]
  | a => do
    let place ← check (locate (← get) insn a)
    let vs ← (a.sources insn).mapM (readSource insn)
    let v ← combine a vs
    return [(place, v)]

def commit : List (Place × ValueId) → Replayer Unit
  | [] => return
  | (place, v) :: rest => do
    write v place
    commit rest

def step (insn : Instruction) : Replayer Unit := do
  if (← get).skip.contains insn.mnemonic then return
  else
    prepare insn (.ofInstruction insn) >>= commit
    let executed ← add 64 (← get).executed 1
    modify fun s => { s with executed }

end Checked

/-! ## Proper sessions -/

structure Session.Proper (s : Session) : Prop extends s.Sound where
  table : s.table.Proper

def Replay.outcome {α : Type} (x : Replay α) (s : Session) : Except Fault α × Session :=
  match x s with
  | .ok a s' => (.ok a, s')
  | .error fault s' => (.error fault, s')

namespace Checked

open Build (Inside)

variable {α β : Type} {s : Session}

/-- Run on the session, the replay leaves a proper session and gives what it is meant to, if it
    gives anything; the checked replay does the same, if there is room for what is built. -/
structure Follows (c : Replayer α) (x : Replay α) (s : Session) (post : Session → α → Prop) : Prop where
  grows : s.table.Grows (x.after s).table
  proper : (x.after s).Proper
  post : ∀ a s', x s = .ok a s' → post s' a
  run : (x.after s).table.size ≤ 2 ^ 32 → c.run s = some (x.outcome s)

theorem run_bind (c : Replayer α) (k : α → Replayer β) (s : Session) :
    (c >>= k).run s = (c.run s).bind fun r => match r.1 with
      | .ok a => (k a).run r.2
      | .error fault => some (.error fault, r.2) := by
  show ((c.run s).bind fun r => ExceptT.bindCont k r.1 r.2) = _
  congr 1
  funext r
  rcases r with ⟨_ | _, _⟩ <;> rfl

theorem Follows.bind {c : Replayer α} {x : Replay α} {k : α → Replayer β} {f : α → Replay β}
    {P : Session → α → Prop} {Q : Session → β → Prop} (h : Follows c x s P)
    (hk : ∀ a s', s'.Proper → s.table.Grows s'.table → P s' a → Follows (k a) (f a) s' Q) :
    Follows (c >>= k) (x >>= f) s Q := by
  obtain ⟨hg, hp, hpost, hrun⟩ := h
  cases hx : x s with
  | error fault s₁ =>
    rw [Replay.after_error hx] at hg hp hrun
    have hbind := bind_run_error (f := f) hx
    constructor
    · rwa [Replay.after_error hbind]
    · rwa [Replay.after_error hbind]
    · intro b s' h
      cases hbind.symm.trans h
    · rw [Replay.after_error hbind]
      intro hroom
      rw [run_bind, hrun hroom]
      simp only [Replay.outcome, hx, hbind, Option.bind_some]
  | ok a s₁ =>
    rw [Replay.after_ok hx] at hg hp hrun
    have h' := hk a s₁ hp hg (hpost a s₁ hx)
    have hbind : (x >>= f) s = f a s₁ := bind_run hx
    have hafter : (x >>= f).after s = (f a).after s₁ := by rw [Replay.after, hbind, Replay.after]
    constructor
    · rw [hafter]
      exact hg.trans h'.grows
    · rw [hafter]
      exact h'.proper
    · intro b s' h
      exact h'.post b s' (hbind.symm.trans h)
    · rw [hafter]
      intro hroom
      rw [run_bind, hrun (Nat.le_trans h'.grows.size_le hroom)]
      simp only [Replay.outcome, hx, Option.bind_some, hbind]
      exact h'.run hroom

theorem follows_pure (hs : s.Proper) {a : α} {P : Session → α → Prop} (h : P s a) : Follows (pure a) (pure a) s P := by
  refine ⟨.refl _, hs, fun b s' hb => ?_, fun _ => rfl⟩
  cases hb
  exact h

theorem follows_throw (hs : s.Proper) (fault : Fault) {P : Session → α → Prop} :
    Follows (throw fault) (throw fault) s P :=
  ⟨.refl _, hs, nofun, fun _ => rfl⟩

/-- Other computations that do the same on the session. -/
theorem Follows.congr {c c' : Replayer α} {x x' : Replay α} {P : Session → α → Prop} (h : Follows c x s P)
    (hc : c'.run s = c.run s) (hx : x' s = x s) : Follows c' x' s P := by
  have hafter : x'.after s = x.after s := by rw [Replay.after, hx, Replay.after]
  have houtcome : x'.outcome s = x.outcome s := by rw [Replay.outcome, hx, Replay.outcome]
  refine ⟨?_, ?_, fun a s' ha => h.post a s' (hx.symm.trans ha), ?_⟩ <;> rw [hafter]
  · exact h.grows
  · exact h.proper
  · rw [hc, houtcome]
    exact h.run

/-- A checked computation may look at the session. -/
theorem follows_look {k : Session → Replayer α} {x : Replay α} {P : Session → α → Prop} (h : Follows (k s) x s P) :
    Follows (get >>= k) x s P :=
  h.congr rfl rfl

theorem follows_get {k : Session → Replayer α} {f : Session → Replay α} {P : Session → α → Prop}
    (h : Follows (k s) (f s) s P) : Follows (get >>= k) (get >>= f) s P :=
  h.congr rfl rfl

/-- A computation that does not fail gives what it is known to give. -/
theorem follows_lift {o : Option α} {a : α} {k : α → Replayer β} {x : Replay β} {Q : Session → β → Prop}
    (ho : o = some a) (h : Follows (k a) x s Q) : Follows (liftM o >>= k) x s Q := by
  subst ho
  exact h.congr rfl rfl

theorem follows_check (hs : s.Proper) {d : ExceptT Fault Option α} {outcome : Except Fault α}
    (hd : d.run = some outcome) :
    Follows (check d) (Replay.check outcome) s fun s' a => s' = s ∧ outcome = .ok a := by
  have hrun : (check d).run s = some (outcome, s) := by
    show d.run.map (·, s) = _
    rw [hd]
    rfl
  cases outcome with
  | error fault => exact (follows_throw hs fault).congr hrun rfl
  | ok a => exact (follows_pure (a := a) hs ⟨rfl, rfl⟩).congr hrun rfl

theorem follows_modify {f : Session → Session} {P : Session → Unit → Prop} (hs : (f s).Proper)
    (g : s.table.Grows (f s).table) (h : P (f s) ()) : Follows (modify f) (modify f) s P := by
  refine ⟨g, hs, fun _ s' hs' => ?_, fun _ => rfl⟩
  cases hs'
  exact h

theorem follows_build (hs : s.Proper) {c : Builder α} {b : Build α} {P : Table → α → Prop}
    (h : Runs c b s.table P) :
    Follows (build c) (Replay.build b) s fun s' a => P s'.table a ∧ s' = { s with table := s'.table } := by
  have hmaintains : b.Maintains s.table P := ⟨h.grows, h.proper.wellFormed, h.post⟩
  have hsound := hs.toSound.build hmaintains
  refine ⟨h.grows, ⟨hsound, h.proper⟩, fun a s' ha => ?_, fun hroom => ?_⟩
  · obtain ⟨rfl, rfl⟩ := Replay.build_ok ha
    exact ⟨h.post, rfl⟩
  · show (c s.table).map _ = _
    rw [h.run hroom]
    rfl

/-- A value that is built is a value of the table. -/
theorem follows_value (hs : s.Proper) {c : Builder ValueId} {b : Build ValueId} (h : Runs c b s.table Inside) :
    Follows (build c) (Replay.build b) s fun s' v => Inside s'.table v :=
  have hb := follows_build hs h
  ⟨hb.grows, hb.proper, fun a s' ha => (hb.post a s' ha).1, hb.run⟩

/-! ## Registers -/

theorem follows_readRegister (hs : s.Proper) (view : RegisterView) :
    Follows (readRegister view) (Replay.readRegister view) s fun s' v => Inside s'.table v := by
  have hread : Replay.readRegister view s = (do
      let owner ← Replay.check (s.registers.owner view.owner)
      Replay.build (view.extract owner) : Replay ValueId) s := by
    show Replay.plan (s.registers.read view) s = _
    rw [RegisterFile.read]
    cases s.registers.owner view.owner <;> rfl
  refine follows_look (Follows.congr ?_ rfl hread)
  refine (follows_check hs (d := settled _) rfl).bind fun owner s₁ hs₁ _ howner => ?_
  obtain ⟨rfl, howner⟩ := howner
  exact follows_value hs₁ (runs_extract hs₁.table (hs₁.registers_lt _ _ (Replay.owner_ok howner)) view)

theorem follows_writeRegister (hs : s.Proper) (view : RegisterView) {v : Nat} (hv : v < s.table.size) :
    Follows (writeRegister view v) (Replay.writeRegister view v) s fun _ _ => True := by
  have part (hwrite : Replay.writeRegister view v s = (do
        let owner ← Replay.check (s.registers.owner view.owner)
        let merged ← Replay.build (view.merge owner v)
        modify (·.set view.owner merged) : Replay Unit) s)
      (hcheck : (writeRegister view v).run s = (do
        let owner ← check (settled (s.registers.owner view.owner))
        let merged ← build (merge owner v view)
        modify (·.set view.owner merged) : Replayer Unit).run s) :
      Follows (writeRegister view v) (Replay.writeRegister view v) s fun _ _ => True := by
    refine Follows.congr ?_ hcheck hwrite
    refine (follows_check hs (d := settled _) rfl).bind fun owner s₁ hs₁ _ howner => ?_
    obtain ⟨rfl, howner⟩ := howner
    have hlt := hs₁.registers_lt _ _ (Replay.owner_ok howner)
    refine (follows_value hs₁ (runs_merge hs₁.table hlt hv view)).bind fun merged s₂ hs₂ _ hmerged => ?_
    exact follows_modify ⟨hs₂.toSound.set view.owner hmerged, hs₂.table⟩ (.refl _) trivial
  cases view with
  | full r => exact follows_modify ⟨hs.toSound.set r hv, hs.table⟩ (.refl _) trivial
  | low16 r | low8 r | high8 r =>
    refine part ?_ rfl
    show (Replay.plan (s.registers.write _ v) >>= fun registers =>
      modify fun s => { s with registers } : Replay Unit) s = _
    simp only [RegisterFile.write]
    cases s.registers.owner _ <;> rfl

theorem follows_readNamed (hs : s.Proper) (name : String) :
    Follows (readNamed name) (Replay.readNamed name) s fun s' v => Inside s'.table v := by
  refine (follows_check hs (d := settled _) rfl).bind fun view s₁ hs₁ _ _ => ?_
  exact follows_readRegister hs₁ view

/-! ## Memory -/

end Checked

namespace Session

variable {s : Session}

/-- The length of a cell is its true number of bytes. -/
theorem Sound.size_eq_count (h : s.Sound) {e : AddressRange × ValueId} (he : e ∈ s.memory.cells.entries) :
    e.1.size = e.1.last.toNat - e.1.first.toNat + 1 := by
  have hshort : e.1.last.toNat < e.1.first.toNat + 2 ^ 29 := h.cells_short e he
  exact Checked.size_eq_count (h.separated.first_le_last e he) (by omega)

theorem Sound.size_eq (h : s.Sound) {e : AddressRange × ValueId} (he : e ∈ s.memory.cells.entries) :
    Checked.size e.1 = some e.1.size := by
  have hshort : e.1.last.toNat < e.1.first.toNat + 2 ^ 29 := h.cells_short e he
  exact Checked.size_eq (h.separated.first_le_last e he) (by omega)

/-- The mask of an access inside a cell that is a word. -/
theorem Sound.byteMask_eq (h : s.Sound) {cell access : AddressRange} {v : ValueId}
    (he : (cell, v) ∈ s.memory.cells.entries) (hsize : cell.size ≤ 4) (hcontains : cell.contains access = true)
    (hle : access.first ≤ access.last) : Checked.byteMask cell access =
      some ((Memory.lane cell access).mask, BitVec.ofNat 32 (Memory.lane cell access).low) :=
  Checked.byteMask_eq ((h.cells_short _ he).small (h.separated.first_le_last _ he) hsize) hcontains hle

end Session

theorem Memory.touched_of_covering {m : Memory} {range first : AddressRange} {rest : List AddressRange}
    (h : m.classify range = .covering first rest) : ∃ v, (m.touched range).head? = some (first, v) := by
  unfold Memory.classify at h
  split at h
  · cases h
  · split at h
    · cases h
    · rename_i e _ htouched
      split at h
      · cases h
      · split at h
        · cases h
        · cases h
          exact ⟨e.2, by rw [htouched]; rfl⟩

namespace Checked

open Build (Inside)

variable {α β : Type} {s : Session}

/-! ## Places -/

theorem decision_bind {x : ExceptT Fault Option α} {f : α → ExceptT Fault Option β} {e : Except Fault α}
    {g : α → Except Fault β} (hx : x.run = some e) (hf : ∀ a, (f a).run = some (g a)) :
    (x >>= f).run = some (e >>= g) := by
  have hbind : (x >>= f).run = x.run.bind (ExceptT.bindCont f) := rfl
  rw [hbind, hx]
  cases e with
  | error fault => rfl
  | ok a => exact hf a

theorem decision_lift {o : Option α} {a : α} {f : α → ExceptT Fault Option β} (ho : o = some a) :
    (liftM o >>= f).run = (f a).run := by
  subst ho
  rfl

theorem checkWrite_eq (hs : s.Sound) (address : Word) (bytes : Nat) :
    (checkWrite s.memory address bytes).run = some (s.memory.checkWrite address bytes) := by
  refine decision_bind (access_eq address bytes) fun range => ?_
  have hd := s.memory.classify_describes range
  generalize s.memory.classify range = p at hd
  cases p with
  | within cell v =>
    simp only [decision_lift (hs.size_eq hd.1)]
    split <;> rfl
  | _ => rfl

theorem destination_eq (hs : s.Sound) (insn : Instruction) (o : Operand) :
    (destination s insn o).run = some (s.destination insn o) := by
  cases o with
  | memory m =>
    refine decision_bind (x := settled _) rfl fun address => ?_
    exact decision_bind (checkWrite_eq hs address m.byteCount) fun _ => rfl
  | immediate value | register name bits => rfl

theorem locate_eq (hs : s.Sound) (insn : Instruction) (a : Action) :
    (locate s insn a).run = some (s.locate insn a) := by
  cases a with
  | push source => exact decision_bind (checkWrite_eq hs _ _) fun _ => rfl
  | loadAddress target form =>
    cases form with
    | baseIndex base index scale => exact destination_eq hs insn target
    | _ => rfl
  | pop target | move target _ | unary _ target | binary _ target _ | shift _ target _ | mask _ target _
  | multiply target _ _ => exact destination_eq hs insn target
  | nothing | unsupported | exchange _ _ => rfl

/-! ## Memory -/

/-- A read as one computation for each way that the bytes can lie among the cells. -/
theorem readMemory_run (address : Word) (bytes : Nat) (s : Session) : Replay.readMemory address bytes s = (do
    let range ← Replay.check (Memory.access address bytes)
    match s.memory.classify range with
    | .exact stored => return stored
    | .fresh =>
      let input ← Replay.build (Build.symbol (bytes * 8))
      modify fun s' => { s' with memory := ⟨s.memory.cells.insert range input, s.memory.inputs.insert input range⟩ }
      return input
    | .within cell stored =>
      if cell.size > 4 then throw (.oversizedRange cell)
      else Replay.build (Memory.readLane stored (Memory.lane cell range) (bytes * 8))
    | .covering first _ => throw (.partialOverlap range first)
    | .straddling cell => throw (.partialOverlap range cell) : Replay ValueId) s := by
  show (Replay.plan (s.memory.read address bytes) >>= _) s = _
  rw [Memory.read]
  cases Memory.access address bytes with
  | error fault => rfl
  | ok range =>
    rw [bind_run (x := Replay.check (.ok range)) rfl]
    simp only [bind, Except.bind]
    cases s.memory.classify range with
    | within cell stored =>
      simp only [Memory.lane?]
      by_cases hsize : cell.size > 4
      · simp only [if_pos hsize]
        rfl
      · simp only [if_neg hsize]
        rfl
    | _ => rfl

theorem writeMemory_run (address : Word) (bytes : Nat) (value : ValueId) (s : Session) :
    Replay.writeMemory address bytes value s = (do
      let range ← Replay.check (Memory.access address bytes)
      match s.memory.classify range with
      | .exact _ => modify fun s' => { s' with memory := s.memory.store range value }
      | .fresh => modify fun s' => { s' with memory := s.memory.store range value }
      | .covering first rest => modify fun s' => { s' with
          memory := { s.memory with cells := ((first :: rest).foldl (·.erase ·) s.memory.cells).insert range value } }
      | .within cell stored =>
        if cell.size > 4 then throw (.oversizedRange cell)
        else
          let merged ← Replay.build (Memory.writeLane stored value (Memory.lane cell range))
          modify fun s' => { s' with memory := s.memory.store cell merged }
      | .straddling cell => throw (.partialOverlap range cell) : Replay Unit) s := by
  show (Replay.plan (s.memory.write address bytes value) >>= _) s = _
  rw [Memory.write]
  cases Memory.access address bytes with
  | error fault => rfl
  | ok range =>
    rw [bind_run (x := Replay.check (.ok range)) rfl]
    simp only [bind, Except.bind]
    cases s.memory.classify range with
    | within cell stored =>
      simp only [Memory.lane?]
      by_cases hsize : cell.size > 4
      · simp only [if_pos hsize]
        rfl
      · simp only [if_neg hsize]
        rfl
    | _ => rfl

/-- The session with an input for bytes that had none. -/
theorem proper_fresh (hs : s.Proper) {range : AddressRange} (hle : range.first ≤ range.last) (hshort : range.Short)
    (hd : ∀ e ∈ s.memory.cells.entries, e.1.intersects range = false) {input : Nat} (hlt : input < s.table.size) :
    { s with memory := ⟨s.memory.cells.insert range input, s.memory.inputs.insert input range⟩ }.Proper := by
  refine ⟨hs.toSound.store hle hshort hlt (Memory.replaces_insert_fresh hle hd rfl) fun e he => ?_, hs.table⟩
  rcases SortedMap.mem_insert.mp he with rfl | ⟨he, -⟩
  · exact hlt
  · exact hs.inputs_lt e he

theorem follows_readMemory (hs : s.Proper) (address : Word) {bytes : Nat} (hbytes : bytes < 2 ^ 29) :
    Follows (readMemory address bytes) (Replay.readMemory address bytes) s fun s' v => Inside s'.table v := by
  have hmul : mul 32 bytes 8 = some (bytes * 8) := mul_eq (by omega)
  refine follows_look (Follows.congr ?_ rfl (readMemory_run address bytes s))
  refine (follows_check hs (access_eq address bytes)).bind fun range s₁ _ _ hrange => ?_
  obtain ⟨rfl, hrange⟩ := hrange
  have haccess := Memory.access_eq_ok.mp hrange
  have hle := AddressRange.first_le_last_of_access haccess
  have hd := s₁.memory.classify_describes range
  cases hp : s₁.memory.classify range with
  | exact stored =>
    rw [hp] at hd
    exact follows_pure hs (hs.cells_lt _ hd)
  | fresh =>
    rw [hp] at hd
    refine follows_lift hmul ?_
    refine (follows_build hs (runs_symbol hs.table _)).bind fun input s₂ hs₂ g hinput => ?_
    obtain ⟨hlt, heq⟩ := hinput
    have hmemory : s₂.memory = s₁.memory := by rw [heq]
    have hfresh := proper_fresh hs₂ hle (AddressRange.short_of_access hbytes haccess) (by rwa [hmemory]) hlt
    rw [hmemory] at hfresh
    refine Follows.bind (P := fun s' _ => input < s'.table.size) (follows_modify hfresh (.refl _) hlt) ?_
    exact fun _ s₃ hs₃ _ hinput => follows_pure hs₃ hinput
  | within cell stored =>
    rw [hp] at hd
    refine follows_lift (hs.size_eq hd.1) ?_
    simp only
    split
    · exact follows_throw hs _
    · rename_i hsize
      refine follows_lift (hs.byteMask_eq hd.1 (Nat.le_of_not_lt hsize) hd.2.1 hle) (follows_lift hmul ?_)
      exact follows_value hs (runs_maskDown hs.table (hs.cells_lt _ hd.1) _ _)
  | covering first rest =>
    obtain ⟨v, hv⟩ := Memory.touched_of_covering hp
    exact follows_lift hv (follows_throw hs _)
  | straddling cell => exact follows_throw hs _

theorem follows_writeMemory (hs : s.Proper) (address : Word) {bytes : Nat} (hbytes : bytes < 2 ^ 29) {v : Nat}
    (hv : v < s.table.size) :
    Follows (writeMemory address bytes v) (Replay.writeMemory address bytes v) s fun _ _ => True := by
  refine follows_look (Follows.congr ?_ rfl (writeMemory_run address bytes v s))
  refine (follows_check hs (access_eq address bytes)).bind fun range s₁ _ _ hrange => ?_
  obtain ⟨rfl, hrange⟩ := hrange
  have haccess := Memory.access_eq_ok.mp hrange
  have hle := AddressRange.first_le_last_of_access haccess
  have hshort := AddressRange.short_of_access hbytes haccess
  have hd := s₁.memory.classify_describes range
  have whole {m : Memory} (hm : s₁.memory.Replaces range v m) (hin : m.inputs = s₁.memory.inputs) :
      Follows (modify fun s => { s with memory := m }) (modify fun s => { s with memory := m }) s₁ fun _ _ => True :=
    follows_modify ⟨hs.toSound.store hle hshort hv hm (by rw [hin]; exact hs.inputs_lt), hs.table⟩ (.refl _) trivial
  cases hp : s₁.memory.classify range with
  | exact stored =>
    rw [hp] at hd
    exact whole (hs.separated.replaces_store hd v) rfl
  | fresh =>
    rw [hp] at hd
    exact whole (Memory.replaces_insert_fresh hle hd rfl) rfl
  | covering first rest =>
    rw [hp] at hd
    exact whole (Memory.replaces_insert_covering hd rfl) rfl
  | within cell stored =>
    rw [hp] at hd
    refine follows_lift (hs.size_eq hd.1) ?_
    simp only
    split
    · exact follows_throw hs _
    · rename_i hsize
      refine follows_lift (hs.byteMask_eq hd.1 (Nat.le_of_not_lt hsize) hd.2.1 hle) ?_
      refine (follows_build hs (runs_mergeUp hs.table (hs.cells_lt _ hd.1) hv _)).bind
        fun merged s₂ hs₂ g hmerged => ?_
      obtain ⟨hlt, heq⟩ := hmerged
      have hmemory : s₂.memory = s₁.memory := by rw [heq]
      refine follows_modify ⟨hs₂.toSound.store (hs.separated.first_le_last _ hd.1) (hs.cells_short _ hd.1) hlt ?_ ?_,
        hs₂.table⟩ (.refl _) trivial
      · rw [hmemory]
        exact hs.separated.replaces_store hd.1 merged
      · exact fun e he => g.lt (hs.inputs_lt e he)
  | straddling cell => exact follows_throw hs _

/-! ## Instructions -/

theorem follows_read (hs : s.Proper) (insn : Instruction) (o : Operand) :
    Follows (read insn o) (Replay.read insn o) s fun s' v => Inside s'.table v := by
  cases o with
  | immediate value => exact follows_value hs (runs_constant hs.table value)
  | register name bits => exact follows_readNamed hs name
  | memory m =>
    refine (follows_check hs (d := settled _) rfl).bind fun address s₁ hs₁ _ _ => ?_
    exact follows_readMemory hs₁ address (Operand.memory m).byteCount_lt

theorem follows_write (hs : s.Proper) {place : Place} (hplace : place.Short) {v : Nat} (hv : v < s.table.size) :
    Follows (write v place) (Replay.write v place) s fun _ _ => True := by
  cases place with
  | register view => exact follows_writeRegister hs view hv
  | memory address bytes => exact follows_writeMemory hs address hplace hv

theorem follows_readSource (hs : s.Proper) (insn : Instruction) {source : Source}
    (hshort : ∀ address bytes, source = .slot address bytes → bytes < 2 ^ 29) :
    Follows (readSource insn source) (Replay.readSource insn source) s fun s' v => Inside s'.table v := by
  cases source with
  | operand o => exact follows_read hs insn o
  | slot address bytes => exact follows_readMemory hs address (hshort address bytes rfl)
  | register r => exact follows_readRegister hs _

theorem follows_readSources (hs : s.Proper) (insn : Instruction) {sources : List Source}
    (hshort : ∀ address bytes, .slot address bytes ∈ sources → bytes < 2 ^ 29) :
    Follows (sources.mapM (readSource insn)) (Replay.readSources insn sources) s
      fun s' vs => ∀ v ∈ vs, Inside s'.table v := by
  unfold Replay.readSources
  induction sources generalizing s with
  | nil => exact follows_pure hs nofun
  | cons source rest ih =>
    simp only [List.mapM_cons]
    have hfirst : Follows (readSource insn source) (Replay.readSource insn source) s fun s' v => Inside s'.table v :=
      follows_readSource hs insn fun address bytes hsource => hshort address bytes (by simp [hsource])
    refine hfirst.bind fun v s₁ hs₁ _ hv => ?_
    refine (ih hs₁ fun address bytes hin => hshort address bytes (by simp [hin])).bind fun vs s₂ hs₂ g₂ hvs => ?_
    refine follows_pure hs₂ fun w hw => ?_
    rcases List.mem_cons.mp hw with rfl | hw
    · exact g₂.lt hv
    · exact hvs w hw

theorem follows_shiftValue (hs : s.Proper) (opcode : Opcode) {v : Nat} (hv : v < s.table.size) (count : Word) :
    Follows (shiftValue opcode v count) (Replay.shiftValue opcode v count) s fun s' w => Inside s'.table w := by
  obtain ⟨value, hvalue⟩ := Table.get?_of_lt hv
  have hhybrid : s.table.isHybrid v = value.pieces?.isSome := by
    rw [Table.isHybrid, Table.pieces?, hvalue]
    rfl
  have hfetch : (build (fetch v)).run s = some (.ok value, s) := by
    show ((s.table.get? v).map (·, s.table)).map _ = _
    rw [hvalue]
    rfl
  have hrun : (shiftValue opcode v count).run s = (if value.pieces?.isSome then do
        match ← build (shiftHybrid v opcode count) with
        | .ok shifted => return shifted
        | .error fault => throw fault
      else build (withConstant opcode v count) : Replayer ValueId).run s := by
    rw [shiftValue, run_bind, hfetch]
    rfl
  refine Follows.congr (x := if s.table.isHybrid v then Replay.attempt (Build.shiftHybrid v opcode count)
    else Replay.build (Replay.withConstant opcode v count)) ?_ hrun rfl
  rw [hhybrid]
  split
  · refine (follows_build hs (runs_shiftHybrid hs.table hv opcode count)).bind fun r s₁ hs₁ _ hr => ?_
    cases r with
    | ok shifted => exact follows_pure hs₁ (hr.1 shifted rfl)
    | error fault => exact follows_throw hs₁ fault
  · exact follows_value hs (runs_withConstant hs.table opcode hv count)

theorem follows_combine (hs : s.Proper) (a : Action) {vs : List ValueId} (hvs : ∀ v ∈ vs, v < s.table.size) :
    Follows (combine a vs) (Replay.combine a vs) s fun s' v => Inside s'.table v := by
  unfold combine
  split
  · exact follows_value hs (runs_unary hs.table _ (hvs _ (by simp)))
  · exact follows_value hs (runs_binary hs.table _ (hvs _ (by simp)) (hvs _ (by simp)))
  · exact follows_shiftValue hs _ (hvs _ (by simp)) _
  · exact follows_value hs (runs_maskValue hs.table _ (hvs _ (by simp)) _)
  · exact follows_value hs (runs_withConstant hs.table _ (hvs _ (by simp)) _)
  · rename_i scale b i
    have hsum : (do
        let factor ← Build.constant scale
        let scaled ← Build.binary .imul i factor
        Build.binary .add b scaled) = (do Build.binary .add b (← Replay.withConstant .imul i scale)) := rfl
    rw [Replay.combine, hsum]
    refine follows_value hs ?_
    refine (runs_withConstant hs.table _ (hvs i (by simp)) scale).bind fun scaled t₁ ht₁ g₁ hscaled => ?_
    exact runs_binary ht₁ _ (g₁.lt (hvs b (by simp))) hscaled
  · rw [Replay.combine.eq_7 _ _ _ ‹_› ‹_› ‹_› ‹_› ‹_› ‹_›]
    exact follows_pure hs (hvs _ List.mem_cons_self)
  · rw [Replay.combine.eq_8]
    exact follows_throw hs _

def Ready (s : Session) (ws : List (Place × ValueId)) : Prop := ∀ w ∈ ws, w.1.Short ∧ w.2 < s.table.size

theorem follows_prepare (hs : s.Proper) (insn : Instruction) (a : Action) :
    Follows (prepare insn a) (Replay.prepare insn a) s Ready := by
  have resolve {s : Session} (hs : s.Proper) (o : Operand) :
      Follows (get >>= fun s => check (destination s insn o)) (Replay.resolve insn o) s fun _ place => place.Short := by
    have h := follows_check hs (destination_eq hs.toSound insn o)
    exact follows_get ⟨h.grows, h.proper, fun place s' hp => Session.short_of_destination (h.post place s' hp).2, h.run⟩
  cases a using Action.plan_cases with
  | nothing => exact follows_pure hs nofun
  | exchange x y =>
    refine (resolve hs x).bind fun p s₁ hs₁ _ hp => ?_
    refine (resolve hs₁ y).bind fun q s₂ hs₂ _ hq => ?_
    refine (follows_read hs₂ insn x).bind fun v s₃ hs₃ _ hv => ?_
    refine (follows_read hs₃ insn y).bind fun w s₄ hs₄ g₄ hw => follows_pure hs₄ ?_
    simp only [Ready, List.mem_cons, List.not_mem_nil, or_false, forall_eq_or_imp, forall_eq]
    exact ⟨⟨hp, hw⟩, hq, g₄.lt hv⟩
  | planned a hn hx =>
    rw [prepare.eq_3 insn a hn hx, Replay.prepare_eq insn hn hx]
    refine follows_get ((follows_check hs (locate_eq hs.toSound insn a)).bind fun place s₁ hs₁ _ hplace => ?_)
    refine (follows_readSources hs₁ insn fun _ _ => Action.slot_short).bind fun vs s₂ hs₂ _ hvs => ?_
    refine (follows_combine hs₂ a hvs).bind fun v s₃ hs₃ _ hv => follows_pure hs₃ ?_
    simp only [Ready, List.mem_singleton, forall_eq]
    exact ⟨Session.short_of_locate hplace.2, hv⟩

theorem follows_commit (hs : s.Proper) {ws : List (Place × ValueId)} (hws : Ready s ws) :
    Follows (commit ws) (Replay.commit ws) s fun _ _ => True := by
  induction ws generalizing s with
  | nil => exact follows_pure hs trivial
  | cons w ws ih =>
    obtain ⟨hshort, hv⟩ := hws w (by simp)
    refine (follows_write hs hshort hv).bind fun _ s₁ hs₁ g₁ _ => ih hs₁ fun w hw => ?_
    have h := hws w (by simp [hw])
    exact ⟨h.1, g₁.lt h.2⟩

theorem follows_perform (hs : s.Proper) (insn : Instruction) :
    Follows (prepare insn (.ofInstruction insn) >>= commit) (Replay.perform insn (.ofInstruction insn)) s
      fun s' _ => s'.executed = s.executed := by
  have h := (follows_prepare hs insn (.ofInstruction insn)).bind fun ws s₁ hs₁ _ hws => follows_commit hs₁ hws
  rw [Replay.perform_eq_commit]
  refine ⟨h.grows, h.proper, fun u s' hrun => ?_, h.run⟩
  obtain ⟨ws, s₁, hprepare, hcommit⟩ := Replay.bind_ok hrun
  have hgathers := Session.after_prepare_gathers hs.toTidy insn
  rw [Replay.after_ok hprepare] at hgathers
  have hwrites := Session.after_commit_writes (Replay.prepare_prepares hs.toSound hprepare).sound.toTidy ws
  rw [Replay.after_ok hcommit] at hwrites
  exact hwrites.executed.trans hgathers.executed

/-- Only the count of instructions could run out, and nothing else depends on it. -/
theorem follows_step (hs : s.Proper) (hcount : s.executed + 1 < 2 ^ 64) (insn : Instruction) :
    Follows (step insn) (Replay.step insn) s fun _ _ => True := by
  refine follows_get ?_
  split
  · exact follows_pure hs trivial
  · refine (follows_perform hs insn).bind fun _ s₁ hs₁ _ hexecuted => ?_
    rw [← hexecuted] at hcount
    have hmodify : Follows (modify fun s => { s with executed := s₁.executed + 1 })
        (modify fun s => { s with executed := s.executed + 1 }) s₁ fun _ _ => True :=
      (follows_modify (f := fun s => { s with executed := s₁.executed + 1 })
        ⟨hs₁.toSound.count _, hs₁.table⟩ (.refl _) trivial).congr rfl rfl
    exact (follows_lift (add_eq hcount) hmodify).congr rfl rfl

end Checked

/-! ## Histories -/

namespace Session

variable {s : Session}

theorem Proper.step (hs : s.Proper) (insn : Instruction) : ((Replay.step insn).after s).Proper := by
  refine ⟨hs.toSound.after_step insn, ?_⟩
  cases hskip : s.skip.contains insn.mnemonic with
  | true =>
    rw [Replay.after_ok (step_skipped hskip)]
    exact hs.table
  | false =>
    have hstep := step_performed hskip
    have hproper := (Checked.follows_perform hs insn).proper
    cases hperform : Replay.perform insn (.ofInstruction insn) s with
    | error fault s₁ =>
      rw [Replay.after_error hperform] at hproper
      rw [Replay.after_error (hstep.trans (bind_run_error hperform))]
      exact hproper.table
    | ok u s₁ =>
      rw [Replay.after_ok hperform] at hproper
      rw [Replay.after, hstep, bind_run hperform]
      exact hproper.table

theorem Proper.event (hs : s.Proper) (e : Event) : (e.after s).Proper := by
  cases e with
  | step insn => exact hs.step insn
  | look name => exact (Checked.follows_readNamed hs name).proper

theorem Proper.after (hs : s.Proper) (events : List Event) : (s.after events).Proper :=
  after_preserves (fun _ e hs => hs.event e) hs events

theorem proper_ofSnapshot (skip : SkipSet) (contents : Snapshot) : (ofSnapshot skip contents).table.Proper := by
  show (Register.all.foldl (fun s r => { s with
      registers := s.registers.set r ((Build.constant (contents.content r)).run s.table).1,
      table := ((Build.constant (contents.content r)).run s.table).2 }) (empty skip)).table.Proper
  have hempty : (empty skip).table.Proper := ⟨Table.wellFormed_empty, nofun⟩
  generalize empty skip = s at hempty
  generalize Register.all = registers
  induction registers generalizing s with
  | nil => exact hempty
  | cons r registers ih => exact ih _ (Checked.runs_constant hempty _).proper

theorem Start.proper (skip : SkipSet) (start : Start) : (start.session skip).Proper := by
  refine ⟨start.sound skip, ?_⟩
  refine start.of_seed (P := fun s => s.table.Proper) (proper_ofSnapshot skip) ⟨Table.wellFormed_empty, nofun⟩ ?_
  exact fun _ _ hs => (Checked.runs_symbol hs 32).proper

theorem Start.executed (skip : SkipSet) (start : Start) : (start.session skip).executed = 0 :=
  start.of_seed (P := fun s => s.executed = 0) (fun _ => rfl) rfl fun _ _ hs => hs

/-- No more instructions are counted than were given. -/
theorem executed_after_le (hs : s.Sound) (events : List Event) :
    (s.after events).executed ≤ s.executed + events.length := by
  induction events generalizing s with
  | nil => exact Nat.le_refl _
  | cons e events ih =>
    have hone : (e.after s).executed ≤ s.executed + 1 := by
      cases e with
      | look name =>
        obtain ⟨t, -, hafter⟩ := after_look s name
        show ((Replay.readNamed name).after s).executed ≤ _
        rw [hafter]
        exact Nat.le_succ _
      | step insn =>
        show ((Replay.step insn).after s).executed ≤ _
        cases hskip : s.skip.contains insn.mnemonic with
        | true =>
          rw [Replay.after_ok (step_skipped hskip)]
          exact Nat.le_succ _
        | false =>
          obtain ⟨s₁, s₂, hgathers, hwrites, hstep | ⟨fault, hstep, -⟩⟩ := step_effect hs hskip
          · rw [Replay.after_ok hstep]
            show s₂.executed + 1 ≤ _
            rw [hwrites.executed, hgathers.executed]
          · rw [Replay.after_error hstep, hwrites.executed, hgathers.executed]
            exact Nat.le_succ _
    have hrest := ih (hs.event e)
    show ((e.after s).after events).executed ≤ _
    rw [List.length_cons]
    omega

end Session

end TraceReplay
