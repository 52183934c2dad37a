/-
  TraceReplay.Proofs.Replay.Shape — what a replay does to memory and when it fails does not
  depend on what the registers hold.

  Two sessions have the same shape (`Session.SameShape`) if the same registers hold a value, the
  same ranges are stored and the same ranges were read as inputs, in the same order. Which values
  these are may differ: one session may hold a symbol where the other holds a known word or a
  hybrid one, and then they build different values on different paths. Every operation of a
  replay takes two such sessions in step (`Replay.Lockstep`): placements and faults are decided
  from the ranges and from which registers hold a value, and what is decided by values (splitting
  a word, shifting it piece by piece, folding a mask) neither fails nor touches memory.

  So two runs of a trace have the same outcome (`the_shape_of_a_run_ignores_register_contents`).
  A session in step with itself stays sound, so this also shows that replays keep sessions sound
  (`Session.Sound.after_step`).
-/

import TraceReplay.Proofs.Replay.Atomicity
import TraceReplay.Proofs.Replay.Dataflow
import TraceReplay.Proofs.Replay.Soundness

namespace TraceReplay

/-! ## Memory looks at ranges only -/

inductive Placement.Alike : Placement → Placement → Prop
  | exact (v v' : ValueId) : Alike (.exact v) (.exact v')
  | fresh : Alike .fresh .fresh
  | within (cell : AddressRange) (v v' : ValueId) : Alike (.within cell v) (.within cell v')
  | covering (first : AddressRange) (rest : List AddressRange) : Alike (.covering first rest) (.covering first rest)
  | straddling (cell : AddressRange) : Alike (.straddling cell) (.straddling cell)

namespace Memory

variable {m m' : Memory}

/-- A search by range finds cells of the same range in both lists, or none in either. -/
theorem find?_alike {l l' : List (AddressRange × ValueId)} (h : l.map (·.1) = l'.map (·.1)) (p : AddressRange → Bool) :
    (∃ r v v', (l.find? fun e => p e.1) = some (r, v) ∧ (l'.find? fun e => p e.1) = some (r, v')) ∨
      (l.find? fun e => p e.1) = none ∧ (l'.find? fun e => p e.1) = none := by
  have found (l : List (AddressRange × ValueId)) : (l.find? fun e => p e.1).map (·.1) = (l.map (·.1)).find? p := by
    rw [List.find?_map]
    rfl
  have hsame : (l.find? fun e => p e.1).map (·.1) = (l'.find? fun e => p e.1).map (·.1) := by rw [found, found, h]
  cases hl : l.find? fun e => p e.1 with
  | none =>
    rw [hl] at hsame
    exact .inr ⟨rfl, Option.map_eq_none_iff.mp hsame.symm⟩
  | some e =>
    obtain ⟨r, v⟩ := e
    rw [hl] at hsame
    obtain ⟨⟨r', v'⟩, he', rfl⟩ := Option.map_eq_some_iff.mp hsame.symm
    exact .inl ⟨r', v, v', rfl, he'⟩

theorem touched_congr (h : m.cells.keys = m'.cells.keys) (access : AddressRange) :
    (m.touched access).map (·.1) = (m'.touched access).map (·.1) := by
  have filtered (m : Memory) : (m.touched access).map (·.1) = m.cells.keys.filter (·.intersects access) := by
    rw [SortedMap.keys, List.filter_map]
    rfl
  rw [filtered, filtered, h]

theorem classify_alike (h : m.cells.keys = m'.cells.keys) (access : AddressRange) :
    (m.classify access).Alike (m'.classify access) := by
  have htouched := touched_congr h access
  unfold classify Memory.get? SortedMap.get?
  -- the three searches in their order: each looks at ranges only
  rcases find?_alike h fun r => compare access r == .eq with ⟨r, v, v', hf, hf'⟩ | ⟨hf, hf'⟩
  · rw [hf, hf']
    exact .exact v v'
  rw [hf, hf']
  simp only [Option.map_none]
  generalize m.touched access = l at htouched
  generalize m'.touched access = l' at htouched
  cases l with
  | nil =>
    obtain rfl : l' = [] := by simpa using htouched.symm
    exact .fresh
  | cons first rest =>
    obtain ⟨first', rest', rfl⟩ : ∃ first' rest', l' = first' :: rest' := by
      cases l' with
      | nil => cases htouched
      | cons first' rest' => exact ⟨first', rest', rfl⟩
    rcases find?_alike htouched fun r => r.contains access with ⟨cell, v, v', hw, hw'⟩ | ⟨hw, hw'⟩
    · simp only [hw, hw']
      exact .within cell v v'
    rcases find?_alike htouched fun r => !access.contains r with ⟨cell, v, v', ha, ha'⟩ | ⟨ha, ha'⟩
    · simp only [hw, hw', ha, ha']
      exact .straddling cell
    obtain ⟨hfirst, hrest⟩ := List.cons.inj htouched
    simp only [hw, hw', ha, ha']
    rw [show first.1 = first'.1 from hfirst, show rest.map (·.1) = rest'.map (·.1) from hrest]
    exact .covering _ _

theorem checkWrite_congr (h : m.cells.keys = m'.cells.keys) (address : Word) (bytes : Nat) :
    m.checkWrite address bytes = m'.checkWrite address bytes := by
  unfold checkWrite
  cases access address bytes with
  | error fault => rfl
  | ok range =>
    have halike := classify_alike h range
    simp only [bind, Except.bind]
    generalize m.classify range = p at halike
    generalize m'.classify range = p' at halike
    cases halike <;> rfl

end Memory

/-- Rules that give every operation a result: zero where it has none of its own. -/
def Rules.total : Rules where
  apply opcode args := some ((opcode.apply args).getD 0)
  extends_apply h := by rw [h]; rfl

/-! ## Places are short -/

def Place.Short : Place → Prop
  | .register _ => True
  | .memory _ bytes => bytes < 2 ^ 29

theorem Operand.byteCount_lt (o : Operand) : o.byteCount < 2 ^ 29 := by
  have := o.bits.isLt
  unfold Operand.byteCount
  omega

theorem Action.slot_short {insn : Instruction} {a : Action} {address : Word} {bytes : Nat}
    (h : .slot address bytes ∈ a.sources insn) : bytes < 2 ^ 29 := by
  cases a with
  | pop target =>
    simp only [Action.sources, List.mem_singleton, Source.slot.injEq] at h
    rw [h.2]
    exact target.byteCount_lt
  | loadAddress target form => cases form <;> simp [Action.sources] at h
  | _ => simp [Action.sources] at h

/-- Only shifts become shift actions. -/
theorem Action.exists_direction (insn : Instruction) (opcode : Opcode) (target : Operand) (count : Word)
    (h : Action.ofInstruction insn = .shift opcode target count) : ∃ d, Direction.ofOpcode? opcode = some d := by
  have hmodelled : (Action.ofInstruction insn).Modelled .total :=
    modelled_ofInstruction fun opcode n _ args _ => ⟨_, rfl⟩
  rw [h] at hmodelled
  exact hmodelled

theorem Session.short_of_destination {s : Session} {insn : Instruction} {o : Operand} {place : Place}
    (h : s.destination insn o = .ok place) : place.Short := by
  obtain ⟨-, -, view, -, -, -, rfl⟩ | ⟨m, address, -, -, -, rfl⟩ := destination_ok h
  · trivial
  · exact (Operand.memory m).byteCount_lt

theorem Session.short_of_locate {s : Session} {insn : Instruction} {a : Action} {place : Place}
    (h : s.locate insn a = .ok place) : place.Short := by
  cases a with
  | push source =>
    simp only [Session.locate, bind, Except.bind, pure, Except.pure] at h
    split at h
    · cases h
    · cases h
      exact source.byteCount_lt
  | loadAddress target form =>
    cases form with
    | baseIndex base index scale => exact short_of_destination h
    | _ => cases h
  | pop target | move target _ | unary _ target | binary _ target _ | shift _ target _ | mask _ target _
  | multiply target _ _ => exact short_of_destination h
  | nothing | unsupported | exchange _ _ => cases h

/-! ## Two sessions of one shape -/

namespace Session

/-- The sessions are sound, and differ only in what their registers, cells and inputs are and, by
    a fixed number, in their counts. -/
structure SameShape (lead : Int) (s t : Session) : Prop where
  left : s.Sound
  right : t.Sound
  skip : s.skip = t.skip
  held : ∀ r, (s.registers.get? r).isSome = (t.registers.get? r).isSome
  cells : s.memory.cells.keys = t.memory.cells.keys
  inputs : s.memory.inputs.values = t.memory.inputs.values
  executed : (s.executed : Int) = t.executed + lead

structure Continues (lead : Int) (s t s' t' : Session) : Prop where
  shape : SameShape lead s' t'
  left : s.table.Grows s'.table
  right : t.table.Grows t'.table

variable {lead : Int} {s t s' t' s'' t'' : Session}

theorem Continues.refl (h : SameShape lead s t) : Continues lead s t s t := ⟨h, .refl _, .refl _⟩

theorem Continues.trans (h : Continues lead s t s' t') (h' : Continues lead s' t' s'' t'') :
    Continues lead s t s'' t'' :=
  ⟨h'.shape, h.left.trans h'.left, h.right.trans h'.right⟩

theorem SameShape.owner (h : SameShape lead s t) (r : Register) :
    (∃ v w, s.registers.owner r = .ok v ∧ t.registers.owner r = .ok w ∧ v < s.table.size ∧ w < t.table.size) ∨
      (s.registers.owner r = .error (.unseededRegister r) ∧ t.registers.owner r = .error (.unseededRegister r)) := by
  have hheld := h.held r
  unfold RegisterFile.owner
  cases hs : s.registers.get? r with
  | none =>
    cases ht : t.registers.get? r with
    | none => exact .inr ⟨rfl, rfl⟩
    | some w => rw [hs, ht] at hheld; cases hheld
  | some v =>
    cases ht : t.registers.get? r with
    | none => rw [hs, ht] at hheld; cases hheld
    | some w => exact .inl ⟨v, w, rfl, rfl, h.left.registers_lt r v hs, h.right.registers_lt r w ht⟩

/-- Whether a register can be written depends on which registers hold a value. -/
theorem SameShape.checkWrite (h : SameShape lead s t) (view : RegisterView) :
    s.registers.checkWrite view = t.registers.checkWrite view := by
  cases view with
  | full r => rfl
  | low16 r | low8 r | high8 r =>
    simp only [RegisterFile.checkWrite]
    rcases h.owner (RegisterView.owner _) with ⟨v, w, hv, hw, -⟩ | ⟨hs, ht⟩
    · rw [hv, hw]; rfl
    · rw [hs, ht]

theorem SameShape.destination (h : SameShape lead s t) (insn : Instruction) (o : Operand) :
    s.destination insn o = t.destination insn o := by
  cases o with
  | immediate value => rfl
  | register name bits => simp only [Session.destination, h.checkWrite]
  | memory m => simp only [Session.destination, Memory.checkWrite_congr h.cells]

theorem SameShape.locate (h : SameShape lead s t) (insn : Instruction) (a : Action) :
    s.locate insn a = t.locate insn a := by
  cases a with
  | push source => simp only [Session.locate, Memory.checkWrite_congr h.cells]
  | loadAddress target form => cases form <;> simp only [Session.locate, h.destination]
  | _ => simp only [Session.locate, h.destination]

def Both (s t : Session) (v w : ValueId) : Prop := Build.Inside s.table v ∧ Build.Inside t.table w

theorem Both.mono {v w : ValueId} (h : Both s t v w) (hc : Continues lead s t s' t') : Both s' t' v w :=
  ⟨hc.left.lt h.1, hc.right.lt h.2⟩

theorem SameShape.set (h : SameShape lead s t) (r : Register) {v w : ValueId} (hvw : Both s t v w) :
    SameShape lead (s.set r v) (t.set r w) := by
  refine ⟨h.left.set r hvw.1, h.right.set r hvw.2, h.skip, fun r' => ?_, h.cells, h.inputs, h.executed⟩
  simp only [Session.set, get?_set]
  split
  · rfl
  · exact h.held r'

/-- Both sessions put a value into the same cell. -/
theorem SameShape.store (h : SameShape lead s t) {range : AddressRange} {v w : ValueId} {m m' : Memory}
    (hle : range.first ≤ range.last) (hshort : range.Short) (hvw : Both s t v w)
    (hm : s.memory.Replaces range v m) (hm' : t.memory.Replaces range w m') (hkeys : m.cells.keys = m'.cells.keys)
    (hin : m.inputs = s.memory.inputs) (hin' : m'.inputs = t.memory.inputs) :
    SameShape lead { s with memory := m } { t with memory := m' } := by
  refine ⟨h.left.store hle hshort hvw.1 hm ?_, h.right.store hle hshort hvw.2 hm' ?_, h.skip, h.held, hkeys, ?_,
    h.executed⟩
  · rw [hin]; exact h.left.inputs_lt
  · rw [hin']; exact h.right.inputs_lt
  · simp only [hin, hin', h.inputs]

/-- Bytes of a cell that can be read or written alone lie in its word. -/
theorem Sound.lane_inWord (h : s.Sound) {cell access : AddressRange} {v : ValueId} {lane : BitRange}
    (hin : (cell, v) ∈ s.memory.cells.entries) (hcontains : cell.contains access = true)
    (hle : access.first ≤ access.last) (hl : Memory.lane? cell access = .ok lane) : lane.InWord := by
  obtain ⟨hsize, rfl⟩ := Memory.lane?_eq_ok hl
  exact AddressRange.lane_inWord ((h.cells_short _ hin).small (h.separated.first_le_last _ hin) hsize) hcontains hle

theorem Sound.compare_inputs (h : s.Sound) : ∀ e ∈ s.memory.inputs.entries, compare s.table.size e.1 = .gt :=
  fun e he => Nat.compare_eq_gt.mpr (h.inputs_lt e he)

/-- A read of bytes without a cell makes one, and lists it last among the inputs. -/
theorem SameShape.fresh (h : SameShape lead s t) {range : AddressRange} (hle : range.first ≤ range.last)
    (hshort : range.Short) (hs : ∀ e ∈ s.memory.cells.entries, e.1.intersects range = false)
    (ht : ∀ e ∈ t.memory.cells.entries, e.1.intersects range = false) (width : Nat) :
    Continues lead s t
      { s with table := (Build.symbol width s.table).2,
               memory := ⟨s.memory.cells.insert range s.table.size, s.memory.inputs.insert s.table.size range⟩ }
      { t with table := (Build.symbol width t.table).2,
               memory := ⟨t.memory.cells.insert range t.table.size, t.memory.inputs.insert t.table.size range⟩ } := by
  have sound {s : Session} (h : s.Sound) (hs : ∀ e ∈ s.memory.cells.entries, e.1.intersects range = false) :
      { s with table := (Build.symbol width s.table).2,
               memory := ⟨s.memory.cells.insert range s.table.size, s.memory.inputs.insert s.table.size range⟩ }.Sound := by
    have hsymbol := Build.maintains_symbol h.wellFormed width
    refine (h.build hsymbol).store hle hshort hsymbol.post.lt (Memory.replaces_insert_fresh hle hs rfl) fun e he => ?_
    rcases SortedMap.mem_insert.mp he with rfl | ⟨he, -⟩
    · exact hsymbol.post.lt
    · exact hsymbol.grows.lt (h.inputs_lt e he)
  refine ⟨⟨sound h.left hs, sound h.right ht, h.skip, h.held, SortedMap.keys_insert_congr h.cells _ _ _, ?_, h.executed⟩,
    Table.grows_push _ _, Table.grows_push _ _⟩
  show (s.memory.inputs.insert s.table.size range).values = (t.memory.inputs.insert t.table.size range).values
  rw [SortedMap.values_insert_last h.left.compare_inputs, h.inputs,
    SortedMap.values_insert_last h.right.compare_inputs]

end Session

/-! ## Computations in step -/

namespace Replay

open Session (SameShape Continues Both)
open Build (Inside)

variable {α β γ δ : Type}

/-- Both computations succeed, or both stop with the same fault; whichever it is, two sessions of
    one shape become two of one shape. -/
inductive Lockstep (lead : Int) (s t : Session) (x : Replay α) (y : Replay β)
    (post : Session → Session → α → β → Prop) : Prop
  | ok {a : α} {b : β} {s' t' : Session} : x s = .ok a s' → y t = .ok b t' → Continues lead s t s' t' →
      post s' t' a b → Lockstep lead s t x y post
  | error {fault : Fault} {s' t' : Session} : x s = .error fault s' → y t = .error fault t' →
      Continues lead s t s' t' → Lockstep lead s t x y post

variable {lead : Int} {s t s' t' : Session}

theorem attempt_run {b : ExceptT Fault Build α} {a : α} (h : (b.run s.table).1 = .ok a) :
    attempt b s = .ok a { s with table := (b.run s.table).2 } := by
  unfold attempt
  rw [bind_run (build_run b.run s), h]
  rfl

theorem Lockstep.bind {x : Replay α} {y : Replay β} {f : α → Replay γ} {g : β → Replay δ}
    {P : Session → Session → α → β → Prop} {Q : Session → Session → γ → δ → Prop} (hx : Lockstep lead s t x y P)
    (hf : ∀ a b s' t', Continues lead s t s' t' → P s' t' a b → Lockstep lead s' t' (f a) (g b) Q) :
    Lockstep lead s t (x >>= f) (y >>= g) Q := by
  cases hx with
  | error hs ht hc => exact .error (bind_run_error hs) (bind_run_error ht) hc
  | ok hs ht hc hp =>
    cases hf _ _ _ _ hc hp with
    | ok hs' ht' hc' hq => exact .ok ((bind_run hs).trans hs') ((bind_run ht).trans ht') (hc.trans hc') hq
    | error hs' ht' hc' => exact .error ((bind_run hs).trans hs') ((bind_run ht).trans ht') (hc.trans hc')

theorem lockstep_pure (h : SameShape lead s t) {a : α} {b : β} {post : Session → Session → α → β → Prop}
    (hp : post s t a b) : Lockstep lead s t (pure a) (pure b) post := .ok rfl rfl (.refl h) hp

theorem lockstep_throw (h : SameShape lead s t) (fault : Fault) {post : Session → Session → α → β → Prop} :
    Lockstep lead s t (throw fault) (throw fault) post := .error rfl rfl (.refl h)

/-- A fault ends both computations. -/
theorem lockstep_fault (h : SameShape lead s t) (fault : Fault) {f : γ → Replay α} {g : δ → Replay β}
    {post : Session → Session → α → β → Prop} :
    Lockstep lead s t (plan (.error fault) >>= f) (plan (.error fault) >>= g) post := .error rfl rfl (.refl h)

theorem lockstep_get {f : Session → Replay α} {g : Session → Replay β} {post : Session → Session → α → β → Prop}
    (h : Lockstep lead s t (f s) (g t) post) : Lockstep lead s t (get >>= f) (get >>= g) post := by
  cases h with
  | ok hs ht hc hp => exact .ok hs ht hc hp
  | error hs ht hc => exact .error hs ht hc

/-- What is decided from the shape alone is decided alike. -/
theorem lockstep_check (h : SameShape lead s t) {outcome outcome' : Except Fault α} (ho : outcome = outcome') :
    Lockstep lead s t (check outcome) (check outcome') fun _ _ a b => a = b ∧ outcome = .ok a := by
  subst ho
  cases outcome with
  | error fault => exact lockstep_throw h fault
  | ok a => exact lockstep_pure h ⟨rfl, rfl⟩

theorem continues_build (h : SameShape lead s t) {b c : Build ValueId} (hb : b.Maintains s.table Inside)
    (hc : c.Maintains t.table Inside) :
    Continues lead s t { s with table := (b s.table).2 } { t with table := (c t.table).2 } :=
  ⟨⟨h.left.build hb, h.right.build hc, h.skip, h.held, h.cells, h.inputs, h.executed⟩, hb.grows, hc.grows⟩

theorem lockstep_build (h : SameShape lead s t) {b c : Build ValueId} (hb : b.Maintains s.table Inside)
    (hc : c.Maintains t.table Inside) : Lockstep lead s t (build b) (build c) Both :=
  .ok rfl rfl (continues_build h hb hc) ⟨hb.post, hc.post⟩

/-! ### Registers -/

theorem lockstep_readRegister (h : SameShape lead s t) (view : RegisterView) :
    Lockstep lead s t (readRegister view) (readRegister view) Both := by
  refine lockstep_get ?_
  simp only [RegisterFile.read]
  rcases h.owner view.owner with ⟨v, w, hv, hw, hvlt, hwlt⟩ | ⟨hs, ht⟩
  · rw [hv, hw]
    exact lockstep_build h (view.maintains_extract h.left.wellFormed hvlt)
      (view.maintains_extract h.right.wellFormed hwlt)
  · rw [hs, ht]
    exact lockstep_throw h _

theorem writeRegister_run {view : RegisterView} {owner : ValueId} (v : ValueId)
    (ho : s.registers.owner view.owner = .ok owner) : writeRegister view v s =
      (build (view.merge owner v) >>= fun id => modify (·.set view.owner id)) s := by
  cases view with
  | full r => rfl
  | low16 r | low8 r | high8 r =>
    show (plan (s.registers.write _ v) >>= fun registers => modify fun s => { s with registers } : Replay Unit) s = _
    simp only [RegisterFile.write, ho, Except.map]
    rfl

theorem lockstep_writeRegister (h : SameShape lead s t) (view : RegisterView) {v w : ValueId}
    (hvw : Both s t v w) :
    Lockstep lead s t (writeRegister view v) (writeRegister view w) fun _ _ _ _ => True := by
  rcases h.owner view.owner with ⟨a, b, ha, hb, halt, hblt⟩ | ⟨hs, ht⟩
  · have hmerge := lockstep_build h (view.maintains_merge h.left.wellFormed halt hvw.1)
      (view.maintains_merge h.right.wellFormed hblt hvw.2)
    have hset := hmerge.bind (f := fun id => modify (·.set view.owner id)) (g := fun id => modify (·.set view.owner id))
      (Q := fun _ _ _ _ => True) fun a b s' t' hc hab =>
        .ok rfl rfl ⟨hc.shape.set view.owner hab, .refl _, .refl _⟩ trivial
    cases hset with
    | ok hs ht hc hp => exact .ok ((writeRegister_run v ha).trans hs) ((writeRegister_run w hb).trans ht) hc hp
    | error hs ht hc => exact .error ((writeRegister_run v ha).trans hs) ((writeRegister_run w hb).trans ht) hc
  · cases view with
    | full r => exact .ok rfl rfl ⟨h.set r hvw, .refl _, .refl _⟩ trivial
    | low16 r | low8 r | high8 r =>
      refine lockstep_get ?_
      simp only [RegisterFile.write, hs, ht, Except.map]
      exact lockstep_fault h _

/-! ### Memory -/

inductive ReadsAlike (s t : Session) : Session → Session → ValueId → ValueId → Prop
  | exact {range : AddressRange} {v w : ValueId} : (range, v) ∈ s.memory.cells.entries →
      (range, w) ∈ t.memory.cells.entries → ReadsAlike s t s t v w
  | fresh {range : AddressRange} {m m' : Memory} (width : Nat) : s.memory.Replaces range s.table.size m →
      t.memory.Replaces range t.table.size m' → m.inputs = s.memory.inputs.insert s.table.size range →
      m'.inputs = t.memory.inputs.insert t.table.size range → ReadsAlike s t
        { s with table := (Build.symbol width s.table).2, memory := m }
        { t with table := (Build.symbol width t.table).2, memory := m' } s.table.size t.table.size
  | within {cell : AddressRange} {a b : ValueId} {lane : BitRange} (width : Nat) : (cell, a) ∈ s.memory.cells.entries →
      (cell, b) ∈ t.memory.cells.entries → lane.InWord → ReadsAlike s t
      { s with table := (Memory.readLane a lane width s.table).2 }
      { t with table := (Memory.readLane b lane width t.table).2 }
      (Memory.readLane a lane width s.table).1 (Memory.readLane b lane width t.table).1

inductive WritesAlike (s t : Session) (v w : ValueId) : Session → Session → Prop
  | whole {range : AddressRange} {m m' : Memory} : s.memory.Replaces range v m → t.memory.Replaces range w m' →
      WritesAlike s t v w { s with memory := m } { t with memory := m' }
  | within {cell : AddressRange} {a b : ValueId} {lane : BitRange} {m m' : Memory} :
      (cell, a) ∈ s.memory.cells.entries → (cell, b) ∈ t.memory.cells.entries → lane.InWord →
      s.memory.Replaces cell (Memory.writeLane a v lane s.table).1 m →
      t.memory.Replaces cell (Memory.writeLane b w lane t.table).1 m' → WritesAlike s t v w
        { s with table := (Memory.writeLane a v lane s.table).2, memory := m }
        { t with table := (Memory.writeLane b w lane t.table).2, memory := m' }

theorem Lockstep.mono {x : Replay α} {y : Replay β} {P Q : Session → Session → α → β → Prop}
    (h : Lockstep lead s t x y P) (hpq : ∀ s' t' a b, P s' t' a b → Q s' t' a b) : Lockstep lead s t x y Q := by
  cases h with
  | ok hs ht hc hp => exact .ok hs ht hc (hpq _ _ _ _ hp)
  | error hs ht hc => exact .error hs ht hc

theorem readsAlike_readMemory (h : SameShape lead s t) (address : Word) {bytes : Nat} (hbytes : bytes < 2 ^ 29) :
    Lockstep lead s t (readMemory address bytes) (readMemory address bytes) fun s' t' v w =>
      Both s' t' v w ∧ ReadsAlike s t s' t' v w := by
  refine lockstep_get ?_
  cases ha : Memory.access address bytes with
  | error fault =>
    simp only [Memory.read, ha]
    exact lockstep_fault h fault
  | ok range =>
    have hrange := Memory.access_eq_ok.mp ha
    have halike := Memory.classify_alike h.cells range
    have hds := s.memory.classify_describes range
    have hdt := t.memory.classify_describes range
    simp only [Memory.read, ha, bind, Except.bind]
    generalize s.memory.classify range = p at halike hds
    generalize t.memory.classify range = p' at halike hdt
    cases halike with
    | exact v w => exact .ok rfl rfl (.refl h) ⟨⟨h.left.cells_lt _ hds, h.right.cells_lt _ hdt⟩, .exact hds hdt⟩
    | fresh =>
      have hle := AddressRange.first_le_last_of_access hrange
      exact .ok rfl rfl (h.fresh hle (AddressRange.short_of_access hbytes hrange) hds hdt (bytes * 8))
        ⟨⟨Table.lt_size_push _ _, Table.lt_size_push _ _⟩, .fresh _ (Memory.replaces_insert_fresh hle hds rfl)
          (Memory.replaces_insert_fresh hle hdt rfl) rfl rfl⟩
    | within cell v w =>
      cases hl : Memory.lane? cell range with
      | error fault =>
        simp only [hl]
        exact lockstep_fault h fault
      | ok lane =>
        simp only [hl]
        have hv := Memory.maintains_readLane h.left.wellFormed (h.left.cells_lt _ hds.1) lane (bytes * 8)
        have hw := Memory.maintains_readLane h.right.wellFormed (h.right.cells_lt _ hdt.1) lane (bytes * 8)
        have hlane := h.left.lane_inWord hds.1 hds.2.1 (AddressRange.first_le_last_of_access hrange) hl
        exact .ok rfl rfl (continues_build h hv hw) ⟨⟨hv.post, hw.post⟩, .within _ hds.1 hdt.1 hlane⟩
    | covering first rest => exact lockstep_fault h _
    | straddling cell => exact lockstep_fault h _

theorem lockstep_readMemory (h : SameShape lead s t) (address : Word) {bytes : Nat} (hbytes : bytes < 2 ^ 29) :
    Lockstep lead s t (readMemory address bytes) (readMemory address bytes) Both :=
  (readsAlike_readMemory h address hbytes).mono fun _ _ _ _ hp => hp.1

theorem lockstep_writeMemory (h : SameShape lead s t) (address : Word) {bytes : Nat} (hbytes : bytes < 2 ^ 29)
    {v w : ValueId} (hvw : Both s t v w) :
    Lockstep lead s t (writeMemory address bytes v) (writeMemory address bytes w) fun s' t' _ _ =>
      WritesAlike s t v w s' t' := by
  refine lockstep_get ?_
  cases ha : Memory.access address bytes with
  | error fault =>
    simp only [Memory.write, ha]
    exact lockstep_fault h fault
  | ok range =>
    have hrange := Memory.access_eq_ok.mp ha
    have hle := AddressRange.first_le_last_of_access hrange
    have hshort := AddressRange.short_of_access hbytes hrange
    have halike := Memory.classify_alike h.cells range
    have hds := s.memory.classify_describes range
    have hdt := t.memory.classify_describes range
    -- what the three placements that take the value itself have in common
    have stored {m m' : Memory} (hm : s.memory.Replaces range v m) (hm' : t.memory.Replaces range w m')
        (hkeys : m.cells.keys = m'.cells.keys) (hin : m.inputs = s.memory.inputs) (hin' : m'.inputs = t.memory.inputs) :
        Continues lead s t { s with memory := m } { t with memory := m' } :=
      ⟨h.store hle hshort hvw hm hm' hkeys hin hin', .refl _, .refl _⟩
    simp only [Memory.write, ha, bind, Except.bind]
    generalize s.memory.classify range = p at halike hds
    generalize t.memory.classify range = p' at halike hdt
    cases halike with
    | exact a b =>
      have hv := h.left.separated.replaces_store hds v
      have hw := h.right.separated.replaces_store hdt w
      exact .ok rfl rfl (stored hv hw (SortedMap.keys_insert_congr h.cells _ _ _) rfl rfl) (.whole hv hw)
    | fresh =>
      have hv : s.memory.Replaces range v { s.memory with cells := s.memory.cells.insert range v } :=
        Memory.replaces_insert_fresh hle hds rfl
      have hw : t.memory.Replaces range w { t.memory with cells := t.memory.cells.insert range w } :=
        Memory.replaces_insert_fresh hle hdt rfl
      exact .ok rfl rfl (stored hv hw (SortedMap.keys_insert_congr h.cells _ _ _) rfl rfl) (.whole hv hw)
    | covering first rest =>
      have hv : s.memory.Replaces range v
          { s.memory with cells := ((first :: rest).foldl (·.erase ·) s.memory.cells).insert range v } :=
        Memory.replaces_insert_covering hds rfl
      have hw : t.memory.Replaces range w
          { t.memory with cells := ((first :: rest).foldl (·.erase ·) t.memory.cells).insert range w } :=
        Memory.replaces_insert_covering hdt rfl
      have hkeys := SortedMap.keys_foldl_erase_congr (first :: rest) h.cells
      exact .ok rfl rfl (stored hv hw (SortedMap.keys_insert_congr hkeys _ _ _) rfl rfl) (.whole hv hw)
    | within cell a b =>
      cases hl : Memory.lane? cell range with
      | error fault =>
        simp only [hl]
        exact lockstep_fault h fault
      | ok lane =>
        simp only [hl]
        have hv := Memory.maintains_writeLane h.left.wellFormed (h.left.cells_lt _ hds.1) hvw.1 lane
        have hw := Memory.maintains_writeLane h.right.wellFormed (h.right.cells_lt _ hdt.1) hvw.2 lane
        have hc := continues_build h hv hw
        have hlane := h.left.lane_inWord hds.1 hds.2.1 hle hl
        have hm := h.left.separated.replaces_store hds.1 (Memory.writeLane a v lane s.table).1
        have hm' := h.right.separated.replaces_store hdt.1 (Memory.writeLane b w lane t.table).1
        exact .ok rfl rfl ⟨hc.shape.store (h.left.separated.first_le_last _ hds.1) (h.left.cells_short _ hds.1)
          ⟨hv.post, hw.post⟩ hm hm' (SortedMap.keys_insert_congr h.cells _ _ _) rfl rfl, hc.left, hc.right⟩
          (.within hds.1 hdt.1 hlane hm hm')
    | straddling cell => exact lockstep_fault h _

/-! ### Instructions -/

theorem lockstep_read (h : SameShape lead s t) (insn : Instruction) (o : Operand) :
    Lockstep lead s t (read insn o) (read insn o) Both := by
  cases o with
  | immediate value =>
    exact lockstep_build h (Build.maintains_constant h.left.wellFormed _) (Build.maintains_constant h.right.wellFormed _)
  | register name bits =>
    refine (lockstep_check h rfl).bind fun view view' s' t' hc hview => ?_
    obtain ⟨rfl, -⟩ := hview
    exact lockstep_readRegister hc.shape view
  | memory m =>
    refine (lockstep_check h rfl).bind fun address address' s' t' hc haddress => ?_
    obtain ⟨rfl, -⟩ := haddress
    exact lockstep_readMemory hc.shape address (Operand.memory m).byteCount_lt

theorem lockstep_readSource (h : SameShape lead s t) (insn : Instruction) {source : Source}
    (hshort : ∀ address bytes, source = .slot address bytes → bytes < 2 ^ 29) :
    Lockstep lead s t (readSource insn source) (readSource insn source) Both := by
  cases source with
  | operand o => exact lockstep_read h insn o
  | slot address bytes => exact lockstep_readMemory h address (hshort address bytes rfl)
  | register r => exact lockstep_readRegister h _

theorem lockstep_readSources (h : SameShape lead s t) (insn : Instruction) {sources : List Source}
    (hshort : ∀ address bytes, .slot address bytes ∈ sources → bytes < 2 ^ 29) :
    Lockstep lead s t (readSources insn sources) (readSources insn sources) fun s' t' vs ws =>
      List.Forall₂ (Both s' t') vs ws := by
  unfold readSources
  induction sources generalizing s t with
  | nil => exact lockstep_pure h .nil
  | cons source rest ih =>
    simp only [List.mapM_cons]
    have hfirst : Lockstep lead s t (readSource insn source) (readSource insn source) Both :=
      lockstep_readSource h insn fun address bytes hsource => hshort address bytes (by simp [hsource])
    refine hfirst.bind fun v w s' t' hc hvw => ?_
    refine (ih hc.shape fun address bytes hin => hshort address bytes (by simp [hin])).bind
      fun vs ws s'' t'' hc' hvws => ?_
    exact lockstep_pure hc'.shape (.cons (hvw.mono hc') hvws)

theorem lockstep_shiftValue (h : SameShape lead s t) {opcode : Opcode} {d : Direction}
    (hd : Direction.ofOpcode? opcode = some d) (count : Word) {v w : ValueId} (hvw : Both s t v w) :
    Lockstep lead s t (shiftValue opcode v count) (shiftValue opcode w count) Both := by
  -- whichever way a side goes, it succeeds and touches nothing but its table
  have shifted {s : Session} (h : s.Sound) {v : ValueId} (hv : Inside s.table v) :
      ∃ b : Build ValueId, b.Maintains s.table Inside ∧ shiftValue opcode v count s = build b s := by
    cases hp : s.table.pieces? v with
    | none =>
      refine ⟨_, maintains_withConstant h.wellFormed opcode hv count, ?_⟩
      show (if s.table.isHybrid v then _ else _ : Replay ValueId) s = _
      rw [if_neg (by rw [Table.isHybrid, hp]; exact Bool.false_ne_true)]
    | some pieces =>
      have hshift := Build.maintains_shiftHybrid h.wellFormed hp hd count
      obtain ⟨id, hid, hnew⟩ := hshift.post
      refine ⟨fun t => (id, ((Build.shiftHybrid v opcode count).run t).2), ⟨hshift.grows, hshift.wellFormed, hnew.lt⟩, ?_⟩
      show (if s.table.isHybrid v then attempt (Build.shiftHybrid v opcode count) else _ : Replay ValueId) s = _
      rw [if_pos (by rw [Table.isHybrid, hp]; rfl), attempt_run hid]
      rfl
  obtain ⟨b, hb, hs⟩ := shifted h.left hvw.1
  obtain ⟨c, hc, ht⟩ := shifted h.right hvw.2
  exact .ok (hs.trans rfl) (ht.trans rfl) (continues_build h hb hc) ⟨hb.post, hc.post⟩

theorem maintains_scaledSum {t : Table} (ht : t.WellFormed) {base index : Nat} (hb : base < t.size)
    (hi : index < t.size) (scale : Word) : Build.Maintains (do
      let factor ← Build.constant scale
      let scaled ← Build.binary .imul index factor
      Build.binary .add base scaled) t Inside := by
  refine (Build.maintains_constant ht _).bind fun factor t₁ ht₁ g₁ hfactor => ?_
  refine (Build.maintains_binary ht₁ _ (g₁.lt hi) hfactor).bind fun scaled t₂ ht₂ g₂ hscaled => ?_
  exact Build.maintains_binary ht₂ _ ((g₁.trans g₂).lt hb) hscaled

theorem lockstep_combine (h : SameShape lead s t) {a : Action}
    (ha : ∀ opcode target count, a = .shift opcode target count → ∃ d, Direction.ofOpcode? opcode = some d)
    {vs ws : List ValueId} (hvws : List.Forall₂ (Both s t) vs ws) :
    Lockstep lead s t (combine a vs) (combine a ws) Both := by
  have hl := h.left.wellFormed
  have hr := h.right.wellFormed
  cases a, vs, ws, hvws using combine_cases₂ with
  | unary opcode _ v w hv =>
    exact lockstep_build h (Build.maintains_unary hl opcode hv.1) (Build.maintains_unary hr opcode hv.2)
  | binary opcode _ _ b b' hb a a' hv =>
    exact lockstep_build h (Build.maintains_binary hl opcode hv.1 hb.1) (Build.maintains_binary hr opcode hv.2 hb.2)
  | shift opcode target count v w hv =>
    obtain ⟨d, hd⟩ := ha opcode target count rfl
    exact lockstep_shiftValue h hd count hv
  | mask opcode _ word v w hv =>
    exact lockstep_build h (maintains_maskValue hl opcode hv.1 word) (maintains_maskValue hr opcode hv.2 word)
  | multiply _ _ factor v w hv =>
    exact lockstep_build h (maintains_withConstant hl _ hv.1 factor) (maintains_withConstant hr _ hv.2 factor)
  | scaledSum _ _ _ scale b b' hb i i' hi =>
    exact lockstep_build h (maintains_scaledSum hl hb.1 hi.1 scale) (maintains_scaledSum hr hb.2 hi.2 scale)
  | first a v w hv vs ws _ hfirst hfirst' =>
    rw [hfirst, hfirst']
    exact lockstep_pure h hv
  | none a hnone =>
    rw [hnone]
    exact lockstep_throw h _

def Ready (s t : Session) (p q : Place × ValueId) : Prop := p.1 = q.1 ∧ p.1.Short ∧ Both s t p.2 q.2

theorem lockstep_resolve (h : SameShape lead s t) (insn : Instruction) (o : Operand) :
    Lockstep lead s t (resolve insn o) (resolve insn o) fun _ _ p q => p = q ∧ p.Short := by
  refine lockstep_get ?_
  cases lockstep_check h (h.destination insn o) with
  | ok hs ht hc hp => exact .ok hs ht hc ⟨hp.1, Session.short_of_destination hp.2⟩
  | error hs ht hc => exact .error hs ht hc

theorem lockstep_prepare (h : SameShape lead s t) (insn : Instruction) :
    Lockstep lead s t (prepare insn (.ofInstruction insn)) (prepare insn (.ofInstruction insn)) fun s' t' =>
      List.Forall₂ (Ready s' t') := by
  have hdirected := Action.exists_direction insn
  generalize Action.ofInstruction insn = a at hdirected
  cases a using Action.plan_cases with
  | nothing => exact lockstep_pure h .nil
  | exchange x y =>
    refine (lockstep_resolve h insn x).bind fun p p' s₁ t₁ h₁ hp => ?_
    refine (lockstep_resolve h₁.shape insn y).bind fun q q' s₂ t₂ h₂ hq => ?_
    refine (lockstep_read h₂.shape insn x).bind fun v v' s₃ t₃ h₃ hv => ?_
    refine (lockstep_read h₃.shape insn y).bind fun w w' s₄ t₄ h₄ hw => ?_
    exact lockstep_pure h₄.shape (.cons ⟨hp.1, hp.2, hw⟩ (.cons ⟨hq.1, hq.2, hv.mono h₄⟩ .nil))
  | planned a hn hx =>
    rw [prepare_eq insn hn hx]
    refine lockstep_get ?_
    refine (lockstep_check h (h.locate insn a)).bind fun p p' s₁ t₁ h₁ hp => ?_
    refine (lockstep_readSources h₁.shape insn fun _ _ => Action.slot_short).bind fun vs ws s₂ t₂ h₂ hvws => ?_
    refine (lockstep_combine h₂.shape hdirected hvws).bind fun v w s₃ t₃ h₃ hvw => ?_
    exact lockstep_pure h₃.shape (.cons ⟨hp.1, Session.short_of_locate hp.2, hvw⟩ .nil)

theorem lockstep_write (h : SameShape lead s t) {place : Place} (hplace : place.Short) {v w : ValueId}
    (hvw : Both s t v w) : Lockstep lead s t (write v place) (write w place) fun _ _ _ _ => True := by
  cases place with
  | register view => exact lockstep_writeRegister h view hvw
  | memory address bytes => exact (lockstep_writeMemory h address hplace hvw).mono fun _ _ _ _ _ => trivial

theorem lockstep_commit (h : SameShape lead s t) {ps qs : List (Place × ValueId)}
    (hready : List.Forall₂ (Ready s t) ps qs) : Lockstep lead s t (commit ps) (commit qs) fun _ _ _ _ => True := by
  induction ps generalizing qs s t with
  | nil =>
    cases hready
    exact lockstep_pure h trivial
  | cons p ps ih =>
    obtain ⟨place, v⟩ := p
    cases hready with
    | @cons _ q _ qs hpq hrest =>
      obtain ⟨_, w⟩ := q
      obtain ⟨rfl, hshort, hvw⟩ := hpq
      refine (lockstep_write h hshort hvw).bind fun _ _ s₁ t₁ h₁ _ => ih h₁.shape ?_
      exact hrest.imp fun p q hpq => ⟨hpq.1, hpq.2.1, hpq.2.2.mono h₁⟩

theorem lockstep_step (h : SameShape lead s t) (insn : Instruction) :
    Lockstep lead s t (step insn) (step insn) fun _ _ _ _ => True := by
  refine lockstep_get ?_
  rw [h.skip]
  split
  · exact lockstep_pure h trivial
  · rw [perform_eq_commit]
    refine Lockstep.bind (P := fun _ _ _ _ => True) ?_ fun _ _ s₁ t₁ h₁ _ => ?_
    · exact (lockstep_prepare h insn).bind fun _ _ s₁ t₁ h₁ hready => lockstep_commit h₁.shape hready
    · obtain ⟨hl, hr, hskip, hheld, hcells, hinputs, hexecuted⟩ := h₁.shape
      refine .ok rfl rfl ⟨⟨hl.count _, hr.count _, hskip, hheld, hcells, hinputs, ?_⟩, .refl _, .refl _⟩ trivial
      show ((s₁.executed + 1 : Nat) : Int) = ((t₁.executed + 1 : Nat) : Int) + lead
      omega

theorem adaptExcept_error {x : Replay α} {f : Fault → Fault} {fault : Fault} (h : x s = .error fault s') :
    x.adaptExcept f s = .error (f fault) s' := by
  unfold EStateM.adaptExcept
  rw [h]

theorem lockstep_runFrom (h : SameShape lead s t) (i : Nat) (trace : List Instruction) :
    Lockstep lead s t (runFrom i trace) (runFrom i trace) fun _ _ _ _ => True := by
  induction trace generalizing i s t with
  | nil => exact lockstep_pure h trivial
  | cons insn rest ih =>
    refine Lockstep.bind (P := fun _ _ _ _ => True) ?_ fun _ _ s₁ t₁ h₁ _ => ih h₁.shape (i + 1)
    cases lockstep_step h insn with
    | ok hs ht hc hp => exact .ok (adaptExcept_ok.mpr hs) (adaptExcept_ok.mpr ht) hc hp
    | error hs ht hc => exact .error (adaptExcept_error hs) (adaptExcept_error ht) hc

theorem Lockstep.of_ok {x : Replay α} {y : Replay β} {post : Session → Session → α → β → Prop} {a : α} {b : β}
    (h : Lockstep lead s t x y post) (hs : x s = .ok a s') (ht : y t = .ok b t') :
    Continues lead s t s' t' ∧ post s' t' a b := by
  cases h with
  | ok hs' ht' hc hp =>
    cases hs.symm.trans hs'
    cases ht.symm.trans ht'
    exact ⟨hc, hp⟩
  | error hs' => cases hs.symm.trans hs'

def fault? (x : Replay α) (s : Session) : Option Fault :=
  match x s with
  | .ok _ _ => none
  | .error fault _ => some fault

theorem ok_after_of_fault? {x : Replay Unit} (h : x.fault? s = none) :
    x s = .ok () (x.after s) := by
  unfold Replay.fault? at h
  split at h
  · rename_i hs
    rw [after_ok hs]
    exact hs
  · cases h

theorem Lockstep.fault? {x : Replay α} {y : Replay β} {post : Session → Session → α → β → Prop}
    (h : Lockstep lead s t x y post) : x.fault? s = y.fault? t := by
  cases h with
  | ok hs ht => simp only [Replay.fault?, hs, ht]
  | error hs ht => simp only [Replay.fault?, hs, ht]

theorem Lockstep.after {x : Replay α} {y : Replay β} {post : Session → Session → α → β → Prop}
    (h : Lockstep lead s t x y post) : SameShape lead (x.after s) (y.after t) := by
  cases h with
  | ok hs ht hc => rw [after_ok hs, after_ok ht]; exact hc.shape
  | error hs ht hc => rw [after_error hs, after_error ht]; exact hc.shape

end Replay

/-! ## Runs -/

namespace Session

structure Entry (s : Session) : Prop where
  wellFormed : s.table.WellFormed
  memory : s.memory = .empty
  registers : ∀ r, ∃ id, s.registers.get? r = some id ∧ id < s.table.size

variable {s t : Session}

theorem Entry.sound (h : s.Entry) : s.Sound := by
  refine ⟨⟨?_, ?_⟩, h.wellFormed, fun r id hid => ?_, ?_, ?_⟩
  · rw [h.memory]; exact Memory.separated_empty
  · rw [h.memory]; nofun
  · obtain ⟨id', hid', hlt⟩ := h.registers r
    cases hid.symm.trans hid'
    exact hlt
  · rw [h.memory]; nofun
  · rw [h.memory]; nofun

theorem entry_seeded (skip : SkipSet) : (seeded skip).Entry := by
  have hseeds := seeds_seeded .standard (fun _ => 0) skip
  refine ⟨hseeds.inOrder.wellFormed, hseeds.memory, fun r => ?_⟩
  obtain ⟨id, hid, -, hmeans⟩ := hseeds.held r (by cases r <;> decide)
  exact ⟨id, hid, hmeans.1⟩

theorem Entry.sameShape (hs : s.Entry) (ht : t.Entry) (hskip : s.skip = t.skip) :
    SameShape (s.executed - t.executed) s t := by
  refine ⟨hs.sound, ht.sound, hskip, fun r => ?_, ?_, ?_, by omega⟩
  · obtain ⟨id, hid, -⟩ := hs.registers r
    obtain ⟨id', hid', -⟩ := ht.registers r
    rw [hid, hid']
    rfl
  · rw [hs.memory, ht.memory]
  · rw [hs.memory, ht.memory]

/-- Two runs of a trace from empty memory, whatever values the registers hold, end alike: both
    succeed or both stop with the same fault at the same instruction, as many instructions are
    counted, the same ranges are stored, and the inputs read from memory are the same ranges in
    the same order. -/
theorem the_shape_of_a_run_ignores_register_contents (trace : List Instruction) (s t : Session)
    (hskip : s.skip = t.skip) (hs : s.Entry) (ht : t.Entry) :
    (Replay.run trace).fault? s = (Replay.run trace).fault? t ∧
    ((Replay.run trace).after s).executed - (s.executed : Int) =
      ((Replay.run trace).after t).executed - (t.executed : Int) ∧
    ((Replay.run trace).after s).memory.cells.keys = ((Replay.run trace).after t).memory.cells.keys ∧
    ((Replay.run trace).after s).memory.inputs.values = ((Replay.run trace).after t).memory.inputs.values := by
  have hlock := Replay.lockstep_runFrom (hs.sameShape ht hskip) 0 trace
  have hafter : SameShape (s.executed - t.executed) ((Replay.run trace).after s) ((Replay.run trace).after t) :=
    hlock.after
  have hcount := hafter.executed
  exact ⟨hlock.fault?, by omega, hafter.cells, hafter.inputs⟩

def splitEntry : Session where
  skip := ⟨.empty⟩
  table := Table.empty.construct [.symbol 8, .bits ⟨0xaabbcc08, ⟨0, 7⟩⟩, .bits ⟨0xaabbcc08, ⟨16, 31⟩⟩,
    .hybrid (.ofList [(⟨0, 7⟩, 1), (⟨8, 15⟩, 0), (⟨16, 31⟩, 2)])]
  registers := Register.all.foldl (·.set · 3) .empty
  memory := .empty
  executed := 0

theorem entry_splitEntry : splitEntry.Entry where
  wellFormed := Table.construct_wellFormed Table.wellFormed_empty
    ⟨by decide, by decide, by decide, by decide, trivial⟩
  memory := rfl
  registers r := ⟨3, by cases r <;> rfl, by decide⟩

/-- A byte comes in from memory, the word is shifted and pushed, and a store straddles it. -/
def straddlingTrace : List Instruction := [
  { address := 0x1000, mnemonic := "add", operands := [.register "ah" 8, .memory { form := .base .ebx, bits := 8 }],
    readAddress := some 0x100 },
  { address := 0x1002, mnemonic := "shr", operands := [.register "eax" 32, .immediate 4] },
  { address := 0x1005, mnemonic := "push", operands := [.register "eax" 32], writeAddress := some 0x200 },
  { address := 0x1006, mnemonic := "mov", operands := [.memory { form := .base .esp, bits := 32 }, .register "ebx" 32],
    writeAddress := some 0x1fe }]

/-- Hybrid words take other paths than symbols do, and stop at the same store. -/
theorem split_words_stop_where_symbols_do :
    (Replay.run straddlingTrace).fault? splitEntry =
      some (.atInstruction 3 0x1006 "mov" (.partialOverlap ⟨0x1fe, 0x201⟩ ⟨0x200, 0x203⟩)) ∧
    ((Replay.run straddlingTrace).after splitEntry).memory.cells.keys = [⟨0x100, 0x100⟩, ⟨0x200, 0x203⟩] ∧
    ((Replay.run straddlingTrace).after splitEntry).memory.inputs.values = [⟨0x100, 0x100⟩] := by
  obtain ⟨hfault, -, hcells, hinputs⟩ := the_shape_of_a_run_ignores_register_contents straddlingTrace splitEntry
    (seeded ⟨.empty⟩) rfl entry_splitEntry (entry_seeded _)
  rw [hfault, hcells, hinputs]
  decide +kernel

/-! ## Reachable sessions are sound -/

theorem SameShape.refl (h : s.Sound) : SameShape 0 s s :=
  ⟨h, h, rfl, fun _ => rfl, rfl, rfl, (Int.add_zero _).symm⟩

theorem Sound.after_step (h : s.Sound) (insn : Instruction) : ((Replay.step insn).after s).Sound :=
  (Replay.lockstep_step (.refl h) insn).after.left

end Session

end TraceReplay
