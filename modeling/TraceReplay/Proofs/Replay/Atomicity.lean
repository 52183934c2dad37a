/-
  TraceReplay.Proofs.Replay.Atomicity — what a failed instruction leaves behind.

  Destinations are checked before anything is read, and only then is anything written, so that a
  fault should leave registers, memory and the count as they were. It does not always. A read of
  bytes that no cell covers makes a cell of them, and stays made when the instruction fails
  later; and of the two writes of an exchange the second may fail after the first.

  `a_failed_step_leaves_no_trace_iff_it_disturbs_nothing` says exactly when: the destinations can
  be written, and either a source that is reached is touched for the first time, or all that is
  left of an exchange is to write. Such a fault is real
  (`an_exchange_may_fail_after_it_has_read`).
-/

import TraceReplay.Proofs.Replay.Plan

namespace TraceReplay

namespace Replay

variable {α β : Type} {s s' : Session} {fault : Fault}

/-! ## Operations that fail -/

theorem bind_error {x : Replay α} {f : α → Replay β} (h : (x >>= f) s = .error fault s') :
    x s = .error fault s' ∨ ∃ a s₁, x s = .ok a s₁ ∧ f a s₁ = .error fault s' := by
  replace h : EStateM.bind x f s = .error fault s' := h
  unfold EStateM.bind at h
  split at h
  · exact .inr ⟨_, _, ‹_›, h⟩
  · cases h
    exact .inl ‹_›

theorem get_bind_error {f : Session → Replay β} (h : (get >>= f) s = .error fault s') :
    f s s = .error fault s' := h

theorem check_error {outcome : Except Fault α} (h : check outcome s = .error fault s') :
    outcome = .error fault ∧ s' = s := by
  cases outcome with
  | error e => cases h; exact ⟨rfl, rfl⟩
  | ok a => cases h

theorem plan_error {p : Except Fault (Build α)} (h : plan p s = .error fault s') :
    p = .error fault ∧ s' = s := by
  cases p with
  | error e => cases h; exact ⟨rfl, rfl⟩
  | ok b => cases h

theorem readRegister_error {view : RegisterView} (h : readRegister view s = .error fault s') : s' = s :=
  (plan_error (get_bind_error h)).2

theorem readMemory_error {address : Word} {bytes : Nat} (h : readMemory address bytes s = .error fault s') :
    s.memory.read address bytes = .error fault ∧ s' = s := by
  rcases bind_error (get_bind_error h) with h | ⟨a, s₁, -, h⟩
  · exact plan_error h
  · cases h

theorem read_error {insn : Instruction} {o : Operand} (h : read insn o s = .error fault s') : s' = s := by
  cases o with
  | immediate value => cases h
  | register name bits =>
    rcases bind_error h with hcheck | ⟨view, s₁, hcheck, hread⟩
    · exact (check_error hcheck).2
    · obtain ⟨-, rfl⟩ := check_ok hcheck
      exact readRegister_error hread
  | memory m =>
    rcases bind_error h with hcheck | ⟨address, s₁, hcheck, hread⟩
    · exact (check_error hcheck).2
    · obtain ⟨-, rfl⟩ := check_ok hcheck
      exact (readMemory_error hread).2

theorem readSource_error {insn : Instruction} {source : Source}
    (h : readSource insn source s = .error fault s') : s' = s := by
  cases source with
  | operand o => exact read_error h
  | slot address bytes => exact (readMemory_error h).2
  | register r => exact readRegister_error h

/-! ## The session afterwards -/

def after (x : Replay α) (s : Session) : Session :=
  match x s with
  | .ok _ s' => s'
  | .error _ s' => s'

theorem after_ok {x : Replay α} {a : α} (h : x s = .ok a s') : x.after s = s' := by rw [after, h]

theorem after_error {x : Replay α} (h : x s = .error fault s') : x.after s = s' := by rw [after, h]

theorem after_attempt (b : ExceptT Fault Build α) (s : Session) :
    (attempt b).after s = { s with table := (b.run s.table).2 } := by
  simp only [after, attempt, bind, EStateM.bind, build_run]
  cases (b.run s.table).1 <;> rfl

/-- Combining touches the table only. -/
theorem after_combine (a : Action) (vs : List ValueId) (s : Session) :
    ∃ t, (combine a vs).after s = { s with table := t } := by
  cases a, vs using combine_cases with
  | built a vs b hrun _ => exact ⟨_, by rw [hrun]; rfl⟩
  | shift opcode _ count v =>
    show ∃ t, (if s.table.isHybrid v then attempt _ else build _ : Replay ValueId).after s = _
    split
    · exact ⟨_, after_attempt _ s⟩
    · exact ⟨_, rfl⟩
  | first a v vs hrun => exact ⟨s.table, by rw [hrun]; rfl⟩
  | none a hrun => exact ⟨s.table, by rw [hrun]; rfl⟩

end Replay

/-! ## Writing what was checked -/

namespace Session

structure Unchanged (s s' : Session) : Prop where
  registers : s'.registers = s.registers
  memory : s'.memory = s.memory
  executed : s'.executed = s.executed

def Writable (s : Session) : Place → Prop
  | .register view => s.registers.checkWrite view = .ok ()
  | .memory address bytes => s.memory.checkWrite address bytes = .ok ()

variable {s s' : Session} {insn : Instruction} {place : Place} {fault : Fault}

theorem Unchanged.refl (s : Session) : s.Unchanged s := ⟨rfl, rfl, rfl⟩

theorem Unchanged.writable (h : s.Unchanged s') (hw : s.Writable place) : s'.Writable place := by
  cases place with
  | register view => rw [Writable, h.registers]; exact hw
  | memory address bytes => rw [Writable, h.memory]; exact hw

theorem writable_of_destination {o : Operand} (h : s.destination insn o = .ok place) : s.Writable place := by
  obtain ⟨-, -, view, -, -, hcheck, rfl⟩ | ⟨m, address, -, -, hcheck, rfl⟩ := destination_ok h
  · exact hcheck
  · exact hcheck

theorem writeRegister_error {view : RegisterView} {v : ValueId}
    (h : Replay.writeRegister view v s = .error fault s') : ¬ s.Writable (.register view) ∧ s' = s := by
  rcases Replay.bind_error (Replay.get_bind_error h) with hplan | ⟨_, _, -, hmodify⟩
  · obtain ⟨hwrite, rfl⟩ := Replay.plan_error hplan
    refine ⟨fun hw => ?_, rfl⟩
    cases view with
    | full r => cases hwrite
    | low16 r | low8 r | high8 r =>
      simp only [Writable, RegisterFile.checkWrite, RegisterFile.write] at hw hwrite
      cases ho : s'.registers.owner _ with
      | error e => rw [ho] at hw; cases hw
      | ok owner => rw [ho] at hwrite; cases hwrite
  · cases hmodify

theorem writeMemory_error {address : Word} {bytes : Nat} {v : ValueId}
    (h : Replay.writeMemory address bytes v s = .error fault s') :
    ¬ s.Writable (.memory address bytes) ∧ s' = s := by
  rcases Replay.bind_error (Replay.get_bind_error h) with hplan | ⟨_, _, -, hmodify⟩
  · obtain ⟨hwrite, rfl⟩ := Replay.plan_error hplan
    refine ⟨fun hw => ?_, rfl⟩
    simp only [Writable, Memory.checkWrite, Memory.write, bind, Except.bind] at hw hwrite
    split at hw
    · cases hw
    · rename_i range hrange
      rw [hrange] at hwrite
      cases hc : s'.memory.classify range with
      | exact | fresh | covering => simp only [hc] at hwrite; cases hwrite
      | straddling cell => rw [hc] at hw; cases hw
      | within cell stored =>
        simp only [hc, Memory.lane?] at hw hwrite
        by_cases hsize : cell.size > 4
        · rw [if_pos hsize] at hw; cases hw
        · rw [if_neg hsize] at hwrite; cases hwrite
  · cases hmodify

/-- A write that fails is one whose check would fail too, and it changes nothing. -/
theorem write_error {v : ValueId} (h : Replay.write v place s = .error fault s') :
    ¬ s.Writable place ∧ s' = s := by
  cases place with
  | register view => exact writeRegister_error h
  | memory address bytes => exact writeMemory_error h

end Session

/-! ## First touches -/

def Source.access? (insn : Instruction) : Source → Option (Word × Nat)
  | operand (.memory m) => match insn.accessAddress .read m with
    | .ok address => some (address, m.byteCount)
    | .error _ => none
  | operand _ => none
  | slot address bytes => some (address, bytes)
  | register _ => none

def Source.FirstTouch (insn : Instruction) (m : Memory) (source : Source) : Prop :=
  ∃ address bytes access, source.access? insn = some (address, bytes) ∧
    AddressRange.ofAccess? address bytes = some access ∧ ∀ e ∈ m.cells.entries, e.1.intersects access = false

namespace Replay

variable {s s' : Session} {insn : Instruction} {source : Source}

/-- What a read does apart from the table: nothing, or it adds a cell for bytes without one. -/
structure Reads (insn : Instruction) (source : Source) (s s' : Session) : Prop where
  registers : s'.registers = s.registers
  executed : s'.executed = s.executed
  same : ¬ source.FirstTouch insn s.memory → s'.memory = s.memory
  kept : ∀ e ∈ s.memory.cells.entries, e ∈ s'.memory.cells.entries
  added : source.FirstTouch insn s.memory →
    ∃ e ∈ s'.memory.cells.entries, e ∉ s.memory.cells.entries

theorem Reads.of_memory_eq (hr : s'.registers = s.registers) (he : s'.executed = s.executed)
    (hm : s'.memory = s.memory) (hf : ¬ source.FirstTouch insn s.memory) : Reads insn source s s' :=
  ⟨hr, he, fun _ => hm, fun _ h => hm.symm ▸ h, fun h => absurd h hf⟩

theorem readMemory_reads {address : Word} {bytes : Nat} {v : ValueId}
    (ha : source.access? insn = some (address, bytes)) (h : readMemory address bytes s = .ok v s') :
    Reads insn source s s' := by
  obtain ⟨heq, access, hacc, hstep⟩ := readMemory_ok h
  have hr := AddressRange.first_le_last_of_access hacc
  have hfirst : source.FirstTouch insn s.memory ↔ ∀ e ∈ s.memory.cells.entries, e.1.intersects access = false := by
    constructor
    · rintro ⟨_, _, _, ha', hacc', hnone⟩
      cases ha.symm.trans ha'
      cases hacc.symm.trans hacc'
      exact hnone
    · exact fun hnone => ⟨address, bytes, access, ha, hacc, hnone⟩
  have hregs : s'.registers = s.registers := by rw [heq]
  have hexec : s'.executed = s.executed := by rw [heq]
  rcases hstep.fresh_or_same hr with ⟨hnone, hrep⟩ | ⟨⟨e, he, hi⟩, hsame⟩
  · refine ⟨hregs, hexec, fun hf => absurd (hfirst.mpr hnone) hf, fun e he => ?_, fun _ => ?_⟩
    · exact (hrep.mem_iff e).mpr (.inr ⟨he, hnone e he⟩)
    · refine ⟨(access, v), (hrep.mem_iff _).mpr (.inl rfl), fun hin => ?_⟩
      have := hnone _ hin
      rw [AddressRange.intersects_self hr] at this
      cases this
  · refine .of_memory_eq hregs hexec hsame fun hf => ?_
    rw [hfirst.mp hf e he] at hi
    cases hi

theorem readRegister_reads {view : RegisterView} {v : ValueId} (ha : source.access? insn = none)
    (h : readRegister view s = .ok v s') : Reads insn source s s' := by
  obtain ⟨owner, -, -, rfl⟩ := readRegister_ok h
  refine .of_memory_eq rfl rfl rfl ?_
  rintro ⟨_, _, _, ha', -⟩
  rw [ha] at ha'
  cases ha'

theorem readSource_reads {v : ValueId} (h : readSource insn source s = .ok v s') : Reads insn source s s' := by
  cases source with
  | slot address bytes => exact readMemory_reads rfl h
  | register r => exact readRegister_reads rfl h
  | operand o =>
    cases o with
    | immediate value =>
      cases h
      exact .of_memory_eq rfl rfl rfl (by rintro ⟨_, _, _, ha, -⟩; cases ha)
    | register name bits =>
      obtain ⟨view, s₁, hcheck, hread⟩ := bind_ok h
      obtain ⟨-, rfl⟩ := check_ok hcheck
      exact readRegister_reads rfl hread
    | memory m =>
      obtain ⟨address, s₁, hcheck, hread⟩ := bind_ok h
      obtain ⟨haddress, rfl⟩ := check_ok hcheck
      exact readMemory_reads (by rw [Source.access?, haddress]) hread

/-- A source that is touched for the first time can be read. -/
theorem readSource_of_firstTouch (h : source.FirstTouch insn s.memory) :
    ∃ v s', readSource insn source s = .ok v s' := by
  obtain ⟨address, bytes, access, ha, hacc, hnone⟩ := h
  have hread : ∃ v s', readMemory address bytes s = .ok v s' := by
    show ∃ v s', (plan (s.memory.read address bytes) >>= fun p => _ : Replay ValueId) s = .ok v s'
    rw [Memory.read_fresh hacc hnone]
    exact ⟨_, _, rfl⟩
  cases source with
  | slot => cases ha; exact hread
  | register => cases ha
  | operand o =>
    cases o with
    | immediate | register => cases ha
    | memory m =>
      simp only [Source.access?] at ha
      split at ha
      · rename_i haddress
        cases ha
        show ∃ v s', (check (insn.accessAddress .read m) >>= fun p => _ : Replay ValueId) s = .ok v s'
        rw [haddress]
        exact hread
      · cases ha

/-- Some source is in memory, has no byte in a cell, and is reached: all before it can be read. -/
def FirstTouches (s : Session) (insn : Instruction) (sources : List Source) : Prop :=
  ∃ before source after, sources = before ++ source :: after ∧
    (∃ vs s₁, readSources insn before s = .ok vs s₁) ∧ source.FirstTouch insn s.memory

variable {sources rest : List Source} {v : ValueId} {s₁ : Session}

theorem readSources_cons (h : readSource insn source s = .ok v s₁) :
    readSources insn (source :: rest) s = ((v :: ·) <$> readSources insn rest) s₁ := by
  rw [readSources, List.mapM_cons, bind_run h]
  rfl

theorem readSources_cons_ok (h : readSource insn source s = .ok v s₁) :
    (∃ vs s', readSources insn (source :: rest) s = .ok vs s') ↔ ∃ vs s', readSources insn rest s₁ = .ok vs s' := by
  rw [readSources_cons h]
  constructor
  · rintro ⟨vs, s', hrun⟩
    obtain ⟨vs', s₂, hrest, -⟩ := bind_ok hrun
    exact ⟨vs', s₂, hrest⟩
  · rintro ⟨vs, s', hrest⟩
    refine ⟨v :: vs, s', ?_⟩
    show EStateM.map _ _ s₁ = _
    rw [EStateM.map, hrest]

theorem after_readSources_cons (h : readSource insn source s = .ok v s₁) :
    (readSources insn (source :: rest)).after s = (readSources insn rest).after s₁ := by
  cases hrest : readSources insn rest s₁ with
  | ok vs s' =>
    have hmap : ((v :: ·) <$> readSources insn rest) s₁ = .ok (v :: vs) s' := by
      show EStateM.map _ _ s₁ = _
      rw [EStateM.map, hrest]
    rw [after_ok hrest, after_ok ((readSources_cons h).trans hmap)]
  | error fault s' =>
    have hmap : ((v :: ·) <$> readSources insn rest) s₁ = .error fault s' := by
      show EStateM.map _ _ s₁ = _
      rw [EStateM.map, hrest]
    rw [after_error hrest, after_error ((readSources_cons h).trans hmap)]

theorem readSources_cons_error {fault : Fault} (h : readSource insn source s = .error fault s₁) :
    readSources insn (source :: rest) s = .error fault s₁ := by
  rw [readSources, List.mapM_cons, bind_run_error h]

theorem firstTouches_nil : ¬ FirstTouches s insn [] := by
  rintro ⟨before, source, after, hsplit, -⟩
  simp at hsplit

/-- A source that leaves memory alone can be dropped. -/
theorem firstTouches_cons (h : readSource insn source s = .ok v s₁) (hmem : s₁.memory = s.memory)
    (hf : ¬ source.FirstTouch insn s.memory) :
    FirstTouches s insn (source :: rest) ↔ FirstTouches s₁ insn rest := by
  constructor
  · rintro ⟨before, x, after, hsplit, hok, hx⟩
    cases before with
    | nil =>
      obtain ⟨rfl, -⟩ := List.cons.inj hsplit
      exact absurd hx hf
    | cons y before =>
      obtain ⟨rfl, hrest⟩ := List.cons.inj hsplit
      exact ⟨before, x, after, hrest, (readSources_cons_ok h).mp hok, hmem.symm ▸ hx⟩
  · rintro ⟨before, x, after, hsplit, hok, hx⟩
    exact ⟨source :: before, x, after, hsplit ▸ rfl, (readSources_cons_ok h).mpr hok, hmem ▸ hx⟩

structure ReadsAll (insn : Instruction) (sources : List Source) (s s' : Session) : Prop where
  registers : s'.registers = s.registers
  executed : s'.executed = s.executed
  kept : ∀ e ∈ s.memory.cells.entries, e ∈ s'.memory.cells.entries
  memory_iff : s'.memory = s.memory ↔ ¬ FirstTouches s insn sources

theorem after_readSources (insn : Instruction) (sources : List Source) (s : Session) :
    ReadsAll insn sources s ((readSources insn sources).after s) := by
  induction sources generalizing s with
  | nil => exact ⟨rfl, rfl, fun _ he => he, fun _ => firstTouches_nil, fun _ => rfl⟩
  | cons source rest ih =>
    cases hread : readSource insn source s with
    | error fault s₁ =>
      rw [after_error (readSources_cons_error hread), readSource_error hread]
      refine ⟨rfl, rfl, fun _ he => he, fun _ => ?_, fun _ => rfl⟩
      rintro ⟨before, x, after, hsplit, ⟨vs, s₂, hok⟩, hx⟩
      -- the first source fails, so it is not touched for the first time, and nothing else is reached
      cases before with
      | nil =>
        obtain ⟨rfl, -⟩ := List.cons.inj hsplit
        obtain ⟨v, s₃, hv⟩ := readSource_of_firstTouch hx
        rw [hread] at hv
        cases hv
      | cons y before =>
        obtain ⟨rfl, -⟩ := List.cons.inj hsplit
        rw [readSources_cons_error hread] at hok
        cases hok
    | ok v s₁ =>
      have hr := readSource_reads hread
      obtain ⟨hregs, hexec, hkept, hiff⟩ := ih s₁
      rw [after_readSources_cons hread]
      refine ⟨hregs.trans hr.registers, hexec.trans hr.executed, fun e he => hkept e (hr.kept e he), ?_⟩
      by_cases hf : source.FirstTouch insn s.memory
      · obtain ⟨e, he, hnew⟩ := hr.added hf
        refine ⟨fun hsame => ?_, fun hnot => absurd ⟨[], source, rest, rfl, ⟨[], s, rfl⟩, hf⟩ hnot⟩
        exact absurd (hsame ▸ hkept e he) hnew
      · rw [firstTouches_cons hread (hr.same hf) hf, ← hiff, hr.same hf]

def swap : List ValueId → Place → Place → Replay Unit
  | [a, b], p, q => do
    write b p
    write a q
  | _, _, _ => throw .brokenPartition

theorem readSources_pair {a b : Source} {vs : List ValueId} (h : readSources insn [a, b] s = .ok vs s') :
    ∃ va vb, vs = [va, vb] := by
  rw [readSources, List.mapM_cons] at h
  obtain ⟨va, _, -, hrest⟩ := bind_ok h
  obtain ⟨tail, _, htail, hcons⟩ := bind_ok hrest
  rw [List.mapM_cons] at htail
  obtain ⟨vb, _, -, hlast⟩ := bind_ok htail
  cases hlast
  cases hcons
  exact ⟨va, vb, rfl⟩

theorem exchange_eq (insn : Instruction) (a b : Operand) :
    exchange insn a b = (do
      let p ← resolve insn a
      let q ← resolve insn b
      let vs ← readSources insn [.operand a, .operand b]
      swap vs p q) := by
  simp [exchange, readSources, readSource, swap]

end Replay

namespace Session

/-! ## One instruction -/

def Cleared (s : Session) (insn : Instruction) : Action → Prop
  | .exchange a b => (∃ p, s.destination insn a = .ok p) ∧ ∃ q, s.destination insn b = .ok q
  | a => ∃ place, s.locate insn a = .ok place

/-- The instruction gets past the checks of its destinations, and then touches memory for the
    first time or, if it is an exchange, reads all that it has to read. -/
def Disturbs (s : Session) (insn : Instruction) : Prop :=
  s.Cleared insn (.ofInstruction insn) ∧
    (Replay.FirstTouches s insn ((Action.ofInstruction insn).sources insn) ∨
      (∃ a b, Action.ofInstruction insn = .exchange a b) ∧
        ∃ vs s₁, Replay.readSources insn ((Action.ofInstruction insn).sources insn) s = .ok vs s₁)

variable {s s' s₁ : Session} {insn : Instruction} {place : Place} {fault : Fault}

/-- A write that was checked can fail only if something has changed since. -/
theorem not_unchanged_of_write_error {v : ValueId} (hw : s.Writable place)
    (h : Replay.write v place s₁ = .error fault s') : ¬ s.Unchanged s' := by
  obtain ⟨hnot, rfl⟩ := write_error h
  exact fun hs => hnot (hs.writable hw)

theorem unchanged_iff_of_reads {sources : List Source} (h : Replay.ReadsAll insn sources s s') :
    s.Unchanged s' ↔ ¬ Replay.FirstTouches s insn sources := by
  rw [← h.memory_iff]
  exact ⟨fun hs => hs.memory, fun hm => ⟨h.registers, hm, h.executed⟩⟩

theorem plan_error_iff {a : Action} (hn : a ≠ .nothing) (hx : ∀ x y, a ≠ .exchange x y)
    (h : Replay.perform insn a s = .error fault s') :
    s.Unchanged s' ↔ ¬ ((∃ place, s.locate insn a = .ok place) ∧ Replay.FirstTouches s insn (a.sources insn)) := by
  rw [Replay.perform_eq insn hn hx] at h
  rcases Replay.bind_error (Replay.get_bind_error h) with hcheck | ⟨place, s₀, hcheck, hrest⟩
  · obtain ⟨hlocate, rfl⟩ := Replay.check_error hcheck
    refine ⟨fun _ => ?_, fun _ => .refl s'⟩
    rintro ⟨⟨place, hplace⟩, -⟩
    rw [hlocate] at hplace
    cases hplace
  · obtain ⟨hlocate, rfl⟩ := Replay.check_ok hcheck
    have hreads := Replay.after_readSources insn (a.sources insn) s₀
    have hiff : ((∃ place, s₀.locate insn a = .ok place) ∧ Replay.FirstTouches s₀ insn (a.sources insn)) ↔
        Replay.FirstTouches s₀ insn (a.sources insn) := and_iff_right ⟨place, hlocate⟩
    rw [hiff]
    rcases Replay.bind_error hrest with hread | ⟨vs, s₁, hread, htail⟩
    · rw [Replay.after_error hread] at hreads
      exact unchanged_iff_of_reads hreads
    · rw [Replay.after_ok hread] at hreads
      obtain ⟨t, hcombine⟩ := Replay.after_combine a vs s₁
      have htable : Replay.ReadsAll insn (a.sources insn) s₀ ((Replay.combine a vs).after s₁) := by
        rw [hcombine]
        exact ⟨hreads.1, hreads.2, hreads.3, hreads.4⟩
      rcases Replay.bind_error htail with hfail | ⟨v, s₂, hok, hwrite⟩
      · rw [Replay.after_error hfail] at htable
        exact unchanged_iff_of_reads htable
      · rw [Replay.after_ok hok] at htable
        obtain ⟨-, rfl⟩ := write_error hwrite
        exact unchanged_iff_of_reads htable

theorem swap_error {a b : ValueId} {p q : Place} (hp : s.Writable p) (hq : s.Writable q)
    (h : Replay.swap [a, b] p q s₁ = .error fault s') : ¬ s.Unchanged s' := by
  rcases Replay.bind_error h with hfirst | ⟨_, s₂, -, hsecond⟩
  · exact not_unchanged_of_write_error hp hfirst
  · exact not_unchanged_of_write_error hq hsecond

theorem exchange_error_iff {a b : Operand} (h : Replay.exchange insn a b s = .error fault s') :
    s.Unchanged s' ↔ ¬ (((∃ p, s.destination insn a = .ok p) ∧ ∃ q, s.destination insn b = .ok q) ∧
      (Replay.FirstTouches s insn [.operand a, .operand b] ∨
        ∃ vs s₁, Replay.readSources insn [.operand a, .operand b] s = .ok vs s₁)) := by
  rw [Replay.exchange_eq] at h
  rcases Replay.bind_error h with hcheck | ⟨p, s₀, hcheck, hrest⟩
  · obtain ⟨hdest, rfl⟩ := Replay.check_error (Replay.get_bind_error hcheck)
    refine ⟨fun _ => ?_, fun _ => .refl s'⟩
    rintro ⟨⟨⟨p, hp⟩, -⟩, -⟩
    rw [hdest] at hp
    cases hp
  obtain ⟨hp, rfl⟩ := Replay.check_ok (Replay.get_bind_ok hcheck)
  rcases Replay.bind_error hrest with hcheck' | ⟨q, s₁, hcheck', hreads⟩
  · obtain ⟨hdest, rfl⟩ := Replay.check_error (Replay.get_bind_error hcheck')
    refine ⟨fun _ => ?_, fun _ => .refl s'⟩
    rintro ⟨⟨-, ⟨q, hq⟩⟩, -⟩
    rw [hdest] at hq
    cases hq
  obtain ⟨hq, rfl⟩ := Replay.check_ok (Replay.get_bind_ok hcheck')
  rw [and_iff_right ⟨⟨p, hp⟩, q, hq⟩]
  have hall := Replay.after_readSources insn [.operand a, .operand b] s₁
  rcases Replay.bind_error hreads with hread | ⟨vs, s₂, hread, hswap⟩
  · rw [Replay.after_error hread] at hall
    rw [unchanged_iff_of_reads hall, hread]
    simp
  · obtain ⟨va, vb, rfl⟩ := Replay.readSources_pair hread
    have hnot := swap_error (writable_of_destination hp) (writable_of_destination hq) hswap
    exact ⟨fun hs => absurd hs hnot, fun hn => absurd (.inr ⟨_, s₂, hread⟩) hn⟩

theorem perform_error_iff (h : Replay.perform insn (.ofInstruction insn) s = .error fault s') :
    s.Unchanged s' ↔ ¬ s.Disturbs insn := by
  unfold Disturbs
  generalize Action.ofInstruction insn = a at h
  cases a using Action.plan_cases with
  | nothing => cases h
  | exchange x y =>
    rw [exchange_error_iff h]
    simp [Cleared, Action.sources]
  | planned a hn hx =>
    have hcleared : s.Cleared insn a ↔ ∃ place, s.locate insn a = .ok place := by
      cases a with
      | exchange x y => exact absurd rfl (hx x y)
      | _ => exact Iff.rfl
    rw [plan_error_iff hn hx h, hcleared]
    simp [hx]

theorem step_error_iff (h : Replay.step insn s = .error fault s') :
    s.Unchanged s' ↔ ¬ s.Disturbs insn := by
  replace h := Replay.get_bind_error h
  split at h
  · cases h
  · rcases Replay.bind_error h with hperform | ⟨_, _, -, hcount⟩
    · exact perform_error_iff hperform
    · cases hcount

/-! ## Traces -/

theorem runFrom_error {i : Nat} {trace : List Instruction} (h : Replay.runFrom i trace s = .error fault s') :
    ∃ before insn after s₁ inner, trace = before ++ insn :: after ∧
      fault = .atInstruction (i + before.length) insn.address insn.mnemonic inner ∧
      Replay.run before s = .ok () s₁ ∧ Replay.step insn s₁ = .error inner s' := by
  induction trace generalizing i s with
  | nil => cases h
  | cons insn rest ih =>
    rcases Replay.bind_error h with hstep | ⟨_, s₁, hstep, hrest⟩
    · unfold EStateM.adaptExcept at hstep
      split at hstep
      · rename_i inner s₁ hinner
        cases hstep
        exact ⟨[], insn, rest, s, inner, rfl, rfl, rfl, hinner⟩
      · cases hstep
    · obtain ⟨before, x, after, s₂, inner, rfl, rfl, hbefore, hx⟩ := ih hrest
      refine ⟨insn :: before, x, after, s₂, inner, rfl, ?_, ?_, hx⟩
      · rw [List.length_cons, Nat.add_assoc, Nat.add_comm 1]
      · exact (Replay.run_cons_of_step (Replay.adaptExcept_ok.mp hstep)).mpr hbefore

/-- A failed instruction leaves registers, memory and the count as they were exactly if it
    disturbs nothing, and a trace that fails ends as it was before the instruction that failed
    under the same condition. -/
theorem a_failed_step_leaves_no_trace_iff_it_disturbs_nothing (s s' : Session) (fault : Fault) :
    (∀ insn, Replay.step insn s = .error fault s' → (s.Unchanged s' ↔ ¬ s.Disturbs insn)) ∧
    (∀ trace, Replay.run trace s = .error fault s' →
      ∃ before insn after s₁ inner, trace = before ++ insn :: after ∧
        fault = .atInstruction before.length insn.address insn.mnemonic inner ∧
        Replay.run before s = .ok () s₁ ∧ Replay.step insn s₁ = .error inner s' ∧
        (s₁.Unchanged s' ↔ ¬ s₁.Disturbs insn)) := by
  refine ⟨fun insn h => step_error_iff h, fun trace h => ?_⟩
  obtain ⟨before, insn, after, s₁, inner, hsplit, hfault, hbefore, hstep⟩ := runFrom_error h
  rw [Nat.zero_add] at hfault
  exact ⟨before, insn, after, s₁, inner, hsplit, hfault, hbefore, hstep, step_error_iff hstep⟩

/-- It reads four bytes, and is recorded to write four that overlap them. -/
def tornExchange : Instruction :=
  { address := 0x1000, mnemonic := "xchg"
    operands := [.register "eax" 32, .memory { form := .base .ebx, bits := 32 }]
    readAddress := some 258, writeAddress := some 256 }

theorem an_exchange_may_fail_after_it_has_read :
    ∃ fault s', Replay.step tornExchange (seeded ⟨.empty⟩) = .error fault s' ∧
      ¬ (seeded ⟨.empty⟩).Unchanged s' := by
  have haction : Action.ofInstruction tornExchange =
      .exchange (.register "eax" 32) (.memory { form := .base .ebx, bits := 32 }) := by decide +kernel
  have hmemory : (seeded ⟨.empty⟩).memory = .empty := rfl
  have hdisturbs : (seeded ⟨.empty⟩).Disturbs tornExchange := by
    rw [Disturbs, haction]
    refine ⟨⟨⟨.register (.full .eax), rfl⟩, .memory 256 4, rfl⟩, .inl ⟨[_], _, [], rfl, ⟨[0], _, rfl⟩, ?_⟩⟩
    rw [hmemory]
    exact ⟨258, 4, ⟨258, 261⟩, rfl, rfl, nofun⟩
  have hfails : (match Replay.step tornExchange (seeded ⟨.empty⟩) with
      | .ok _ _ => false
      | .error _ _ => true) = true := by decide +kernel
  cases hrun : Replay.step tornExchange (seeded ⟨.empty⟩) with
  | ok u s' => rw [hrun] at hfails; cases hfails
  | error fault s' =>
    refine ⟨fault, s', rfl, fun hs => ?_⟩
    exact ((a_failed_step_leaves_no_trace_iff_it_disturbs_nothing _ s' fault).1 tornExchange hrun).mp hs hdisturbs

end Session

end TraceReplay
