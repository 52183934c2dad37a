/-
  TraceReplay.Proofs.Replay.Alignment — the hybrid words of a session keep their constants in place.

  A shift of a hybrid word is exact if its constants were cut at the ranges where they stand. A
  session never checks that; it builds hybrid words in two ways only, by putting a byte into a
  known word and by shifting one. Proved, of every session after any history of instructions and
  looks at registers, any of which may have failed (`hybrid_words_stay_aligned_and_shift_exactly`):
  - every piece of a hybrid word is a constant that was cut where it stands, or depends on an
    input and is not hybrid itself;
  - a shift of a register with a hybrid word by a constant gives the word of the opcode on the old
    word and the count, as the instruction would on its way for two operands of any kind.

  The invariant is `Session.Aligned`. `Replay.Aligns` carries it through the parts of an
  instruction, whether they succeed or not.
-/

import TraceReplay.Proofs.Replay.Effects

namespace TraceReplay

/-! ## Words of all values -/

namespace Table

variable {R : Rules} {σ : Assignment} {t : Table} {id : Nat}

/-- If every operation has a result, every value means a word. -/
theorem WellFormed.exists_means (ht : t.WellFormed) (hR : R.Total) (hid : id < t.size) : ∃ w, t.Means R σ id w := by
  induction id using Nat.strongRecOn with
  | ind id ih =>
    obtain ⟨v, hv⟩ := get?_of_lt hid
    have hlt := ht.operands_lt hv
    have hbelow (o : ValueId) (ho : o ∈ v.node.operands) : t.Means R σ o (t.meaning R σ o) := by
      obtain ⟨x, hx⟩ := ih o (hlt o ho) (Nat.lt_trans (hlt o ho) hid)
      rwa [hx.meaning]
    cases hn : v.node with
    | symbol => exact ⟨_, means_symbol hv hn⟩
    | constant b => exact ⟨_, means_constant hv hn⟩
    | hybrid pieces =>
      rw [hn] at hlt hbelow
      have hentry (e : BitRange × ValueId) (he : e ∈ pieces.entries) : e.2 ∈ (Node.hybrid pieces).operands :=
        List.mem_map.mpr ⟨e, he, rfl⟩
      exact ⟨_, means_hybrid hv hn (fun e he => hlt e.2 (hentry e he)) fun e he => hbelow e.2 (hentry e he)⟩
    | operation opcode operands =>
      rw [hn] at hlt hbelow
      obtain ⟨w, hw⟩ := hR opcode (operands.map (t.meaning R σ))
      refine ⟨w, means_operation hv hn hlt ?_ hw⟩
      rw [List.map_map]
      exact List.map_congr_left fun o ho => (hbelow o ho).2

end Table

/-! ## Aligned sessions -/

namespace Session

/-- The constant pieces of hybrid words were cut where they stand; the others depend on inputs. -/
structure Aligned (s : Session) : Prop extends s.Sound where
  regular : s.table.Regular

theorem Aligned.count {s : Session} (h : s.Aligned) (n : Nat) : { s with executed := n }.Aligned :=
  ⟨h.toSound.count n, h.regular⟩

end Session

namespace Replay

open Session (Aligned Both SameShape)

variable {α β : Type} {s s' : Session} {insn : Instruction}

/-! ### Computations that build no hybrid word -/

def Plain (x : Replay α) : Prop := ∀ s : Session, s.table.Adds Node.Plain (x.after s).table

theorem Plain.bind {x : Replay α} {f : α → Replay β} (hx : x.Plain) (hf : ∀ a, (f a).Plain) : (x >>= f).Plain := by
  intro s
  have hadds := hx s
  cases hrun : x s with
  | error fault s₁ =>
    rw [after_error hrun] at hadds
    rw [after_bind_error hrun]
    exact hadds
  | ok a s₁ =>
    rw [after_ok hrun] at hadds
    rw [after_bind_ok hrun]
    exact hadds.trans (hf a s₁)

theorem plain_of_same {x : Replay α} (h : ∀ s, (x.after s).table = s.table) : x.Plain := by
  intro s
  rw [h]
  exact .refl _

theorem plain_pure (a : α) : (pure a : Replay α).Plain := plain_of_same fun _ => rfl

theorem plain_check (outcome : Except Fault α) : (check outcome).Plain :=
  plain_of_same fun _ => by cases outcome <;> rfl

theorem plain_get {f : Session → Replay α} (h : ∀ s, (f s).Plain) : (get >>= f).Plain := fun s => h s s

theorem plain_build {b : Build α} (hb : b.Adds Node.Plain) : (build b).Plain := fun s => hb s.table

theorem plain_readRegister (view : RegisterView) : (readRegister view).Plain := by
  intro s
  cases hrun : readRegister view s with
  | error fault s₁ =>
    rw [after_error hrun, readRegister_error hrun]
    exact plain_pure () s
  | ok v s₁ =>
    obtain ⟨owner, -, -, rfl⟩ := readRegister_ok hrun
    rw [after_ok hrun]
    exact (view.adds_extract owner s.table).plain

theorem plain_readMemory (address : Word) (bytes : Nat) : (readMemory address bytes).Plain := by
  intro s
  cases hrun : readMemory address bytes s with
  | error fault s₁ =>
    rw [after_error hrun, (readMemory_error hrun).2]
    exact plain_pure () s
  | ok v s₁ =>
    rw [after_ok hrun]
    obtain ⟨-, access, -, hstep⟩ := readMemory_ok hrun
    obtain ⟨skip, table, registers, memory, executed⟩ := s₁
    cases hstep with
    | exact => exact plain_pure () s
    | fresh => exact (Build.makes_symbol _).adds s.table
    | within => exact ((Memory.makes_readLane _ _ _).adds s.table).plain

theorem plain_readNamed (name : String) : (readNamed name).Plain :=
  (plain_check _).bind fun view => plain_readRegister view

theorem plain_read (insn : Instruction) (o : Operand) : (read insn o).Plain := by
  cases o with
  | immediate value => exact plain_build (Build.makes_constant value).adds.plain
  | register name bits => exact plain_readNamed name
  | memory m => exact (plain_check _).bind fun address => plain_readMemory address _

theorem plain_readSource (insn : Instruction) (source : Source) : (readSource insn source).Plain := by
  cases source with
  | operand o => exact plain_read insn o
  | slot address bytes => exact plain_readMemory address bytes
  | register r => exact plain_readRegister _

theorem plain_readSources (insn : Instruction) (sources : List Source) : (readSources insn sources).Plain := by
  unfold readSources
  induction sources with
  | nil => exact plain_pure _
  | cons source rest ih =>
    rw [List.mapM_cons]
    exact (plain_readSource insn source).bind fun _ => ih.bind fun _ => plain_pure _

theorem plain_exchange (insn : Instruction) (x y : Operand) : (prepare insn (.exchange x y)).Plain :=
  (plain_get fun _ => plain_check _).bind fun _ => (plain_get fun _ => plain_check _).bind fun _ =>
    (plain_read insn x).bind fun _ => (plain_read insn y).bind fun _ => plain_pure _

theorem Plain.regular {x : Replay α} (hx : x.Plain) (h : s.Aligned) : (x.after s).table.Regular :=
  h.regular.of_plain h.wellFormed (hx s)

/-! ### Computations that keep sessions aligned -/

structure Aligns (s : Session) (x : Replay α) (post : Session → α → Prop) : Prop where
  aligned : (x.after s).Aligned
  grows : s.table.Grows (x.after s).table
  post : ∀ a s', x s = .ok a s' → post s' a

theorem Aligns.bind {x : Replay α} {f : α → Replay β} {P : Session → α → Prop} {Q : Session → β → Prop}
    (hx : Aligns s x P)
    (hf : ∀ a s', s'.Aligned → s.table.Grows s'.table → P s' a → Aligns s' (f a) Q) : Aligns s (x >>= f) Q := by
  have haligned := hx.aligned
  have hgrows := hx.grows
  cases hrun : x s with
  | error fault s₁ =>
    rw [after_error hrun] at haligned hgrows
    refine ⟨?_, ?_, fun b s' h => ?_⟩
    · rwa [after_bind_error hrun]
    · rwa [after_bind_error hrun]
    · cases (bind_run_error hrun).symm.trans h
  | ok a s₁ =>
    rw [after_ok hrun] at haligned hgrows
    have hrest := hf a s₁ haligned hgrows (hx.post a s₁ hrun)
    refine ⟨?_, ?_, fun b s' h => hrest.post b s' ((bind_run hrun).symm.trans h)⟩
    · rw [after_bind_ok hrun]
      exact hrest.aligned
    · rw [after_bind_ok hrun]
      exact hgrows.trans hrest.grows

/-- A session in step with itself stays sound, so that only its table is left to look at. -/
theorem aligns_of_lockstep {x : Replay α} {post : Session → Session → α → α → Prop} (h : Lockstep 0 s s x x post)
    (hreg : (x.after s).table.Regular) : Aligns s x fun s' a => post s' s' a a where
  aligned := ⟨h.after.left, hreg⟩
  grows := by
    cases h with
    | ok hs _ hc _ => rw [after_ok hs]; exact hc.left
    | error hs _ hc => rw [after_error hs]; exact hc.left
  post a s' hs := (h.of_ok hs hs).2

theorem aligns_pure (h : s.Aligned) {a : α} {P : Session → α → Prop} (hp : P s a) : Aligns s (pure a) P :=
  ⟨h, .refl _, fun _ _ hrun => by cases hrun; exact hp⟩

theorem aligns_get {f : Session → Replay α} {P : Session → α → Prop} (h : Aligns s (f s) P) : Aligns s (get >>= f) P :=
  ⟨h.aligned, h.grows, h.post⟩

theorem aligns_check (h : s.Aligned) (outcome : Except Fault α) : Aligns s (check outcome) fun _ a => outcome = .ok a := by
  cases outcome with
  | error fault => exact ⟨h, .refl _, nofun⟩
  | ok a => exact aligns_pure h rfl

/-! ### Reading -/

theorem aligns_readRegister (h : s.Aligned) (view : RegisterView) :
    Aligns s (readRegister view) fun s' v => Both s' s' v v :=
  aligns_of_lockstep (lockstep_readRegister (.refl h.toSound) view) ((plain_readRegister view).regular h)

theorem aligns_readSources (h : s.Aligned) (insn : Instruction) {sources : List Source}
    (hshort : ∀ address bytes, .slot address bytes ∈ sources → bytes < 2 ^ 29) :
    Aligns s (readSources insn sources) fun s' vs => List.Forall₂ (Both s' s') vs vs :=
  aligns_of_lockstep (lockstep_readSources (.refl h.toSound) insn hshort) ((plain_readSources insn sources).regular h)

/-! ### Combining -/

/-- A shift is the only combination that builds a hybrid word. -/
theorem aligns_combine (h : s.Aligned) {a : Action}
    (ha : ∀ opcode target count, a = .shift opcode target count → ∃ d, Direction.ofOpcode? opcode = some d)
    {vs : List ValueId} (hvs : List.Forall₂ (Both s s) vs vs) :
    Aligns s (combine a vs) fun s' v => Both s' s' v v := by
  refine aligns_of_lockstep (lockstep_combine (.refl h.toSound) ha hvs) ?_
  have plain {b : Build ValueId} (hb : b.Adds Node.Plain) : ((build b).after s).table.Regular := hb.regular h.wellFormed h.regular
  cases a, vs using combine_cases with
  | built a vs b hrun hb =>
    rw [hrun]
    exact plain hb.makes.adds.plain
  | shift opcode target count v =>
    obtain ⟨d, hd⟩ := ha opcode target count rfl
    obtain ⟨hv, -⟩ := List.forall₂_cons.mp hvs
    show ((if s.table.isHybrid v then attempt _ else build _ : Replay ValueId).after s).table.Regular
    split
    · rename_i hhybrid
      obtain ⟨pieces, hp⟩ := Option.isSome_iff_exists.mp hhybrid
      obtain ⟨w, hw⟩ := h.wellFormed.exists_means (R := .total) (σ := fun _ => 0) (fun _ _ => ⟨_, rfl⟩) hv.1
      obtain ⟨id', -, -, hreg, -⟩ := (Build.shifted_shiftHybrid h.wellFormed h.regular hp hw hd count).post
      rw [after_attempt]
      exact hreg
    · exact plain (makes_withConstant _ _ _).adds.plain
  | first a v vs hrun =>
    rw [hrun]
    exact h.regular
  | none a hrun =>
    rw [hrun]
    exact h.regular

/-! ### Writing -/

theorem regular_writeRegister (h : s.Aligned) (view : RegisterView) {v : ValueId} (hv : v < s.table.size) :
    ((writeRegister view v).after s).table.Regular := by
  cases hrun : writeRegister view v s with
  | error fault s₁ =>
    rw [after_error hrun, (Session.writeRegister_error hrun).2]
    exact h.regular
  | ok u s₁ =>
    rw [after_ok hrun]
    obtain ⟨_, _, hplan, -⟩ := bind_ok (get_bind_ok hrun)
    obtain ⟨b, hb, -⟩ := plan_ok hplan
    rcases full_or_owner hb with ⟨r, rfl⟩ | ⟨owner, ho⟩
    · cases hrun
      exact h.regular
    · rw [writeRegister_ok ho hrun]
      exact view.regular_merge h.wellFormed h.regular hv owner

theorem regular_writeMemory (h : s.Aligned) (address : Word) (bytes : Nat) (v : ValueId) :
    ((writeMemory address bytes v).after s).table.Regular := by
  cases hrun : writeMemory address bytes v s with
  | error fault s₁ =>
    rw [after_error hrun, (Session.writeMemory_error hrun).2]
    exact h.regular
  | ok u s₁ =>
    rw [after_ok hrun]
    obtain ⟨-, access, -, hstep⟩ := writeMemory_ok h.separated hrun
    obtain ⟨skip, table, registers, memory, executed⟩ := s₁
    cases hstep with
    | whole => exact h.regular
    | within => exact (Memory.makes_writeLane _ _ _).adds.plain.regular h.wellFormed h.regular

theorem aligns_write (h : s.Aligned) {place : Place} (hplace : place.Short) {v : ValueId} (hv : Both s s v v) :
    Aligns s (write v place) fun _ _ => True := by
  refine aligns_of_lockstep (lockstep_write (.refl h.toSound) hplace hv) ?_
  cases place with
  | register view => exact regular_writeRegister h view hv.1
  | memory address bytes => exact regular_writeMemory h address bytes v

theorem aligns_commit (h : s.Aligned) {ws : List (Place × ValueId)} (hready : List.Forall₂ (Ready s s) ws ws) :
    Aligns s (commit ws) fun _ _ => True := by
  induction ws generalizing s with
  | nil => exact aligns_pure h trivial
  | cons w ws ih =>
    obtain ⟨⟨-, hshort, hv⟩, hrest⟩ := List.forall₂_cons.mp hready
    refine (aligns_write h hshort hv).bind fun _ s' h' g _ => ih h' (hrest.imp fun p q hr => ?_)
    exact ⟨hr.1, hr.2.1, g.lt hr.2.2.1, g.lt hr.2.2.2⟩

/-! ### Instructions -/

theorem aligns_prepare (h : s.Aligned) (insn : Instruction) :
    Aligns s (prepare insn (.ofInstruction insn)) fun s' ws => List.Forall₂ (Ready s' s') ws ws := by
  refine aligns_of_lockstep (lockstep_prepare (.refl h.toSound) insn) ?_
  have hdirected := Action.exists_direction insn
  generalize Action.ofInstruction insn = a at hdirected
  cases a using Action.plan_cases with
  | nothing => exact h.regular
  | exchange x y => exact (plain_exchange insn x y).regular h
  | planned a hn hx =>
    rw [prepare_eq insn hn hx]
    have hplan : Aligns s (do
        let place ← check ((← get).locate insn a)
        let vs ← readSources insn (a.sources insn)
        let v ← combine a vs
        return [(place, v)]) fun _ _ => True :=
      aligns_get ((aligns_check h _).bind fun _ _ h₁ _ _ =>
        (aligns_readSources h₁ insn fun _ _ hin => Action.slot_short hin).bind fun _ _ h₂ _ hvs =>
          (aligns_combine h₂ hdirected hvs).bind fun _ _ h₃ _ _ => aligns_pure h₃ trivial)
    exact hplan.aligned.regular

theorem aligns_step (h : s.Aligned) (insn : Instruction) : Aligns s (step insn) fun _ _ => True := by
  refine aligns_get ?_
  split
  · exact aligns_pure h trivial
  · rw [perform_eq_commit]
    refine ((aligns_prepare h insn).bind fun _ s₁ h₁ _ hready => aligns_commit h₁ hready).bind fun _ s₂ h₂ _ _ => ?_
    exact ⟨h₂.count _, .refl _, fun _ _ _ => trivial⟩

theorem aligns_readNamed (h : s.Aligned) (name : String) : Aligns s (readNamed name) fun s' v => Both s' s' v v :=
  (aligns_check h _).bind fun view _ h' _ _ => aligns_readRegister h' view

end Replay

/-! ## Histories -/

namespace Session

variable {s : Session}

theorem Aligned.event (h : s.Aligned) (e : Event) : (e.after s).Aligned := by
  cases e with
  | step insn => exact (Replay.aligns_step h insn).aligned
  | look name => exact (Replay.aligns_readNamed h name).aligned

theorem aligned_after (skip : SkipSet) (start : Start) (events : List Event) :
    ((start.session skip).after events).Aligned := by
  refine after_preserves (fun _ e hs => hs.event e) ?_ events
  refine start.of_seed (fun contents => ?_) ?_ fun s r hs => ?_
  · exact ⟨(entry_ofSnapshot skip contents).sound, regular_of_not_hybrid (isHybrid_ofSnapshot skip contents)⟩
  · exact ⟨sound_empty skip, regular_of_not_hybrid fun _ => Table.isHybrid_of_size_le (Nat.zero_le _)⟩
  · exact ⟨hs.toSound.seed r, (Build.makes_symbol _).adds.regular hs.wellFormed hs.regular⟩

end Session

/-! ## Shifts of whole registers -/

theorem Action.ofInstruction_shift {insn : Instruction} {name : String} {bits : BitVec 32} {count : Word}
    (hm : insn.mnemonic ∈ ["shl", "sal", "shr"])
    (ho : insn.operands = [.register name bits, .immediate count]) :
    Action.ofInstruction insn = .shift (.ofMnemonic insn.mnemonic) (.register name bits) count := by
  rw [Action.ofInstruction, ho]
  simp only [List.mem_cons, List.not_mem_nil, or_false] at hm
  rcases hm with hm | hm | hm <;> rw [hm] <;> rfl

namespace Replay

variable {s : Session} {insn : Instruction} {name : String} {bits : BitVec 32} {count : Word} {r : Register}
  {id id' : ValueId} {opcode : Opcode}

theorem resolve_full (hname : RegisterView.ofName? name = some (.full r)) :
    resolve insn (.register name bits) s = .ok (.register (.full r)) s := by
  show check (s.destination insn (.register name bits)) s = _
  rw [Session.destination, RegisterFile.view, hname]
  rfl

theorem read_full (hname : RegisterView.ofName? name = some (.full r)) (hid : s.registers.get? r = some id) :
    read insn (.register name bits) s = .ok id s := by
  have hview : check (RegisterFile.view name) s = .ok (.full r) s := by rw [RegisterFile.view, hname]; rfl
  show readNamed name s = _
  rw [readNamed, bind_run hview]
  show plan ((s.registers.owner r).map fun owner => RegisterView.extract owner (.full r)) s = _
  rw [RegisterFile.owner, hid]
  rfl

/-- A hybrid word in a register is shifted piece by piece. -/
theorem perform_shift_full (hname : RegisterView.ofName? name = some (.full r)) (hid : s.registers.get? r = some id)
    (hhybrid : s.table.isHybrid id = true) (hrun : ((Build.shiftHybrid id opcode count).run s.table).1 = .ok id') :
    perform insn (.shift opcode (.register name bits) count) s = .ok ()
      { s with table := ((Build.shiftHybrid id opcode count).run s.table).2, registers := s.registers.set r id' } := by
  have hshift : shiftValue opcode id count s = .ok id'
      { s with table := ((Build.shiftHybrid id opcode count).run s.table).2 } := by
    show (if s.table.isHybrid id then attempt _ else build _ : Replay ValueId) s = _
    rw [if_pos hhybrid, attempt_run hrun]
  rw [perform, bind_run (resolve_full hname), bind_run (read_full hname hid), bind_run hshift]
  rfl

/-- On the way for two operands of any kind, the opcode is applied to the word and the constant. -/
theorem perform_binary_full (hname : RegisterView.ofName? name = some (.full r))
    (hid : s.registers.get? r = some id) :
    perform insn (.binary opcode (.register name bits) (.immediate count)) s = .ok ()
      { s with table := (withConstant opcode id count s.table).2
               registers := s.registers.set r (withConstant opcode id count s.table).1 } := by
  have hconstant : read insn (.immediate count) s = .ok s.table.size
      { s with table := (Build.constant count s.table).2 } := rfl
  have hword : read insn (.register name bits) { s with table := (Build.constant count s.table).2 } = .ok id
      { s with table := (Build.constant count s.table).2 } := read_full hname hid
  exact (bind_run (resolve_full hname)).trans ((bind_run hconstant).trans (bind_run hword))

end Replay

namespace Session

/-- The hybrid words of a session, after any history. Constant pieces were cut where they stand,
    and any other piece depends on an input and is not hybrid. A register with a hybrid word that
    is shifted by a constant has the shifted word, as it would have if the opcode were applied to
    the word as a whole. -/
theorem hybrid_words_stay_aligned_and_shift_exactly (skip : SkipSet) (start : Start) (events : List Event) :
    let s := (start.session skip).after events
    (∀ id pieces, s.table.pieces? id = some pieces → ∀ e ∈ pieces.entries,
      (∃ b, s.table.constant? e.2 = some b ∧ b.range = e.1) ∨
        s.table.isSymbolic e.2 = true ∧ s.table.isHybrid e.2 = false) ∧
    ∀ insn name bits count r id, insn.mnemonic ∈ ["shl", "sal", "shr"] →
      insn.operands = [.register name bits, .immediate count] → RegisterView.ofName? name = some (.full r) →
      s.registers.get? r = some id → s.table.isHybrid id = true →
      ∃ s₁ id₁ s₂ id₂, Replay.perform insn (.ofInstruction insn) s = .ok () s₁ ∧
        (Replay.step insn s = if s.skip.contains insn.mnemonic then .ok () s
          else .ok () { s₁ with executed := s.executed + 1 }) ∧
        Replay.perform insn (.binary (.ofMnemonic insn.mnemonic) (.register name bits) (.immediate count)) s =
          .ok () s₂ ∧
        s₁.registers.get? r = some id₁ ∧ s₂.registers.get? r = some id₂ ∧
        ∀ σ w, s.table.eval σ id = .ok w → ∃ w', (Opcode.ofMnemonic insn.mnemonic).apply [w, count] = some w' ∧
          s₁.table.eval σ id₁ = .ok w' ∧ s₂.table.eval σ id₂ = .ok w' := by
  intro s
  have hs : s.Aligned := aligned_after skip start events
  refine ⟨fun id pieces hp e he => ?_, fun insn name bits count r id hm ho hname hid hhybrid => ?_⟩
  · have hpiece := hs.regular id pieces hp e he
    unfold Table.RegularPiece at hpiece
    split at hpiece
    · rename_i b hb
      exact .inl ⟨b, hb, hpiece⟩
    · exact .inr hpiece.2
  · have haction := Action.ofInstruction_shift hm ho
    obtain ⟨d, hd⟩ := Action.exists_direction insn _ _ _ haction
    obtain ⟨pieces, hp⟩ := Option.isSome_iff_exists.mp hhybrid
    obtain ⟨id', hid', -⟩ := (Build.maintains_shiftHybrid hs.wellFormed hp hd count).post
    have hperform : Replay.perform insn (.ofInstruction insn) s = .ok ()
        { s with table := ((Build.shiftHybrid id (.ofMnemonic insn.mnemonic) count).run s.table).2
                 registers := s.registers.set r id' } := by
      rw [haction]
      exact Replay.perform_shift_full hname hid hhybrid hid'
    refine ⟨_, id', _, (Replay.withConstant (.ofMnemonic insn.mnemonic) id count s.table).1, hperform, ?_,
      Replay.perform_binary_full hname hid, ?_, ?_, fun σ w hw => ?_⟩
    · split
      · exact step_skipped ‹_›
      · rename_i hskip
        rw [step_performed (Bool.eq_false_iff.mpr hskip), bind_run hperform]
        rfl
    · exact (get?_set ..).trans (if_pos rfl)
    · exact (get?_set ..).trans (if_pos rfl)
    · have hmeans : s.table.Means .standard σ id w := ⟨hs.registers_lt r id hid, hw⟩
      have happly := Direction.apply_eq hd w count
      obtain ⟨id'', hid'', -, -, hshifted⟩ := (Build.shifted_shiftHybrid hs.wellFormed hs.regular hp hmeans hd count).post
      cases hid'.symm.trans hid''
      exact ⟨_, happly, hshifted.means.2, (Build.gives_withConstant hmeans happly).post.2⟩

/-- A byte comes into a known word, which is shifted up and looked at. -/
def byteShiftedUp : List Event := [
  .step { address := 0x1000, mnemonic := "mov", readAddress := some 0x100
          operands := [.register "ah" 8, .memory { form := .base .ebx, bits := 8 }] },
  .step { address := 0x1002, mnemonic := "sal", operands := [.register "eax" 32, .immediate 4] },
  .look "ah"]

/-- It shifts the byte out at the low end; the count is taken modulo 32. -/
def shiftDown : Instruction :=
  { address := 0x1005, mnemonic := "shr", operands := [.register "eax" 32, .immediate 46] }

theorem a_split_register_is_shifted_down :
    let s := ((Start.words (Vector.replicate 8 0x12345678)).session (.ofList ["cmp"])).after byteShiftedUp
    s.registers.get? .eax = some 15 ∧ s.table.isHybrid 15 = true ∧ s.table.eval (fun _ => 0xab) 15 = .ok 0x234ab780 ∧
      ∃ s₁ id₁, Replay.step shiftDown s = .ok () s₁ ∧ s₁.registers.get? .eax = some id₁ ∧
        s₁.table.eval (fun _ => 0xab) id₁ = .ok 0x8d2a := by
  intro s
  have heax : s.registers.get? .eax = some 15 := by decide +kernel
  have hhybrid : s.table.isHybrid 15 = true := by decide +kernel
  have heval : s.table.eval (fun _ => 0xab) 15 = .ok 0x234ab780 := by decide +kernel
  have hskip : s.skip.contains "shr" = false := by decide +kernel
  obtain ⟨-, hshift⟩ := hybrid_words_stay_aligned_and_shift_exactly (.ofList ["cmp"])
    (.words (Vector.replicate 8 0x12345678)) byteShiftedUp
  obtain ⟨s₁, id₁, s₂, id₂, -, hstep, -, hid₁, -, hword⟩ := hshift shiftDown "eax" 32 46 .eax 15 (by decide) rfl
    (by decide) heax hhybrid
  obtain ⟨w', happly, hw', -⟩ := hword (fun _ => 0xab) 0x234ab780 heval
  have hresult : w' = 0x8d2a := Option.some.inj (happly.symm.trans (by decide))
  have hperformed := hstep.trans (if_neg (Bool.eq_false_iff.mp hskip))
  exact ⟨heax, hhybrid, heval, _, id₁, hperformed, hid₁, hresult ▸ hw'⟩

end Session

end TraceReplay
