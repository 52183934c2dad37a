/-
  TraceReplay.Proofs.Replay.Effects — what an instruction does to a session, with or without a
  fault.

  First it reads, and learns (`Session.Learns`): bytes that no cell has become an input with a
  cell of its own, and all else stays. Which read made an input is kept (`Replay.Makes`). Then it
  writes (`Session.Writes`): a register that has the place, or cells that meet it, and no input is
  made. `Session.step_effect` puts both together and says how an instruction may end. What holds
  of every instruction is derived from it.

  A history is what happens to a session after it was set up (`Session.after`): instructions
  and looks at registers, any of which may fail. Sessions stay sound (`Session.Sound.after`).
-/

import TraceReplay.Proofs.Replay.Binding
import TraceReplay.Proofs.Replay.Frame

namespace TraceReplay

/-! ## Learning -/

namespace Session

def NewInput (s s' : Session) (id : ValueId) (range : AddressRange) : Prop :=
  (id, range) ∈ s'.memory.inputs.entries ∧ (id, range) ∉ s.memory.inputs.entries

/-- The second session knows the first, and new inputs from memory: each is a new value, and has a
    cell of its own. -/
structure Learns (s s' : Session) : Prop where
  skip : s'.skip = s.skip
  registers : s'.registers = s.registers
  executed : s'.executed = s.executed
  grows : s.table.Grows s'.table
  kept : ∀ e ∈ s.memory.inputs.entries, e ∈ s'.memory.inputs.entries
  size_le : ∀ id range, s.NewInput s' id range → s.table.size ≤ id
  mem_cells_iff : ∀ range id, (range, id) ∈ s'.memory.cells.entries ↔
    (range, id) ∈ s.memory.cells.entries ∨ s.NewInput s' id range
  isInput_iff : ∀ id, s'.table.IsInput id ↔ s.table.IsInput id ∨ ∃ range, s.NewInput s' id range

variable {s s' s'' : Session} {id : ValueId} {range : AddressRange}

theorem not_newInput_self : ¬ s.NewInput s id range := fun h => h.2 h.1

theorem newInput_trans_iff (h : ∀ e ∈ s.memory.inputs.entries, e ∈ s'.memory.inputs.entries)
    (h' : ∀ e ∈ s'.memory.inputs.entries, e ∈ s''.memory.inputs.entries) :
    s.NewInput s'' id range ↔ s.NewInput s' id range ∨ s'.NewInput s'' id range := by
  constructor
  · intro hnew
    by_cases hin : (id, range) ∈ s'.memory.inputs.entries
    · exact .inl ⟨hin, hnew.2⟩
    · exact .inr ⟨hnew.1, hin⟩
  · rintro (hnew | hnew)
    · exact ⟨h' _ hnew.1, hnew.2⟩
    · exact ⟨hnew.1, fun hin => hnew.2 (h _ hin)⟩

/-- Values that are no inputs may be added. -/
theorem learns_table {t : Table} (h : s.table.Derives t) : s.Learns { s with table := t } where
  skip := rfl
  registers := rfl
  executed := rfl
  grows := h.grows
  kept _ he := he
  size_le _ _ hnew := absurd hnew not_newInput_self
  mem_cells_iff _ _ := (or_iff_left not_newInput_self).symm
  isInput_iff id := by
    rw [h.isInput_iff id]
    exact (or_iff_left fun ⟨_, hnew⟩ => not_newInput_self hnew).symm

theorem Learns.refl (s : Session) : s.Learns s := learns_table (.refl s.table)

theorem Learns.trans (h : s.Learns s') (h' : s'.Learns s'') : s.Learns s'' where
  skip := h'.skip.trans h.skip
  registers := h'.registers.trans h.registers
  executed := h'.executed.trans h.executed
  grows := h.grows.trans h'.grows
  kept e he := h'.kept e (h.kept e he)
  size_le id range hnew := by
    rcases (newInput_trans_iff h.kept h'.kept).mp hnew with hnew | hnew
    · exact h.size_le id range hnew
    · exact Nat.le_trans h.grows.size_le (h'.size_le id range hnew)
  mem_cells_iff range id := by
    rw [h'.mem_cells_iff, h.mem_cells_iff, newInput_trans_iff h.kept h'.kept, or_assoc]
  isInput_iff id := by
    simp only [h'.isInput_iff, h.isInput_iff, newInput_trans_iff h.kept h'.kept, exists_or, or_assoc]

end Session

namespace Replay

open Session (Learns NewInput)

variable {s s' s₁ : Session} {insn : Instruction} {source : Source}

/-- A read learns its bytes if no cell has any of them, and else nothing. -/
theorem readMemory_learns (hs : s.Tidy) {address : Word} {bytes : Nat} {v : ValueId}
    (h : readMemory address bytes s = .ok v s') :
    s.Learns s' ∧ ∀ id range, s.NewInput s' id range → id = v ∧ id = s.table.size ∧
      AddressRange.ofAccess? address bytes = some range ∧ s'.table.width id = bytes * 8 := by
  obtain ⟨heq, access, ha, hstep⟩ := readMemory_ok h
  obtain ⟨skip, table, registers, memory, executed⟩ := s'
  cases heq
  cases hstep with
  | exact => exact ⟨.refl s, fun _ _ hnew => absurd hnew Session.not_newInput_self⟩
  | within =>
    exact ⟨Session.learns_table ((Memory.makes_readLane _ _ _).adds s.table).derived, fun _ _ hnew =>
      absurd hnew Session.not_newInput_self⟩
  | fresh hfresh hrep hinputs =>
    have hkept : ∀ e ∈ s.memory.inputs.entries, e ∈ memory.inputs.entries := by
      rw [hinputs]
      exact fun e he => SortedMap.mem_insert.mpr (.inr ⟨he, Nat.ne_of_lt (hs.inputs_lt e he)⟩)
    have hnew (id : ValueId) (range : AddressRange) :
        (id, range) ∈ memory.inputs.entries ∧ (id, range) ∉ s.memory.inputs.entries ↔
          id = s.table.size ∧ range = access := by
      rw [hinputs, SortedMap.mem_insert, Prod.mk.injEq]
      constructor
      · rintro ⟨hid | ⟨hin, -⟩, hout⟩
        · exact hid
        · exact absurd hin hout
      · rintro ⟨rfl, rfl⟩
        exact ⟨.inl ⟨rfl, rfl⟩, fun hin => Nat.lt_irrefl _ (hs.inputs_lt _ hin)⟩
    refine ⟨⟨rfl, rfl, rfl, Table.grows_push _ _, hkept, fun id range h => ?_, fun range id => ?_, fun id => ?_⟩,
      fun id range h => ?_⟩
    · exact Nat.le_of_eq ((hnew id range).mp h).1.symm
    · rw [NewInput, hnew, hrep.mem_iff, Prod.mk.injEq]
      constructor
      · rintro (⟨rfl, rfl⟩ | ⟨hin, -⟩)
        · exact .inr ⟨rfl, rfl⟩
        · exact .inl hin
      · rintro (hin | ⟨rfl, rfl⟩)
        · exact .inr ⟨hin, hfresh _ hin⟩
        · exact .inl ⟨rfl, rfl⟩
    · have hinput : (s.table.push ⟨bytes * 8, .symbol, true, none⟩).IsInput id ↔ s.table.IsInput id ∨
          id = s.table.size := Table.isInput_push_iff.trans (or_congr_right (and_iff_left rfl))
      simp only [NewInput, hnew, exists_and_left, exists_eq, and_true]
      exact hinput
    · obtain ⟨rfl, rfl⟩ := (hnew id range).mp h
      have hget := Table.get?_push_self s.table ⟨bytes * 8, .symbol, true, none⟩
      exact ⟨rfl, rfl, ha, congrArg (fun v => (v.map (·.width)).getD 0) hget⟩

theorem readRegister_learns {view : RegisterView} {v : ValueId} (h : readRegister view s = .ok v s') :
    s.Learns s' ∧ s'.memory = s.memory := by
  obtain ⟨owner, -, -, rfl⟩ := readRegister_ok h
  exact ⟨Session.learns_table (view.adds_extract owner s.table).derived, rfl⟩

/-- A source that is read makes the input that it gives, for the bytes that it names. -/
theorem readSource_learns (hs : s.Tidy) {v : ValueId} (h : readSource insn source s = .ok v s') :
    s.Learns s' ∧ ∀ id range, s.NewInput s' id range → ∃ address bytes,
      source.access? insn = some (address, bytes) ∧ AddressRange.ofAccess? address bytes = some range ∧
        readMemory address bytes s = .ok id s' ∧ id = s.table.size ∧ s'.table.width id = bytes * 8 := by
  have memory {address : Word} {bytes : Nat} (ha : source.access? insn = some (address, bytes))
      (h : readMemory address bytes s = .ok v s') : s.Learns s' ∧ ∀ id range, s.NewInput s' id range →
        ∃ address bytes, source.access? insn = some (address, bytes) ∧
          AddressRange.ofAccess? address bytes = some range ∧ readMemory address bytes s = .ok id s' ∧
          id = s.table.size ∧ s'.table.width id = bytes * 8 := by
    obtain ⟨hl, hnew⟩ := readMemory_learns hs h
    refine ⟨hl, fun id range hid => ?_⟩
    obtain ⟨rfl, hsize, hrange, hwidth⟩ := hnew id range hid
    exact ⟨address, bytes, ha, hrange, h, hsize, hwidth⟩
  have register {view : RegisterView} (h : readRegister view s = .ok v s') : s.Learns s' ∧
      ∀ id range, s.NewInput s' id range → ∃ address bytes, source.access? insn = some (address, bytes) ∧
        AddressRange.ofAccess? address bytes = some range ∧ readMemory address bytes s = .ok id s' ∧
        id = s.table.size ∧ s'.table.width id = bytes * 8 := by
    obtain ⟨hl, hm⟩ := readRegister_learns h
    refine ⟨hl, fun id range hnew => ?_⟩
    rw [NewInput, hm] at hnew
    exact absurd hnew.1 hnew.2
  cases source with
  | slot address bytes => exact memory rfl h
  | register r => exact register h
  | operand o =>
    cases o with
    | immediate value =>
      cases h
      exact ⟨Session.learns_table ((Build.makes_constant value).adds s.table).derived, fun _ _ hnew =>
        absurd hnew Session.not_newInput_self⟩
    | register name bits =>
      obtain ⟨view, s₁, hcheck, hread⟩ := bind_ok h
      obtain ⟨-, rfl⟩ := check_ok hcheck
      exact register hread
    | memory m =>
      obtain ⟨address, s₁, hcheck, hread⟩ := bind_ok h
      obtain ⟨haddress, rfl⟩ := check_ok hcheck
      exact memory (by rw [Source.access?, haddress]) hread

/-- Of the sources, one that is reached reads so many bytes, and these become the input. -/
def Makes (insn : Instruction) (sources : List Source) (s : Session) (id : ValueId) (range : AddressRange)
    (bytes : Nat) : Prop :=
  ∃ earlier source later vs s₁ address s₂, sources = earlier ++ source :: later ∧
    readSources insn earlier s = .ok vs s₁ ∧ source.access? insn = some (address, bytes) ∧
    AddressRange.ofAccess? address bytes = some range ∧ readMemory address bytes s₁ = .ok id s₂ ∧ id = s₁.table.size

/-- Which read made an input does not change when something is read before. -/
theorem Makes.cons {rest : List Source} {v : ValueId} (hread : readSource insn source s = .ok v s₁) {id : ValueId}
    {range : AddressRange} {bytes : Nat} (h : Makes insn rest s₁ id range bytes) :
    Makes insn (source :: rest) s id range bytes := by
  obtain ⟨earlier, next, later, vs, s₂, address, s₃, rfl, hvs, hmakes⟩ := h
  refine ⟨source :: earlier, next, later, v :: vs, s₂, address, s₃, rfl, ?_, hmakes⟩
  rw [readSources_cons hread]
  show EStateM.map _ _ s₁ = _
  rw [EStateM.map, hvs]

/-- Reading the sources, up to the first that fails, learns what these make. -/
theorem after_readSources_learns (hs : s.Tidy) (insn : Instruction) (sources : List Source) :
    s.Learns ((readSources insn sources).after s) ∧ ∀ id range,
      s.NewInput ((readSources insn sources).after s) id range → ∃ bytes, Makes insn sources s id range bytes ∧
        ((readSources insn sources).after s).table.width id = bytes * 8 := by
  induction sources generalizing s with
  | nil => exact ⟨.refl s, fun _ _ hnew => absurd hnew Session.not_newInput_self⟩
  | cons source rest ih =>
    cases hread : readSource insn source s with
    | error fault s₁ =>
      rw [after_error (readSources_cons_error hread), readSource_error hread]
      exact ⟨.refl s, fun _ _ hnew => absurd hnew Session.not_newInput_self⟩
    | ok v s₁ =>
      have htidy := (extending_readSource insn source s v s₁ hs hread).tidy
      obtain ⟨hl, hmade⟩ := readSource_learns hs hread
      obtain ⟨hrest, hmade'⟩ := ih htidy
      rw [after_readSources_cons hread]
      refine ⟨hl.trans hrest, fun id range hnew => ?_⟩
      rcases (Session.newInput_trans_iff hl.kept hrest.kept).mp hnew with hnew | hnew
      · obtain ⟨address, bytes, ha, hrange, hrun, hid, hwidth⟩ := hmade id range hnew
        refine ⟨bytes, ⟨[], source, rest, [], s, address, s₁, rfl, rfl, ha, hrange, hrun, hid⟩, ?_⟩
        have hlt : id < s₁.table.size := htidy.inputs_lt _ hnew.1
        rw [hrest.grows.width hlt, hwidth]
      · obtain ⟨bytes, hmakes, hwidth⟩ := hmade' id range hnew
        exact ⟨bytes, hmakes.cons hread, hwidth⟩

/-- Combining makes no input. -/
theorem after_combine_derives (a : Action) (vs : List ValueId) (s : Session) :
    ∃ t, s.table.Derives t ∧ (combine a vs).after s = { s with table := t } := by
  cases a, vs using combine_cases with
  | built a vs b hrun hb => exact ⟨_, (hb.makes.adds s.table).derived, by rw [hrun]; rfl⟩
  | shift opcode _ count v =>
    show ∃ t, s.table.Derives t ∧ (if s.table.isHybrid v then attempt _ else build _ : Replay ValueId).after s = _
    split
    · exact ⟨_, Build.adds_shiftHybrid v opcode count s.table, after_attempt _ s⟩
    · exact ⟨_, ((makes_withConstant opcode v count).adds s.table).derived, rfl⟩
  | first a v vs hrun => exact ⟨s.table, .refl _, by rw [hrun]; rfl⟩
  | none a hrun => exact ⟨s.table, .refl _, by rw [hrun]; rfl⟩

theorem after_bind_ok {α β : Type} {x : Replay α} {f : α → Replay β} {a : α} (h : x s = .ok a s₁) :
    (x >>= f).after s = (f a).after s₁ := by
  rw [after, after, bind_run h]

theorem after_bind_error {α β : Type} {x : Replay α} {f : α → Replay β} {fault : Fault} (h : x s = .error fault s₁) :
    (x >>= f).after s = s₁ := after_error (bind_run_error h)

/-- What is built from the sources once they are read, or the fault that they stop at. -/
theorem after_readSources_bind {α : Type} {f : List ValueId → Replay α} {sources : List Source}
    (hf : ∀ vs s, ∃ t, s.table.Derives t ∧ (f vs).after s = { s with table := t }) :
    ∃ t, ((readSources insn sources).after s).table.Derives t ∧
      (readSources insn sources >>= f).after s = { (readSources insn sources).after s with table := t } := by
  cases hrun : readSources insn sources s with
  | error fault s₁ => exact ⟨_, .refl _, by rw [after_bind_error hrun, after_error hrun]⟩
  | ok vs s₁ =>
    rw [after_bind_ok hrun, after_ok hrun]
    exact hf vs s₁

/-- Up to its writes, an instruction does nothing, or reads its sources and builds on them. -/
theorem after_prepare (insn : Instruction) (a : Action) (s : Session) :
    (prepare insn a).after s = s ∨ ∃ t, ((readSources insn (a.sources insn)).after s).table.Derives t ∧
      (prepare insn a).after s = { (readSources insn (a.sources insn)).after s with table := t } := by
  cases a using Action.plan_cases with
  | nothing => exact .inl rfl
  | exchange x y =>
    have hprepare : prepare insn (.exchange x y) = (do
        let p ← resolve insn x
        let q ← resolve insn y
        let vs ← readSources insn [.operand x, .operand y]
        return (vs.zip [q, p]).reverse.map Prod.swap) := by
      simp [prepare, readSources, readSource]
    rw [hprepare]
    -- both places are resolved before anything is read
    cases hp : resolve insn x s with
    | error fault s₁ =>
      obtain ⟨-, rfl⟩ := check_error (get_bind_error hp)
      exact .inl (after_bind_error hp)
    | ok p s₁ =>
      obtain ⟨-, rfl⟩ := check_ok (get_bind_ok hp)
      rw [after_bind_ok hp]
      cases hq : resolve insn y s₁ with
      | error fault s₂ =>
        obtain ⟨-, rfl⟩ := check_error (get_bind_error hq)
        exact .inl (after_bind_error hq)
      | ok q s₂ =>
        obtain ⟨-, rfl⟩ := check_ok (get_bind_ok hq)
        rw [after_bind_ok hq]
        exact .inr (after_readSources_bind fun _ s => ⟨s.table, .refl _, rfl⟩)
  | planned a hn hx =>
    have hprepare : (prepare insn a).after s = (check (s.locate insn a) >>= fun place =>
        readSources insn (a.sources insn) >>= fun vs => combine a vs >>= fun v => pure [(place, v)]).after s := by
      rw [prepare_eq insn hn hx]
      rfl
    rw [hprepare]
    cases hp : check (s.locate insn a) s with
    | error fault s₁ =>
      obtain ⟨-, rfl⟩ := check_error hp
      exact .inl (after_bind_error hp)
    | ok place s₁ =>
      obtain ⟨-, rfl⟩ := check_ok hp
      rw [after_bind_ok hp]
      refine .inr (after_readSources_bind fun vs s => ?_)
      obtain ⟨t, ht, hafter⟩ := after_combine_derives a vs s
      refine ⟨t, ht, ?_⟩
      cases hc : combine a vs s with
      | error fault s₂ => rw [after_bind_error hc, ← hafter, after_error hc]
      | ok v s₂ => rw [after_bind_ok hc, ← hafter, after_ok hc]; rfl

end Replay

/-! ## Writing -/

def Place.range? : Place → Option AddressRange
  | .register _ => none
  | .memory address bytes => AddressRange.ofAccess? address bytes

namespace Session

/-- The second session differs from the first where the places are: in registers that have one,
    in cells that meet one, and in cells for the very bytes of one. No input is made. -/
structure Writes (places : List Place) (s s' : Session) : Prop where
  skip : s'.skip = s.skip
  executed : s'.executed = s.executed
  derives : s.table.Derives s'.table
  registerInputs : s'.registers.inputs = s.registers.inputs
  memoryInputs : s'.memory.inputs = s.memory.inputs
  registers : ∀ r, (∀ view, .register view ∈ places → view.owner ≠ r) → s'.registers.get? r = s.registers.get? r
  cells : ∀ range, (∀ place ∈ places, ∀ access, place.range? = some access → range.intersects access = false) →
    ∀ id, (range, id) ∈ s'.memory.cells.entries ↔ (range, id) ∈ s.memory.cells.entries
  stored : ∀ range ∈ s'.memory.cells.keys, range ∈ s.memory.cells.keys ∨ ∃ place ∈ places, place.range? = some range

variable {s s' s'' : Session} {ps qs : List Place}

theorem Writes.refl (ps : List Place) (s : Session) : Writes ps s s where
  skip := rfl
  executed := rfl
  derives := .refl _
  registerInputs := rfl
  memoryInputs := rfl
  registers _ _ := rfl
  cells _ _ _ := Iff.rfl
  stored _ h := .inl h

theorem Writes.mono (h : Writes ps s s') (hsub : ∀ place ∈ ps, place ∈ qs) : Writes qs s s' :=
  { h with
    registers := fun r hr => h.registers r fun view hin => hr view (hsub _ hin)
    cells := fun range hr => h.cells range fun place hin => hr place (hsub place hin)
    stored := fun range hin =>
      (h.stored range hin).imp_right fun ⟨place, hp, hrange⟩ => ⟨place, hsub place hp, hrange⟩ }

theorem Writes.trans (h : Writes ps s s') (h' : Writes ps s' s'') : Writes ps s s'' where
  skip := h'.skip.trans h.skip
  executed := h'.executed.trans h.executed
  derives := h.derives.trans h'.derives
  registerInputs := h'.registerInputs.trans h.registerInputs
  memoryInputs := h'.memoryInputs.trans h.memoryInputs
  registers r hr := (h'.registers r hr).trans (h.registers r hr)
  cells range hr id := (h'.cells range hr id).trans (h.cells range hr id)
  stored range hin := (h'.stored range hin).elim (h.stored range) .inr

theorem writeRegister_writes {view : RegisterView} {v : ValueId} (h : Replay.writeRegister view v s = .ok () s') :
    Writes [.register view] s s' := by
  have hderives : s.table.Derives s'.table := by
    obtain ⟨_, _, hplan, -⟩ := Replay.bind_ok (Replay.get_bind_ok h)
    obtain ⟨b, hb, -⟩ := Replay.plan_ok hplan
    rcases Replay.full_or_owner hb with ⟨r, rfl⟩ | ⟨owner, ho⟩
    · cases h
      exact .refl _
    · rw [Replay.writeRegister_ok ho h]
      exact view.adds_merge owner v s.table
  obtain ⟨new, hset⟩ := writeRegister_set h
  rw [hset]
  refine ⟨rfl, rfl, hderives, rfl, rfl, fun r hr => ?_, fun _ _ _ => Iff.rfl, fun _ hin => .inl hin⟩
  have hne : r ≠ view.owner := Ne.symm (hr view (List.mem_singleton.mpr rfl))
  show (s.registers.set view.owner new).get? r = s.registers.get? r
  rw [get?_set, if_neg hne]

theorem writeMemory_writes (hs : s.Tidy) {address : Word} {bytes : Nat} {v : ValueId}
    (h : Replay.writeMemory address bytes v s = .ok () s') : Writes [.memory address bytes] s s' := by
  obtain ⟨heq, access, ha, hstep⟩ := Replay.writeMemory_ok hs.separated h
  obtain ⟨skip, table, registers, memory, executed⟩ := s'
  cases heq
  have hle := AddressRange.first_le_last_of_access ha
  -- one cell takes the place of those that it meets, and it meets the access
  have replaced {cell : AddressRange} {new : ValueId} {t : Table} (ht : s.table.Derives t)
      (hcell : cell.intersects access = true) (hother : ∀ e ∈ s.memory.cells.entries, e.1 ≠ cell →
        e.1.intersects access = false → e.1.intersects cell = false)
      (hkey : cell ∈ s.memory.cells.keys ∨ cell = access) (hrep : s.memory.Replaces cell new memory)
      (hin : memory.inputs = s.memory.inputs) :
      Writes [.memory address bytes] s { s with table := t, memory := memory } := by
    refine ⟨rfl, rfl, ht, rfl, hin, fun _ _ => rfl, fun range hr id => ?_, fun range hrange => ?_⟩
    · have happart := hr _ (List.mem_singleton.mpr rfl) access ha
      have hne : range ≠ cell := by
        rintro rfl
        rw [hcell] at happart
        cases happart
      rw [hrep.mem_iff, Prod.mk.injEq]
      constructor
      · rintro (⟨rfl, -⟩ | ⟨he, -⟩)
        · exact absurd rfl hne
        · exact he
      · exact fun he => .inr ⟨he, hother _ he hne happart⟩
    · obtain ⟨e, he, rfl⟩ := List.mem_map.mp hrange
      rcases (hrep.mem_iff e).mp he with rfl | ⟨he, -⟩
      · refine hkey.imp_right fun hsame => ⟨_, List.mem_singleton.mpr rfl, ?_⟩
        rw [hsame]
        exact ha
      · exact .inl (List.mem_map.mpr ⟨e, he, rfl⟩)
  cases hstep with
  | whole hrep hin =>
    exact replaced (.refl _) (AddressRange.intersects_self hle) (fun _ _ _ h => h) (.inr rfl) hrep hin
  | @within cell stored _ hcell hcontains _ hrep hin =>
    refine replaced ((Memory.makes_writeLane _ _ _).adds s.table).derived (AddressRange.intersects_of_contains hcontains hle)
      (fun e he hne _ => ?_) (.inl (List.mem_map.mpr ⟨_, hcell, rfl⟩)) hrep hin
    rw [← Bool.not_eq_true, hs.separated.intersects_iff he hcell]
    exact hne

theorem write_writes (hs : s.Tidy) {place : Place} {v : ValueId} (h : Replay.write v place s = .ok () s') :
    Writes [place] s s' := by
  cases place with
  | register view => exact writeRegister_writes h
  | memory address bytes => exact writeMemory_writes hs h

/-- Writes are made in order, up to the first that fails; that one changes nothing. -/
theorem after_commit_writes (hs : s.Tidy) (ws : List (Place × ValueId)) :
    Writes (ws.map (·.1)) s ((Replay.commit ws).after s) := by
  induction ws generalizing s with
  | nil => exact .refl _ s
  | cons w ws ih =>
    obtain ⟨place, v⟩ := w
    show Writes _ s ((Replay.write v place >>= fun _ => Replay.commit ws).after s)
    cases hwrite : Replay.write v place s with
    | error fault s₁ =>
      rw [Replay.after_bind_error hwrite, (write_error hwrite).2]
      exact .refl _ s
    | ok u s₁ =>
      have htidy := (Replay.extending_write v place s () s₁ hs hwrite).tidy
      rw [Replay.after_bind_ok hwrite]
      refine ((write_writes hs hwrite).mono ?_).trans ((ih htidy).mono ?_)
      · simp
      · exact fun p hp => List.mem_cons_of_mem _ hp

/-! ## Instructions -/

structure Gathers (insn : Instruction) (s s' : Session) : Prop extends s.Learns s' where
  made : ∀ id range, s.NewInput s' id range → ∃ bytes,
    Replay.Makes insn ((Action.ofInstruction insn).sources insn) s id range bytes ∧ s'.table.width id = bytes * 8

theorem after_prepare_gathers (hs : s.Tidy) (insn : Instruction) :
    s.Gathers insn ((Replay.prepare insn (.ofInstruction insn)).after s) := by
  rcases Replay.after_prepare insn (.ofInstruction insn) s with hsame | ⟨t, ht, hafter⟩
  · rw [hsame]
    exact ⟨.refl s, fun _ _ hnew => absurd hnew not_newInput_self⟩
  · obtain ⟨hl, hmade⟩ := Replay.after_readSources_learns hs insn ((Action.ofInstruction insn).sources insn)
    rw [hafter]
    refine ⟨hl.trans (learns_table ht), fun id range hnew => ?_⟩
    obtain ⟨bytes, hmakes, hwidth⟩ := hmade id range hnew
    refine ⟨bytes, hmakes, ?_⟩
    have hinput := (hl.isInput_iff id).mpr (.inr ⟨range, hnew⟩)
    exact (ht.grows.width hinput.lt).trans hwidth

end Session

theorem Instruction.destinations_length {insn : Instruction} (h : insn.mnemonic ≠ "xchg") :
    insn.destinations.length ≤ 1 := by
  have target (o : Operand) : (insn.target o).toList.length ≤ 1 := by
    cases insn.target o <;> simp
  unfold destinations
  split
  · split
    · exact Nat.le_refl 1
    · exact target _
  · rw [if_neg h]
    exact target _
  · exact target _
  · exact Nat.zero_le 1

namespace Session

variable {s : Session} {insn : Instruction}

theorem step_skipped (hskip : s.skip.contains insn.mnemonic = true) : Replay.step insn s = .ok () s := by
  show (if s.skip.contains insn.mnemonic then _ else _ : Replay Unit) s = _
  rw [if_pos hskip]
  rfl

/-- An instruction that is not passed over is performed and then counted. -/
theorem step_performed (hskip : s.skip.contains insn.mnemonic = false) :
    Replay.step insn s = (Replay.perform insn (.ofInstruction insn) >>= fun _ =>
      modify fun s => { s with executed := s.executed + 1 }) s := by
  show (if s.skip.contains insn.mnemonic then _ else _ : Replay Unit) s = _
  rw [if_neg (by simp [hskip])]

/-- An instruction that is not passed over gathers what it reads, and then writes its
    destinations. It may stop before the last write; exchanges apart, that is before the first. -/
theorem step_effect (hs : s.Sound) (hskip : s.skip.contains insn.mnemonic = false) :
    ∃ s₁ s₂, s.Gathers insn s₁ ∧ Writes insn.destinations s₁ s₂ ∧
      (Replay.step insn s = .ok () { s₂ with executed := s₂.executed + 1 } ∨
        ∃ fault, Replay.step insn s = .error fault s₂ ∧ (insn.mnemonic ≠ "xchg" → s₂ = s₁)) := by
  have hgathers := after_prepare_gathers hs.toTidy insn
  have hstep : Replay.step insn s = ((Replay.prepare insn (.ofInstruction insn) >>= Replay.commit) >>= fun _ =>
      modify fun s => { s with executed := s.executed + 1 }) s := by
    rw [step_performed hskip, Replay.perform_eq_commit]
  cases hprepare : Replay.prepare insn (.ofInstruction insn) s with
  | error fault s₁ =>
    rw [Replay.after_error hprepare] at hgathers
    refine ⟨s₁, s₁, hgathers, .refl _ _, .inr ⟨fault, ?_, fun _ => rfl⟩⟩
    rw [hstep]
    exact bind_run_error (bind_run_error hprepare)
  | ok ws s₁ =>
    rw [Replay.after_ok hprepare] at hgathers
    have hprepares := Replay.prepare_prepares hs hprepare
    have hplaces := hprepares.places
    have hwrites := after_commit_writes hprepares.sound.toTidy ws
    rw [hplaces] at hwrites
    cases hcommit : Replay.commit ws s₁ with
    | ok u s₂ =>
      rw [Replay.after_ok hcommit] at hwrites
      refine ⟨s₁, s₂, hgathers, hwrites, .inl ?_⟩
      rw [hstep, bind_run ((bind_run hprepare).trans hcommit)]
      rfl
    | error fault s₂ =>
      rw [Replay.after_error hcommit] at hwrites
      refine ⟨s₁, s₂, hgathers, hwrites, .inr ⟨fault, ?_, fun hx => ?_⟩⟩
      · rw [hstep]
        exact bind_run_error ((bind_run hprepare).trans hcommit)
      · -- there is one write at most, and if it fails it changes nothing
        have hlength := Instruction.destinations_length hx
        rw [← hplaces, List.length_map] at hlength
        obtain _ | ⟨w, _ | ⟨w', ws⟩⟩ := ws
        · cases hcommit
        · rcases Replay.bind_error hcommit with hwrite | ⟨_, _, -, hnil⟩
          · exact (write_error hwrite).2
          · cases hnil
        · simp at hlength

/-! ## Histories -/

inductive Event where
  | step (insn : Instruction)
  | look (register : String)

def Event.after (s : Session) : Event → Session
  | step insn => (Replay.step insn).after s
  | look register => (Replay.readNamed register).after s

/-- How a session begins: some registers hold fresh symbols, or all of them known words. -/
inductive Start where
  | symbols (registers : List Register)
  | words (contents : Snapshot)

def Start.registers : Start → List Register
  | symbols registers => registers
  | words _ => []

def Start.session (skip : SkipSet) : Start → Session
  | symbols registers => registers.foldl (fun s r => (s.seed r).2) (.empty skip)
  | words contents => .ofSnapshot skip contents

example (skip : SkipSet) : (Start.symbols Register.all).session skip = seeded skip := rfl

/-- The session when all of it has happened; anything may fail. -/
def after (s : Session) (events : List Event) : Session := events.foldl Event.after s

/-- What every event preserves holds after any history. -/
theorem after_preserves {P : Session → Prop} (hevent : ∀ s e, P s → P (Event.after s e)) (hs : P s)
    (events : List Event) : P (s.after events) := by
  induction events generalizing s with
  | nil => exact hs
  | cons e events ih => exact ih (hevent s e hs)

/-- What holds of known words and of no words at all, and is preserved by seeding a register,
    holds wherever a session begins. -/
theorem Start.of_seed {P : Session → Prop} {skip : SkipSet} (hwords : ∀ contents, P (.ofSnapshot skip contents))
    (hempty : P (.empty skip)) (hseed : ∀ s r, P s → P (s.seed r).2) (start : Start) : P (start.session skip) := by
  cases start with
  | words contents => exact hwords contents
  | symbols registers =>
    show P (registers.foldl (fun s r => (s.seed r).2) (empty skip))
    generalize empty skip = s at hempty
    induction registers generalizing s with
    | nil => exact hempty
    | cons r registers ih => exact ih (s.seed r).2 (hseed s r hempty)

theorem sound_empty (skip : SkipSet) : (empty skip).Sound where
  separated := Memory.separated_empty
  inputs_lt := nofun
  wellFormed := Table.wellFormed_empty
  registers_lt r id hid := by
    have hnone : (empty skip).registers.get? r = none := by cases r <;> rfl
    rw [hnone] at hid
    cases hid
  cells_lt := nofun
  cells_short := nofun

theorem Sound.seed (h : s.Sound) (r : Register) : (s.seed r).2.Sound := by
  have hsymbol := Build.maintains_symbol h.wellFormed 32
  have hset := (h.build hsymbol).set r hsymbol.post.lt
  exact ⟨⟨hset.separated, hset.inputs_lt⟩, hset.wellFormed, hset.registers_lt, hset.cells_lt, hset.cells_short⟩

theorem Start.sound (skip : SkipSet) (start : Start) : (start.session skip).Sound :=
  start.of_seed (fun contents => (entry_ofSnapshot skip contents).sound) (sound_empty skip) fun _ r hs => hs.seed r

/-- A look at a register touches the table only, and makes no input. -/
theorem after_look (s : Session) (name : String) :
    ∃ t, s.table.Derives t ∧ (Replay.readNamed name).after s = { s with table := t } := by
  cases hview : Replay.check (RegisterFile.view name) s with
  | error fault s₁ =>
    obtain ⟨-, rfl⟩ := Replay.check_error hview
    exact ⟨s₁.table, .refl _, Replay.after_bind_error hview⟩
  | ok view s₁ =>
    obtain ⟨-, rfl⟩ := Replay.check_ok hview
    have hafter : (Replay.readNamed name).after s₁ = (Replay.readRegister view).after s₁ := Replay.after_bind_ok hview
    rw [hafter]
    cases hread : Replay.readRegister view s₁ with
    | error fault s₂ =>
      rw [Replay.after_error hread, Replay.readRegister_error hread]
      exact ⟨s₁.table, .refl _, rfl⟩
    | ok v s₂ =>
      obtain ⟨owner, -, -, rfl⟩ := Replay.readRegister_ok hread
      exact ⟨_, (view.adds_extract owner s₁.table).derived, Replay.after_ok hread⟩

theorem Sound.lockstep_readNamed (h : s.Sound) (name : String) :
    Replay.Lockstep 0 s s (Replay.readNamed name) (Replay.readNamed name) Both := by
  refine (Replay.lockstep_check (.refl h) rfl).bind fun view view' s' t' hc hview => ?_
  rw [hview.1]
  exact Replay.lockstep_readRegister hc.shape view'

theorem Sound.event (h : s.Sound) (e : Event) : (e.after s).Sound := by
  cases e with
  | step insn => exact h.after_step insn
  | look name => exact (h.lockstep_readNamed name).after.left

theorem Sound.after (h : s.Sound) (events : List Event) : (s.after events).Sound :=
  after_preserves (fun _ e hs => hs.event e) h events

end Session

end TraceReplay
