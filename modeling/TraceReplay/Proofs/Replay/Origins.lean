/-
  TraceReplay.Proofs.Replay.Origins — every input symbol has one recorded origin.

  A session lists what its inputs stand for in two places: the register that one was made for,
  or the bytes that a read found in no cell. Proved, of every session after any history, failures
  included (`every_input_symbol_has_one_recorded_origin`):
  - a value is an input exactly if one of the two lists has it, and never both;
  - inputs for registers are those that the session began with, one word wide each;
  - an input from memory is eight times as wide as the read that made it has bytes, and that read
    can be named;
  - no entry is ever changed or dropped;
  - so a report on any value shows each of its inputs with the origin that is listed for it.
-/

import TraceReplay.Proofs.Evaluation
import TraceReplay.Proofs.Replay.Effects
import TraceReplay.Replay.Report

namespace TraceReplay

def Session.RecordedAt (s : Session) (id : ValueId) : InputLocation → Prop
  | .register r => s.registers.inputs.get? id = some r
  | .memory range => s.memory.inputs.get? id = some range

/-- The report shows every input that it lists with the origin recorded for it. -/
def Report.Located (r : Report) (s : Session) : Prop :=
  ∀ input ∈ r.inputs, ∃ location, input.2 = some location ∧ s.RecordedAt input.1 location

namespace Session

variable {s s' : Session} {id : Nat} {range : AddressRange}

structure Originated (s : Session) : Prop where
  isInput_iff : ∀ id, s.table.IsInput id ↔ id ∈ s.registers.inputs.keys ∨ id ∈ s.memory.inputs.keys
  apart : ∀ id ∈ s.registers.inputs.keys, id ∉ s.memory.inputs.keys
  width : ∀ id ∈ s.registers.inputs.keys, s.table.width id = 32

theorem Originated.lt (h : s.Originated) (hid : id ∈ s.registers.inputs.keys) : id < s.table.size :=
  ((h.isInput_iff id).mpr (.inl hid)).lt

theorem Learns.mem_inputs_iff (h : s.Learns s') :
    id ∈ s'.memory.inputs.keys ↔ id ∈ s.memory.inputs.keys ∨ ∃ range, s.NewInput s' id range := by
  constructor
  · intro hin
    obtain ⟨e, he, rfl⟩ := List.mem_map.mp hin
    by_cases hold : e ∈ s.memory.inputs.entries
    · exact .inl (List.mem_map.mpr ⟨e, hold, rfl⟩)
    · exact .inr ⟨e.2, he, hold⟩
  · rintro (hin | ⟨range, hnew⟩)
    · obtain ⟨e, he, rfl⟩ := List.mem_map.mp hin
      exact List.mem_map.mpr ⟨e, h.kept e he, rfl⟩
    · exact List.mem_map.mpr ⟨_, hnew.1, rfl⟩

/-! ## What happens keeps origins -/

theorem Originated.learns (h : s.Originated) (hl : s.Learns s') : s'.Originated := by
  constructor
  · intro id
    rw [hl.isInput_iff, h.isInput_iff, hl.mem_inputs_iff, hl.registers, or_assoc]
  · intro id hid
    rw [hl.registers] at hid
    rw [hl.mem_inputs_iff]
    rintro (hin | ⟨range, hnew⟩)
    · exact h.apart id hid hin
    · exact Nat.lt_irrefl _ (Nat.lt_of_lt_of_le (h.lt hid) (hl.size_le id range hnew))
  · intro id hid
    rw [hl.registers] at hid
    rw [hl.grows.width (h.lt hid)]
    exact h.width id hid

theorem Originated.writes {places : List Place} (h : s.Originated) (hw : Writes places s s') : s'.Originated := by
  obtain ⟨hiff, hapart, hwidth⟩ := h
  constructor
  · intro id
    rw [hw.derives.isInput_iff, hw.registerInputs, hw.memoryInputs]
    exact hiff id
  · rw [hw.registerInputs, hw.memoryInputs]
    exact hapart
  · intro id hid
    rw [hw.registerInputs] at hid
    rw [hw.derives.grows.width ((hiff id).mpr (.inl hid)).lt]
    exact hwidth id hid

/-- What is recorded in a session, and in all that come after it. -/
structure Records (s s' : Session) : Prop where
  originated : s.Originated → s'.Originated
  grows : s.table.Grows s'.table
  registerInputs : s'.registers.inputs = s.registers.inputs
  kept : ∀ e ∈ s.memory.inputs.entries, e ∈ s'.memory.inputs.entries

theorem Records.trans {s'' : Session} (h : s.Records s') (h' : s'.Records s'') : s.Records s'' :=
  ⟨fun ho => h'.originated (h.originated ho), h.grows.trans h'.grows, h'.registerInputs.trans h.registerInputs,
    fun e he => h'.kept e (h.kept e he)⟩

theorem Learns.records (h : s.Learns s') : s.Records s' :=
  ⟨fun ho => ho.learns h, h.grows, by rw [h.registers], h.kept⟩

theorem Writes.records {places : List Place} (h : Writes places s s') : s.Records s' :=
  ⟨fun ho => ho.writes h, h.derives.grows, h.registerInputs, fun _ he => h.memoryInputs ▸ he⟩

theorem records_count (s : Session) (n : Nat) : s.Records { s with executed := n } :=
  ⟨fun ho => ⟨ho.isInput_iff, ho.apart, ho.width⟩, .refl _, rfl, fun _ he => he⟩

/-- The read of so many bytes by which an event makes the input. -/
def Event.Makes (s : Session) (id : ValueId) (range : AddressRange) (bytes : Nat) : Event → Prop
  | step insn => Replay.Makes insn ((Action.ofInstruction insn).sources insn) s id range bytes
  | look _ => False

/-- One event: nothing is taken back, and a read of the event made what is new. -/
theorem event_records (hs : s.Sound) (e : Event) :
    s.Records (e.after s) ∧ ∀ id range, s.NewInput (e.after s) id range →
      ∃ bytes, e.Makes s id range bytes ∧ (e.after s).table.width id = bytes * 8 := by
  cases e with
  | look name =>
    obtain ⟨t, ht, hafter⟩ := after_look s name
    simp only [Event.after, hafter]
    exact ⟨(learns_table ht).records, fun _ _ hnew => absurd hnew not_newInput_self⟩
  | step insn =>
    cases hskip : s.skip.contains insn.mnemonic with
    | true =>
      simp only [Event.after, Replay.after_ok (step_skipped hskip)]
      exact ⟨(Learns.refl s).records, fun _ _ hnew => absurd hnew not_newInput_self⟩
    | false =>
      obtain ⟨s₁, s₂, hgathers, hwrites, hend⟩ := step_effect hs hskip
      obtain ⟨n, hafter⟩ : ∃ n, (Event.step insn).after s = { s₂ with executed := n } := by
        rcases hend with hok | ⟨fault, herror, -⟩
        · exact ⟨_, Replay.after_ok hok⟩
        · exact ⟨s₂.executed, Replay.after_error herror⟩
      rw [hafter]
      refine ⟨hgathers.toLearns.records.trans (hwrites.records.trans (records_count s₂ n)), fun id range hnew => ?_⟩
      have hnew₁ : s.NewInput s₁ id range := by
        refine ⟨?_, hnew.2⟩
        rw [← hwrites.memoryInputs]
        exact hnew.1
      obtain ⟨bytes, hmakes, hwidth⟩ := hgathers.made id range hnew₁
      have hlt := ((hgathers.isInput_iff id).mpr (.inr ⟨range, hnew₁⟩)).lt
      exact ⟨bytes, hmakes, (hwrites.derives.grows.width hlt).trans hwidth⟩

theorem records_after (hs : s.Sound) (events : List Event) : s.Records (s.after events) := by
  induction events generalizing s with
  | nil => exact (Learns.refl s).records
  | cons e events ih => exact (event_records hs e).1.trans (ih (hs.event e))

/-- An input that is new after a history was made by some event of it. -/
theorem exists_makes (hs : s.Sound) {events : List Event} (h : s.NewInput (s.after events) id range) :
    ∃ before e rest bytes, events = before ++ e :: rest ∧ e.Makes (s.after before) id range bytes ∧
      (s.after events).table.width id = bytes * 8 := by
  induction events generalizing s with
  | nil => exact absurd h not_newInput_self
  | cons e events ih =>
    obtain ⟨hrecords, hmade⟩ := event_records hs e
    have hlater := records_after (hs.event e) events
    rcases (newInput_trans_iff hrecords.kept hlater.kept).mp h with hnew | hnew
    · obtain ⟨bytes, hmakes, hwidth⟩ := hmade id range hnew
      refine ⟨[], e, events, bytes, rfl, hmakes, ?_⟩
      exact (hlater.grows.width ((hs.event e).inputs_lt _ hnew.1)).trans hwidth
    · obtain ⟨before, e', rest, bytes, rfl, hmakes, hwidth⟩ := ih (hs.event e) hnew
      exact ⟨e :: before, e', rest, bytes, rfl, hmakes, hwidth⟩

/-! ## Where sessions begin -/

/-- A seeded register gets one more input, listed last. -/
theorem Originated.seed (h : s.Originated) (hs : s.Sound) (r : Register) :
    (s.seed r).2.Originated ∧ (s.seed r).2.registers.inputs.values = s.registers.inputs.values ++ [r] := by
  have hinputs : (s.seed r).2.registers.inputs = s.registers.inputs.insert s.table.size r := rfl
  have htable : (s.seed r).2.table = s.table.push ⟨32, .symbol, true, none⟩ := rfl
  have hmemory : (s.seed r).2.memory = s.memory := rfl
  have hlt (e : ValueId × Register) (he : e ∈ s.registers.inputs.entries) : e.1 < s.table.size :=
    h.lt (List.mem_map.mpr ⟨e, he, rfl⟩)
  have hnot : s.table.size ∉ s.memory.inputs.keys := by
    intro hin
    obtain ⟨e, he, hkey⟩ := List.mem_map.mp hin
    exact Nat.ne_of_lt (hs.inputs_lt e he) hkey
  refine ⟨⟨fun id => ?_, fun id hid => ?_, fun id hid => ?_⟩, ?_⟩
  · rw [htable, hinputs, hmemory, Table.isInput_push_iff, SortedMap.mem_keys_insert, h.isInput_iff]
    tauto
  · rw [hinputs, SortedMap.mem_keys_insert] at hid
    rw [hmemory]
    rcases hid with rfl | hid
    · exact hnot
    · exact h.apart id hid
  · rw [hinputs, SortedMap.mem_keys_insert] at hid
    rw [htable]
    rcases hid with rfl | hid
    · rw [Table.width, Table.get?_push_self]
      rfl
    · rw [(Table.grows_push _ _).width (h.lt hid)]
      exact h.width id hid
  · rw [hinputs]
    exact SortedMap.values_insert_last (fun e he => Nat.compare_eq_gt.mpr (hlt e he)) r

theorem originated_empty (skip : SkipSet) : (empty skip).Originated := by
  refine ⟨fun id => ⟨?_, ?_⟩, nofun, nofun⟩
  · rintro ⟨v, hv, -⟩
    cases hv
  · rintro (hin | hin) <;> cases hin

theorem originated_ofSnapshot (skip : SkipSet) (contents : Snapshot) : (ofSnapshot skip contents).Originated := by
  refine ⟨fun id => ⟨?_, ?_⟩, nofun, nofun⟩
  · rintro ⟨v, hv, hn⟩
    have hin : v ∈ (ofSnapshot skip contents).table.values.toList :=
      Array.mem_toList_iff.mpr (Array.mem_of_getElem? hv)
    rw [values_ofSnapshot] at hin
    obtain ⟨r, -, rfl⟩ := List.mem_map.mp hin
    cases hn
  · rintro (hin | hin) <;> cases hin

theorem Start.originated (skip : SkipSet) (start : Start) :
    (start.session skip).Originated ∧ (start.session skip).registers.inputs.values = start.registers ∧
      (start.session skip).memory = .empty := by
  cases start with
  | words contents => exact ⟨originated_ofSnapshot skip contents, rfl, rfl⟩
  | symbols registers =>
    -- the registers are seeded one after the other, beginning with none
    have seeded {s : Session} (hs : s.Sound) (ho : s.Originated) :
        (registers.foldl (fun s r => (s.seed r).2) s).Originated ∧
          (registers.foldl (fun s r => (s.seed r).2) s).registers.inputs.values =
            s.registers.inputs.values ++ registers ∧
          (registers.foldl (fun s r => (s.seed r).2) s).memory = s.memory := by
      induction registers generalizing s with
      | nil => exact ⟨ho, (List.append_nil _).symm, rfl⟩
      | cons r registers ih =>
        obtain ⟨hseed, hvalues⟩ := ho.seed hs r
        obtain ⟨hlast, hall, hmemory⟩ := ih (hs.seed r) hseed
        refine ⟨hlast, ?_, hmemory⟩
        rw [List.foldl_cons, hall, hvalues, List.append_assoc]
        rfl
    exact seeded (sound_empty skip) (originated_empty skip)

/-! ## Reports -/

theorem Originated.inputLocation? (h : s.Originated) (hid : s.table.IsInput id) :
    ∃ location, s.inputLocation? id = some location ∧ s.RecordedAt id location := by
  unfold Session.inputLocation?
  split
  · rename_i r hr
    exact ⟨.register r, rfl, hr⟩
  · rename_i hnone
    have hnot := SortedMap.get?_eq_none_iff.mp hnone
    rcases (h.isInput_iff id).mp hid with hin | hin
    · obtain ⟨⟨_, r⟩, he, rfl⟩ := List.mem_map.mp hin
      exact absurd he (hnot r)
    · obtain ⟨⟨_, range⟩, he, rfl⟩ := List.mem_map.mp hin
      have hget : s.memory.inputs.get? _ = some range := SortedMap.get?_eq_some_iff.mpr he
      exact ⟨.memory range, by rw [hget]; rfl, hget⟩

theorem Originated.report (h : s.Originated) (hs : s.Sound) (style : Style) {value : Nat} (hv : value < s.table.size) :
    (s.report style value).Located s := by
  intro input hin
  obtain ⟨id, hid, rfl⟩ := List.mem_map.mp hin
  exact h.inputLocation? ((hs.wellFormed.mem_inputs_iff hv).mp hid).2

theorem Originated.registerReport (h : s.Originated) (hs : s.Sound) {style : Style} {name : String} {report : Report}
    (hrun : Replay.registerReport style name s = .ok report s') : report.Located s := by
  obtain ⟨v, s₁, hread, hreport⟩ := Replay.bind_ok hrun
  cases hreport
  obtain ⟨hc, hv⟩ := (hs.lockstep_readNamed name).of_ok hread hread
  have hrecords := (event_records hs (.look name)).1
  rw [Event.after, Replay.after_ok hread] at hrecords
  have hlocated := (hrecords.originated h).report hc.shape.left style hv.1
  -- looking at a register adds values to the table and touches neither list
  obtain ⟨t, -, hafter⟩ := after_look s name
  rw [Replay.after_ok hread] at hafter
  rw [hafter] at hlocated ⊢
  exact hlocated

theorem Originated.memoryReport? (h : s.Originated) (hs : s.Sound) {style : Style} {report : Report}
    (hrun : s.memoryReport? style range = some report) : report.Located s := by
  obtain ⟨v, hv, rfl⟩ := Option.map_eq_some_iff.mp hrun
  exact h.report hs style (hs.cells_lt _ (SortedMap.get?_eq_some_iff.mp hv))

/-- Whatever has happened to a session, its two lists of origins name each of its inputs once, as
    wide as the register or the first read of the bytes; they only grow, and reports find every
    input in them. -/
theorem every_input_symbol_has_one_recorded_origin (skip : SkipSet) (start : Start) (events : List Event) :
    let s := (start.session skip).after events
    (∀ id, s.table.IsInput id ↔ Xor (id ∈ s.registers.inputs.keys) (id ∈ s.memory.inputs.keys)) ∧
    (s.registers.inputs.values = start.registers ∧ ∀ id ∈ s.registers.inputs.keys, s.table.width id = 32) ∧
    (∀ id range, s.memory.inputs.get? id = some range → ∃ before insn rest bytes,
      events = before ++ .step insn :: rest ∧ s.table.width id = 8 * bytes ∧
      Replay.Makes insn ((Action.ofInstruction insn).sources insn) ((start.session skip).after before) id range bytes) ∧
    (∀ later, (s.after later).registers.inputs = s.registers.inputs ∧
      ∀ id range, s.memory.inputs.get? id = some range → (s.after later).memory.inputs.get? id = some range) ∧
    (∀ style name report s', Replay.registerReport style name s = .ok report s' → report.Located s) ∧
    (∀ style range report, s.memoryReport? style range = some report → report.Located s) := by
  intro s
  have hstart := start.sound skip
  obtain ⟨hfirst, hregisters, hmemory⟩ := start.originated skip
  have hs : s.Sound := hstart.after events
  have hrecords : (start.session skip).Records s := records_after hstart events
  have ho := hrecords.originated hfirst
  refine ⟨fun id => ?_, ⟨?_, ho.width⟩, fun id range hid => ?_, fun later => ?_, fun _ _ _ _ => ho.registerReport hs,
    fun _ _ _ => ho.memoryReport? hs⟩
  · rw [ho.isInput_iff]
    have := ho.apart id
    unfold Xor
    tauto
  · rw [hrecords.registerInputs, hregisters]
  · have hnew : (start.session skip).NewInput s id range := by
      refine ⟨SortedMap.get?_eq_some_iff.mp hid, ?_⟩
      rw [hmemory]
      nofun
    obtain ⟨before, e, rest, bytes, hsplit, hmakes, hwidth⟩ := exists_makes hstart hnew
    cases e with
    | look name => cases hmakes
    | step insn => exact ⟨before, insn, rest, bytes, hsplit, hwidth.trans (Nat.mul_comm _ _), hmakes⟩
  · have hlater := records_after hs later
    refine ⟨hlater.registerInputs, fun id range hid => ?_⟩
    exact SortedMap.get?_eq_some_iff.mpr (hlater.kept _ (SortedMap.get?_eq_some_iff.mp hid))

def halfThenWord : List Event := [
  .step { address := 0x1000, mnemonic := "movzx", readAddress := some 0x100,
          operands := [.register "eax" 32, .memory { form := .base .ebx, bits := 16 }] },
  .look "al",
  .step { address := 0x1003, mnemonic := "mov", readAddress := some 0x100,
          operands := [.register "ecx" 32, .memory { form := .base .ebx, bits := 32 }] }]

/-- The half is an input of its own, and two bytes were read to make it. -/
theorem a_half_that_was_loaded_is_an_input :
    ∃ before insn rest, halfThenWord = before ++ .step insn :: rest ∧ Replay.Makes insn
      ((Action.ofInstruction insn).sources insn) (((Start.symbols Register.all).session ⟨.empty⟩).after before)
      8 ⟨0x100, 0x101⟩ 2 := by
  have hinput : (((Start.symbols Register.all).session ⟨.empty⟩).after halfThenWord).memory.inputs.get? 8 =
      some ⟨0x100, 0x101⟩ := by decide +kernel
  have hwidth : (((Start.symbols Register.all).session ⟨.empty⟩).after halfThenWord).table.width 8 = 16 := by
    decide +kernel
  obtain ⟨-, -, hmade, -⟩ :=
    every_input_symbol_has_one_recorded_origin ⟨.empty⟩ (.symbols Register.all) halfThenWord
  obtain ⟨before, insn, rest, bytes, hsplit, hbytes, hmakes⟩ := hmade 8 _ hinput
  obtain rfl : bytes = 2 := by omega
  exact ⟨before, insn, rest, hsplit, hmakes⟩

end Session

end TraceReplay
