/-
  TraceReplay.Proofs.Checked.Reading — no operation of a replay fails.

  A checked reading of a value (`Checked.interpret`) goes over the values up to it, each read by its node
  from the readings before it; one that is not there cannot be read. On a proper table every value
  has the reading that is computed without checks (`interpret_eq`): its formula and its inputs, its word
  under an assignment and its solver term.

  Proved, for every session that any history leads to from any start, whatever the instructions in
  it (`no_operation_of_a_replay_fails`):
  - an instruction, a look at a register, a value's text, solver term and word under any bindings,
    and the dumps of registers and memory all have their results when arithmetic is checked, as
    long as ids have 32 bits and the count of instructions 64;
  - the bits of an access are counted by a number of 32 bits, the length of a cell is its true
    number of bytes, and the bytes of an access inside a cell of at most four are among its four.
-/

import Mathlib.Data.List.Perm.Subperm
import TraceReplay.Proofs.Checked.Replay
import TraceReplay.Proofs.Evaluation
import TraceReplay.Replay.Report
import TraceReplay.Solver.Term

namespace TraceReplay

namespace Checked

variable {β : Type}

abbrev Reader (β : Type) := ValueId → Value → (ValueId → Option β) → Option β

def readAll (R : Reader β) (values : List Value) : Option (Array β) :=
  values.foldlM (fun before v => do return before.push (← R before.size v (before[·]?))) #[]

def interpret (R : Reader β) (t : Table) (id : ValueId) : Option β := do
  (← readAll R (t.values.toList.take (id + 1)))[id]?

/-! ## Readers -/

def plain (I : Interpretation β) : Reader β := fun id v operand =>
  match v.node with
  | .symbol => return I.symbol id v.width
  | .constant b => return I.constant (← value b)
  | .hybrid pieces => return I.hybrid id (← pieces.entries.mapM fun e => do return (e.1, ← operand e.2))
  | .operation opcode ids => return I.operation opcode (← ids.mapM operand)

def joined (operand : ValueId → Option (Except Opcode Word)) :
    List (BitRange × ValueId) → Word → Option (Except Opcode Word)
  | [], word => return .ok word
  | (range, piece) :: rest, word => do
    match ← operand piece with
    | .error opcode => return .error opcode
    | .ok w => joined operand rest (word ||| (← place range w))

def evaluation (σ : Assignment) : Reader (Except Opcode Word) := fun id v operand =>
  match v.node with
  | .symbol => return .ok (σ id &&& (← mask (← lowBits v.width)))
  | .constant b => return .ok (← value b)
  | .hybrid pieces => joined operand pieces.entries 0
  | .operation opcode ids => return (Interpretation.evaluation σ).operation opcode (← ids.mapM operand)

open Solver (Term)

def terms (operand : ValueId → Option (Except Opcode (Term ValueId))) :
    List (BitRange × ValueId) → Option (Except Opcode (List (Term ValueId)))
  | [] => return .ok []
  | (range, piece) :: rest => do
    match ← operand piece with
    | .error opcode => return .error opcode
    | .ok term =>
      let part := Term.and (.times term (.constant (← shiftLeft 1 range.low))) (.constant (← mask range))
      return (← terms operand rest).map (part :: ·)

def count (t : Table) (ids : List ValueId) : Option (Option Word) :=
  match ids[1]? with
  | none => return none
  | some id => return (← t.get? id).known

def solverTerm (t : Table) : Reader (Except Opcode (Term ValueId)) := fun id v operand =>
  match v.node with
  | .symbol => do
    if v.width < 32 then return .ok (.and (.symbol id) (.constant (← mask (← lowBits v.width))))
    else return .ok (.symbol id)
  | .constant b => return .ok (.constant (← value b))
  | .hybrid pieces => return (← terms operand pieces.entries).map .or
  | .operation opcode ids => do
    let args ← ids.mapM operand
    let known ← count t ids
    match args.mapM fun x => x with
    | .error e => return .error e
    | .ok terms =>
      match Term.ofOperation? opcode known terms with
      | some term => return .ok term
      | none => return .error opcode

/-! ## Questions -/

def solverText (t : Table) (id : ValueId) : Option (Except Fault String) := do
  match ← interpret (solverTerm t) t id with
  | .ok term => return .ok (term.text (Solver.symbolText ""))
  | .error opcode => return .error (.unknownOperation opcode.name)

def evaluate (t : Table) (id : ValueId) (b : Bindings) : Option (Except Fault Word) := do
  let inputs ← interpret (plain .inputs) t id
  let unbound := (inputs.filter (!b.contains ·)).length
  let unexpected := (b.keys.filter (!inputs.contains ·)).length
  if (← add 64 unbound unexpected) > 0 then return .error (.bindingMismatch unbound unexpected)
  else
    match ← interpret (evaluation b.assignment) t id with
    | .ok word => return .ok word
    | .error opcode => return .error (.unknownOperation opcode.name)

def report (s : Session) (style : Style) (value : ValueId) : Option Report := do
  let inputs ← interpret (plain .inputs) s.table value
  let formula ← interpret (plain Formula.syntactic) s.table value
  return ⟨value, inputs.map fun id => (id, s.inputLocation? id), formula.text style⟩

def registerDump (s : Session) (style : Style) : Option String := do
  return String.join (← s.registers.held.mapM fun (r, value) => do
    return r.name ++ ": " ++ (← report s style value).text ++ "\n\n")

def memoryDump (s : Session) (style : Style) : Option String := do
  return String.join (← s.memory.cells.entries.mapM fun (range, value) => do
    return s!"[{Word.hexDigits range.first},{Word.hexDigits range.last}]: " ++
      (← report s style value).text ++ "\n\n")

/-! ## Every value can be read -/

variable {t : Table} {R : Reader β} {F : ValueId → β}

theorem readAll_snoc (R : Reader β) (l : List Value) (v : Value) :
    readAll R (l ++ [v]) = (readAll R l).bind fun before => do
      return before.push (← R before.size v (before[·]?)) := by
  simp [readAll, List.foldlM_append]

/-- A reader that reads each value aright from its operands reads all of them so. -/
theorem interpret_eq (ht : t.WellFormed)
    (hR : ∀ id v, t.get? id = some v → ∀ operand, (∀ o ∈ v.node.operands, operand o = some (F o)) →
      R id v operand = some (F id)) {id : Nat} (hid : id < t.size) : interpret R t id = some (F id) := by
  have prefixes (n : Nat) (hn : n ≤ t.size) :
      readAll R (t.values.toList.take n) = some ((List.range n).map F).toArray := by
    induction n with
    | zero => rfl
    | succ n ih =>
      obtain ⟨v, hv⟩ := Table.get?_of_lt (Nat.lt_of_succ_le hn)
      have hget : t.values.toList[n]? = some v := by rw [Array.getElem?_toList]; exact hv
      have hstep : R n v (((List.range n).map F).toArray[·]?) = some (F n) := by
        refine hR n v hv _ fun o ho => ?_
        have hlt := ht.operands_lt hv o ho
        simp [hlt]
      rw [List.take_add_one, hget, Option.toList_some, readAll_snoc, ih (Nat.le_of_succ_le hn), Option.bind_some]
      simp only [List.size_toArray, List.length_map, List.length_range, hstep]
      simp [List.range_succ]
  rw [interpret, prefixes (id + 1) hid]
  simp

theorem mapM_eq_some {α : Type} {f : α → Option β} {g : α → β} {l : List α} (h : ∀ a ∈ l, f a = some (g a)) :
    l.mapM f = some (l.map g) := by
  induction l with
  | nil => rfl
  | cons a l ih =>
    rw [List.mapM_cons, h a (by simp), ih fun b hb => h b (by simp [hb])]
    rfl

theorem interpret_plain (ht : t.Proper) (I : Interpretation β) {id : Nat} (hid : id < t.size) :
    interpret (plain I) t id = some (t.interpret I id) := by
  refine interpret_eq ht.wellFormed (fun id v hv operand hop => ?_) hid
  rw [ht.wellFormed.interpret_value I hv, plain, Interpretation.value]
  cases hn : v.node with
  | symbol => rfl
  | constant b =>
    have hb := value_eq (ht.inWord id b (Table.constant?_eq_some_iff.mpr ⟨v, hv, hn⟩))
    simp only [hb]
    rfl
  | hybrid pieces =>
    rw [hn] at hop
    have hparts : (pieces.entries.mapM fun e => do return (e.1, ← operand e.2)) =
        some (pieces.entries.map fun e => (e.1, t.interpret I e.2)) := by
      refine mapM_eq_some fun e he => ?_
      rw [hop e.2 (List.mem_map.mpr ⟨e, he, rfl⟩)]
      rfl
    simp only [hparts]
    rfl
  | operation opcode ids =>
    rw [hn] at hop
    have hargs : ids.mapM operand = some (ids.map (t.interpret I)) := mapM_eq_some hop
    simp only [hargs]
    rfl

theorem joined_eq {operand : ValueId → Option (Except Opcode Word)} {F : ValueId → Except Opcode Word}
    {entries : List (BitRange × ValueId)} (hin : ∀ e ∈ entries, e.1.InWord)
    (hop : ∀ e ∈ entries, operand e.2 = some (F e.2)) (word : Word) :
    joined operand entries word =
      some ((entries.map fun e => (e.1, F e.2)).foldlM (fun word p => p.2.map (word ||| p.1.place ·)) word) := by
  induction entries generalizing word with
  | nil => rfl
  | cons e entries ih =>
    rw [joined, hop e (by simp), Option.bind_eq_bind, Option.bind_some, List.map_cons, List.foldlM_cons]
    cases F e.2 with
    | error opcode => rfl
    | ok w =>
      simp only [place_eq (hin e (by simp))]
      exact ih (fun e he => hin e (by simp [he])) (fun e he => hop e (by simp [he])) _

theorem interpret_evaluation (ht : t.Proper) (σ : Assignment) {id : Nat} (hid : id < t.size) :
    interpret (evaluation σ) t id = some (t.eval σ id) := by
  refine interpret_eq ht.wellFormed (fun id v hv operand hop => ?_) hid
  rw [Table.eval, ht.wellFormed.interpret_value _ hv, evaluation, Interpretation.value]
  cases hn : v.node with
  | symbol =>
    simp only [lowBits_eq, mask_eq (BitRange.lowBits_inWord v.width), Option.bind_eq_bind, Option.bind_some]
    rfl
  | constant b =>
    have hb := value_eq (ht.inWord id b (Table.constant?_eq_some_iff.mpr ⟨v, hv, hn⟩))
    simp only [hb]
    rfl
  | hybrid pieces =>
    rw [hn] at hop
    have hp := Table.pieces?_eq_some_iff.mpr ⟨v, hv, hn⟩
    exact joined_eq (fun e he => inWord_of_isPartition (ht.wellFormed.isPartition hp) he)
      (fun e he => hop e.2 (List.mem_map.mpr ⟨e, he, rfl⟩)) 0
  | operation opcode ids =>
    rw [hn] at hop
    have hargs : ids.mapM operand = some (ids.map (t.eval σ)) := mapM_eq_some hop
    simp only [hargs]
    rfl

/-! ### Solver terms -/

theorem terms_eq {operand : ValueId → Option (Except Opcode (Term ValueId))} {f : ValueId → Formula}
    {entries : List (BitRange × ValueId)} (hin : ∀ e ∈ entries, e.1.InWord)
    (hop : ∀ e ∈ entries, operand e.2 = some (Term.ofFormula (f e.2))) :
    terms operand entries = some (Term.ofParts (entries.map fun e => (e.1, f e.2))) := by
  induction entries with
  | nil =>
    rw [List.map_nil, Term.ofParts]
    rfl
  | cons e entries ih =>
    have ⟨hle, hlt⟩ := hin e (by simp)
    rw [terms, hop e (by simp), Option.bind_eq_bind, Option.bind_some, List.map_cons, Term.ofParts]
    cases Term.ofFormula (f e.2) with
    | error opcode => rfl
    | ok term =>
      simp only [shiftLeft_eq _ (Nat.lt_of_le_of_lt hle hlt), mask_eq (hin e (by simp)),
        ih (fun e he => hin e (by simp [he])) (fun e he => hop e (by simp [he]))]
      rfl

theorem ofArgs_eq (args : List Formula) : Term.ofArgs args = (args.map Term.ofFormula).mapM fun x => x := by
  induction args with
  | nil =>
    rw [Term.ofArgs]
    rfl
  | cons arg args ih =>
    rw [Term.ofArgs, List.map_cons, List.mapM_cons, ih]
    cases Term.ofFormula arg with
    | error opcode => rfl
    | ok term => cases (args.map Term.ofFormula).mapM fun x => x <;> rfl

theorem count_eq (ht : t.WellFormed) {ids : List ValueId} (hids : ∀ o ∈ ids, o < t.size) :
    count t ids = some ((ids.map t.formula)[1]?.bind Formula.known?) := by
  rw [count, List.getElem?_map]
  cases hc : ids[1]? with
  | none => rfl
  | some id =>
    have hid := hids id (List.mem_of_getElem? hc)
    obtain ⟨v, hv⟩ := Table.get?_of_lt hid
    have hknown : (t.formula id).known? = v.known := by
      rw [ht.known?_formula hid, Table.known_of_get? hv]
    simp only [Option.map_some, Option.bind_some, hknown, hv]
    rfl

theorem interpret_solverTerm (ht : t.Proper) {id : Nat} (hid : id < t.size) :
    interpret (solverTerm t) t id = some (Term.ofFormula (t.formula id)) := by
  refine interpret_eq (F := fun id => Term.ofFormula (t.formula id)) ht.wellFormed
    (fun id v hv operand hop => ?_) hid
  have hformula : t.formula id = Formula.syntactic.value id v t.formula := ht.wellFormed.interpret_value _ hv
  rw [hformula, solverTerm, Interpretation.value]
  cases hn : v.node with
  | symbol =>
    show _ = some (Term.ofFormula (.symbol id v.width))
    rw [Term.ofFormula, Term.ofSymbol]
    simp only [lowBits_eq, mask_eq (BitRange.lowBits_inWord v.width), Option.bind_eq_bind, Option.bind_some]
    split <;> rfl
  | constant b =>
    have hb := value_eq (ht.inWord id b (Table.constant?_eq_some_iff.mpr ⟨v, hv, hn⟩))
    show _ = some (Term.ofFormula (.constant b.value))
    rw [Term.ofFormula]
    simp only [hb]
    rfl
  | hybrid pieces =>
    rw [hn] at hop
    have hp := Table.pieces?_eq_some_iff.mpr ⟨v, hv, hn⟩
    show _ = some (Term.ofFormula (.hybrid id (pieces.entries.map fun e => (e.1, t.formula e.2))))
    rw [Term.ofFormula]
    simp only [terms_eq (fun e he => inWord_of_isPartition (ht.wellFormed.isPartition hp) he)
      (fun e he => hop e.2 (List.mem_map.mpr ⟨e, he, rfl⟩))]
    rfl
  | operation opcode ids =>
    have hlt := ht.wellFormed.operands_lt hv
    rw [hn] at hop hlt
    have hcount : count t ids = some ((ids.map t.formula)[1]?.bind Formula.known?) :=
      count_eq ht.wellFormed fun o ho => Nat.lt_trans (hlt o ho) (Table.lt_of_get? hv)
    have hargs : ids.mapM operand = some (ids.map (Term.ofFormula ∘ t.formula)) := mapM_eq_some hop
    show _ = some (Term.ofFormula (.operation opcode (ids.map t.formula)))
    rw [Term.ofFormula, ofArgs_eq, List.map_map]
    simp only [hargs, hcount, Option.bind_eq_bind, Option.bind_some]
    cases (ids.map (Term.ofFormula ∘ t.formula)).mapM fun x => x with
    | error e => rfl
    | ok terms =>
      cases hterm : Term.ofOperation? opcode ((ids.map t.formula)[1]?.bind Formula.known?) terms <;>
        simp only [hterm] <;> rfl

/-! ## Every question has its answer -/

theorem solverText_eq (ht : t.Proper) {id : Nat} (hid : id < t.size) : solverText t id = some (t.solverText id) := by
  rw [solverText, interpret_solverTerm ht hid, Table.solverText, Table.solverTerm]
  cases Term.ofFormula (t.formula id) <;> rfl

/-- There are at most as many numbers below a bound. -/
theorem length_le_of_ascending {l : List Nat} {n : Nat} (hl : l.Pairwise (· < ·)) (hlt : ∀ a ∈ l, a < n) :
    l.length ≤ n := by
  have hnodup : l.Nodup := hl.imp Nat.ne_of_lt
  have hle := (hnodup.subperm fun a ha => List.mem_range.mpr (hlt a ha)).length_le
  rwa [List.length_range] at hle

theorem evaluate_eq (ht : t.Proper) (hroom : t.size ≤ 2 ^ 32) {id : Nat} (hid : id < t.size) {b : Bindings}
    (hb : ∀ k ∈ b.keys, k < 2 ^ 32) : evaluate t id b = some (t.evaluate id b) := by
  have hinputs : interpret (plain .inputs) t id = some (t.inputs id) := interpret_plain ht .inputs hid
  have hunbound : ((t.inputs id).filter (!b.contains ·)).length ≤ 2 ^ 32 := by
    refine Nat.le_trans (List.length_filter_le _ _) (Nat.le_trans ?_ hroom)
    exact length_le_of_ascending (t.pairwise_inputs id) fun a ha => ((ht.wellFormed.mem_inputs_iff hid).mp ha).2.lt
  have hunexpected : (b.keys.filter (!(t.inputs id).contains ·)).length ≤ 2 ^ 32 := by
    refine Nat.le_trans (List.length_filter_le _ _) (length_le_of_ascending ?_ hb)
    rw [SortedMap.keys, List.pairwise_map]
    exact b.ascending.imp fun h => Nat.compare_eq_lt.mp h
  have hsum {m n : Nat} (hm : m ≤ 2 ^ 32) (hn : n ≤ 2 ^ 32) : add 64 m n = some (m + n) := add_eq (by omega)
  simp only [evaluate, Table.evaluate, hinputs, hsum hunbound hunexpected, interpret_evaluation ht b.assignment hid,
    Option.bind_eq_bind, Option.bind_some]
  split
  · rfl
  · cases t.eval b.assignment id <;> rfl

variable {s : Session}

theorem report_eq (hs : s.Proper) (style : Style) {id : Nat} (hid : id < s.table.size) :
    report s style id = some (s.report style id) := by
  rw [report, interpret_plain hs.table .inputs hid, interpret_plain hs.table Formula.syntactic hid]
  rfl

theorem registerDump_eq (hs : s.Proper) (style : Style) : registerDump s style = some (s.registerDump style) := by
  have hreports : (s.registers.held.mapM fun (r, value) => do
      return r.name ++ ": " ++ (← report s style value).text ++ "\n\n") =
        some (s.registers.held.map fun (r, value) => r.name ++ ": " ++ (s.report style value).text ++ "\n\n") := by
    refine mapM_eq_some fun e he => ?_
    obtain ⟨r, -, hr⟩ := List.mem_filterMap.mp he
    obtain ⟨id, hid, rfl⟩ := Option.map_eq_some_iff.mp hr
    simp only [report_eq hs style (hs.registers_lt r id hid)]
    rfl
  rw [registerDump, hreports]
  rfl

theorem memoryDump_eq (hs : s.Proper) (style : Style) : memoryDump s style = some (s.memoryDump style) := by
  have hreports : (s.memory.cells.entries.mapM fun (range, value) => do
      return s!"[{Word.hexDigits range.first},{Word.hexDigits range.last}]: " ++
        (← report s style value).text ++ "\n\n") =
        some (s.memory.cells.entries.map fun (range, value) =>
          s!"[{Word.hexDigits range.first},{Word.hexDigits range.last}]: " ++
            (s.report style value).text ++ "\n\n") := by
    refine mapM_eq_some fun e he => ?_
    simp only [report_eq hs style (hs.cells_lt e he)]
    rfl
  rw [memoryDump, hreports]
  rfl

/-! ## Reachable sessions -/

/-- No operation fails, whatever is asked of the session: with checks the answers are the same. -/
structure Safe (s : Session) : Prop where
  step : ∀ insn, s.executed + 1 < 2 ^ 64 → ((Replay.step insn).after s).table.size ≤ 2 ^ 32 →
    (Checked.step insn).run s = some ((Replay.step insn).outcome s)
  look : ∀ name, ((Replay.readNamed name).after s).table.size ≤ 2 ^ 32 →
    (readNamed name).run s = some ((Replay.readNamed name).outcome s)
  evaluate : s.table.size ≤ 2 ^ 32 → ∀ id < s.table.size, ∀ b : Bindings, (∀ k ∈ b.keys, k < 2 ^ 32) →
    Checked.evaluate s.table id b = some (s.table.evaluate id b)
  report : ∀ id < s.table.size, ∀ style, Checked.report s style id = some (s.report style id)
  solverText : ∀ id < s.table.size, Checked.solverText s.table id = some (s.table.solverText id)
  registerDump : ∀ style, Checked.registerDump s style = some (s.registerDump style)
  memoryDump : ∀ style, Checked.memoryDump s style = some (s.memoryDump style)

theorem safe_of_proper (hs : s.Proper) : Safe s where
  step insn hcount := (follows_step hs hcount insn).run
  look name := (follows_readNamed hs name).run
  evaluate hroom _ hid _ hb := evaluate_eq hs.table hroom hid hb
  report _ hid style := report_eq hs style hid
  solverText _ hid := solverText_eq hs.table hid
  registerDump style := registerDump_eq hs style
  memoryDump style := memoryDump_eq hs style

end Checked

namespace Session

/-- Whatever has happened to a session, no operation on it overflows, shifts a word by all of its
    bits, makes a range of bits that is none, or looks for a value or a cell that is not there. -/
theorem no_operation_of_a_replay_fails (skip : SkipSet) (start : Start) (events : List Event) :
    let s := (start.session skip).after events
    Checked.Safe s ∧ s.executed ≤ events.length ∧ (∀ o : Operand, o.byteCount * 8 ≤ 2 ^ 32 - 1) ∧
      ∀ e ∈ s.memory.cells.entries, e.1.size = e.1.last.toNat - e.1.first.toNat + 1 ∧
        ∀ access : AddressRange, e.1.size ≤ 4 → e.1.contains access = true → access.first ≤ access.last →
          ∀ byte ∈ List.range' (access.first.toNat - e.1.first.toNat) access.size, byte < 4 := by
  intro s
  have hs : s.Proper := (start.proper skip).after events
  have hexecuted : (start.session skip).executed = 0 := start.executed skip
  refine ⟨Checked.safe_of_proper hs, ?_, fun o => ?_, fun e he => ⟨?_, fun access hsize hcontains hle byte hbyte => ?_⟩⟩
  · have hle := executed_after_le (start.sound skip) events
    rwa [hexecuted, Nat.zero_add] at hle
  · have := o.byteCount_lt
    omega
  · exact hs.size_eq_count he
  · have hsmall := (hs.cells_short e he).small (hs.separated.first_le_last e he) hsize
    obtain ⟨-, hbytes⟩ := hsmall.offset hcontains hle
    have hlt := (List.mem_range'_1.mp hbyte).2
    omega

/-- A byte comes into a known word, which is shifted and pushed. -/
def splitHistory : List Event := [
  .step { address := 0x1000, mnemonic := "mov", operands := [.register "eax" 32, .immediate 0x12345678] },
  .step { address := 0x1005, mnemonic := "mov", readAddress := some 0x100,
          operands := [.register "ah" 8, .memory { form := .base .ebx, bits := 8 }] },
  .step { address := 0x1007, mnemonic := "shl", operands := [.register "eax" 32, .immediate 4] },
  .step { address := 0x100a, mnemonic := "push", operands := [.register "eax" 32], writeAddress := some 0x200 }]

def readBack : Instruction :=
  { address := 0x100b, mnemonic := "mov", operands := [.register "bx" 16, .memory { form := .base .esp, bits := 16 }]
    readAddress := some 0x201 }

theorem a_split_word_is_read_back_without_failure :
    let s := ((Start.symbols Register.all).session ⟨.empty⟩).after splitHistory
    (Replay.step readBack).fault? s = none ∧ ((Replay.step readBack).after s).table.size ≤ 2 ^ 32 ∧
      (Checked.step readBack).run s = some ((Replay.step readBack).outcome s) ∧
      Checked.memoryDump s .detailed = some (s.memoryDump .detailed) := by
  intro s
  have hexecuted : s.executed + 1 < 2 ^ 64 := by decide +kernel
  have hroom : ((Replay.step readBack).after s).table.size ≤ 2 ^ 32 := by decide +kernel
  have hsafe := (no_operation_of_a_replay_fails ⟨.empty⟩ (.symbols Register.all) splitHistory).1
  exact ⟨by decide +kernel, hroom, hsafe.step readBack hexecuted hroom, hsafe.memoryDump .detailed⟩

end Session

end TraceReplay
