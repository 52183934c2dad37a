/-
  TraceReplay.Proofs.Replay.RecordedAddresses — a recorded address comes before a computed one.

  An address is needed to resolve a memory destination, to read a memory source, and for the slots of
  push and pop. Where it is recorded, nothing that it could be computed from is looked at: neither the
  form and the segment of the operand, nor the recorded register contents. `lea` alone looks at a form,
  because the form is what it computes.

  So records that agree in all but these (`Instruction.SameAccesses`) are one and the same step
  (`Replay.step_sameAccesses`), and their traces take any session to the same session
  (`recorded_addresses_decide_a_run`). Only the address of the failing instruction, which a fault
  quotes, may differ.
-/

import TraceReplay.Proofs.Replay.Shape

namespace TraceReplay

/-! ## Records that agree -/

inductive Operand.SameAccess : Operand → Operand → Prop
  | immediate (value : Word) : SameAccess (.immediate value) (.immediate value)
  | register (name : String) (bits : Word) : SameAccess (.register name bits) (.register name bits)
  | memory (form form' : AddressForm) (segment segment' : Option String) (bits : Word) :
      SameAccess (.memory ⟨form, segment, bits⟩) (.memory ⟨form', segment', bits⟩)

/-- Two records of one instruction with the same recorded addresses. They may differ in id, in
    instruction address, in register contents and, unless it is `lea`, in the forms and segments of
    memory operands. -/
structure Instruction.SameAccesses (insn insn' : Instruction) : Prop where
  mnemonic : insn'.mnemonic = insn.mnemonic
  operands : List.Forall₂ Operand.SameAccess insn.operands insn'.operands
  lea : insn.mnemonic = "lea" → insn'.operands = insn.operands
  read : ∃ address, insn.readAddress = some address ∧ insn'.readAddress = some address
  write : ∃ address, insn.writeAddress = some address ∧ insn'.writeAddress = some address

inductive Action.SameAccess : Action → Action → Prop
  | nothing : SameAccess .nothing .nothing
  | unsupported : SameAccess .unsupported .unsupported
  | push {o o' : Operand} : o.SameAccess o' → SameAccess (.push o) (.push o')
  | pop {o o' : Operand} : o.SameAccess o' → SameAccess (.pop o) (.pop o')
  | move {o o' p p' : Operand} : o.SameAccess o' → p.SameAccess p' → SameAccess (.move o p) (.move o' p')
  | exchange {o o' p p' : Operand} : o.SameAccess o' → p.SameAccess p' →
      SameAccess (.exchange o p) (.exchange o' p')
  | loadAddress {o o' : Operand} (form : AddressForm) : o.SameAccess o' →
      SameAccess (.loadAddress o form) (.loadAddress o' form)
  | unary {o o' : Operand} (opcode : Opcode) : o.SameAccess o' → SameAccess (.unary opcode o) (.unary opcode o')
  | binary {o o' p p' : Operand} (opcode : Opcode) : o.SameAccess o' → p.SameAccess p' →
      SameAccess (.binary opcode o p) (.binary opcode o' p')
  | shift {o o' : Operand} (opcode : Opcode) (count : Word) : o.SameAccess o' →
      SameAccess (.shift opcode o count) (.shift opcode o' count)
  | mask {o o' : Operand} (opcode : Opcode) (word : Word) : o.SameAccess o' →
      SameAccess (.mask opcode o word) (.mask opcode o' word)
  | multiply {o o' p p' : Operand} (factor : Word) : o.SameAccess o' → p.SameAccess p' →
      SameAccess (.multiply o p factor) (.multiply o' p' factor)

namespace Operand.SameAccess

variable {o o' : Operand}

theorem refl (o : Operand) : o.SameAccess o := by
  cases o with
  | immediate value => exact .immediate value
  | register name bits => exact .register name bits
  | memory m => exact .memory m.form m.form m.segment m.segment m.bits

theorem isImmediate (h : o.SameAccess o') : o'.isImmediate = o.isImmediate := by cases h <;> rfl

theorem kindName (h : o.SameAccess o') : o'.kindName = o.kindName := by cases h <;> rfl

theorem byteCount (h : o.SameAccess o') : o'.byteCount = o.byteCount := by cases h <;> rfl

end Operand.SameAccess

/-! ## One action -/

namespace Action

variable {target target' source source' third third' : Operand}

theorem ofOneOperand_sameAccess (mnemonic : String) (h : target.SameAccess target') :
    (ofOneOperand mnemonic target).SameAccess (ofOneOperand mnemonic target') := by
  unfold ofOneOperand
  split
  · exact .push h
  · exact .pop h
  · rw [h.isImmediate]
    split
    · exact .unsupported
    · exact .unary _ h

theorem ofArithmetic_sameAccess (opcode : Opcode) (ht : target.SameAccess target') (hs : source.SameAccess source') :
    (ofArithmetic opcode target source).SameAccess (ofArithmetic opcode target' source') := by
  have general : (binary opcode target source).SameAccess (binary opcode target' source') := .binary opcode ht hs
  cases ht with
  | register name bits =>
    cases hs with
    | immediate word =>
      unfold ofArithmetic
      split
      · exact .shift _ _ (.refl _)
      · exact .shift _ _ (.refl _)
      · exact .mask _ _ (.refl _)
      · exact .mask _ _ (.refl _)
      · exact general
    | register => simpa [ofArithmetic] using general
    | memory => simpa [ofArithmetic] using general
  | immediate => simpa [ofArithmetic] using general
  | memory => simpa [ofArithmetic] using general

/-- Any mnemonic but `lea` sorts operands by their kinds. -/
theorem ofTwoOperands_sameAccess {mnemonic : String} (hlea : mnemonic ≠ "lea") (ht : target.SameAccess target')
    (hs : source.SameAccess source') :
    (ofTwoOperands mnemonic target source).SameAccess (ofTwoOperands mnemonic target' source') := by
  unfold ofTwoOperands
  split
  · exact .move ht hs
  · exact .move ht hs
  · exact absurd rfl hlea
  · exact .exchange ht hs
  · exact ofArithmetic_sameAccess _ ht hs

theorem ofThreeOperands_sameAccess (mnemonic : String) (ht : target.SameAccess target')
    (hs : source.SameAccess source') (hu : third.SameAccess third') :
    (ofThreeOperands mnemonic target source third).SameAccess
      (ofThreeOperands mnemonic target' source' third') := by
  unfold ofThreeOperands
  split
  · cases ht
    cases hs
    cases hu
    exact .multiply _ (.refl _) (.refl _)
  · rename_i hne
    -- operands of the same kinds are no product either
    split
    · cases ht
      cases hs
      cases hu
      exact absurd rfl (hne _ _ _ _ _ rfl rfl rfl)
    · exact .unsupported

theorem SameAccess.refl (a : Action) : a.SameAccess a := by
  cases a <;> constructor <;> exact .refl _

theorem ofInstruction_sameAccess {insn insn' : Instruction} (h : insn.SameAccesses insn') :
    (ofInstruction insn).SameAccess (ofInstruction insn') := by
  by_cases hlea : insn.mnemonic = "lea"
  · have hsame : ofInstruction insn' = ofInstruction insn := by
      rw [ofInstruction, ofInstruction, h.lea hlea, h.mnemonic]
    rw [hsame]
    exact .refl _
  · have hoperands := h.operands
    rw [ofInstruction, ofInstruction, h.mnemonic]
    generalize insn.operands = operands, insn'.operands = operands' at hoperands
    obtain _ | ⟨ht, _ | ⟨hs, _ | ⟨hu, _ | ⟨_, _⟩⟩⟩⟩ := hoperands
    · exact .nothing
    · exact ofOneOperand_sameAccess _ ht
    · exact ofTwoOperands_sameAccess hlea ht hs
    · exact ofThreeOperands_sameAccess _ ht hs hu
    · exact .unsupported

end Action

namespace Instruction.SameAccesses

variable {insn insn' : Instruction} (h : insn.SameAccesses insn')

include h

theorem unsupportedShape : insn'.unsupportedShape = insn.unsupportedShape := by
  have hkinds : insn'.operands.map Operand.kindName = insn.operands.map Operand.kindName := by
    have hoperands := h.operands
    generalize insn.operands = operands, insn'.operands = operands' at hoperands
    induction hoperands with
    | nil => rfl
    | cons ho _ ih => rw [List.map_cons, List.map_cons, ho.kindName, ih]
  rw [Instruction.unsupportedShape, Instruction.unsupportedShape, shapeText, shapeText, h.mnemonic, hkinds]

/-- Whatever the operands are, the address is the recorded one. -/
theorem accessAddress (kind : AccessKind) (m m' : MemoryOperand) :
    insn'.accessAddress kind m' = insn.accessAddress kind m := by
  obtain ⟨r, hr, hr'⟩ := h.read
  obtain ⟨w, hw, hw'⟩ := h.write
  cases kind with
  | read => simp only [Instruction.accessAddress, hr, hr']
  | write => simp only [Instruction.accessAddress, hw, hw']

theorem pushAddress (bytes : Nat) : insn'.pushAddress bytes = insn.pushAddress bytes := by
  obtain ⟨w, hw, hw'⟩ := h.write
  rw [Instruction.pushAddress, Instruction.pushAddress, hw, hw', Option.getD_some, Option.getD_some]

theorem popAddress : insn'.popAddress = insn.popAddress := by
  obtain ⟨r, hr, hr'⟩ := h.read
  rw [Instruction.popAddress, Instruction.popAddress, hr, hr', Option.getD_some, Option.getD_some]

theorem destination {o o' : Operand} (ho : o.SameAccess o') (s : Session) :
    s.destination insn' o' = s.destination insn o := by
  cases ho with
  | immediate value => simp only [Session.destination, h.unsupportedShape]
  | register name bits => rfl
  | memory form form' segment segment' bits =>
    simp only [Session.destination, h.accessAddress .write ⟨form, segment, bits⟩ ⟨form', segment', bits⟩,
      MemoryOperand.byteCount]

end Instruction.SameAccesses

namespace Replay

variable {insn insn' : Instruction} {o o' : Operand}

theorem resolve_sameAccesses (h : insn.SameAccesses insn') (ho : o.SameAccess o') :
    resolve insn' o' = resolve insn o := by
  unfold resolve
  exact bind_congr fun s => by rw [h.destination ho]

theorem read_sameAccesses (h : insn.SameAccesses insn') (ho : o.SameAccess o') : read insn' o' = read insn o := by
  cases ho with
  | immediate value => rfl
  | register name bits => rfl
  | memory form form' segment segment' bits =>
    simp only [read, h.accessAddress .read ⟨form, segment, bits⟩ ⟨form', segment', bits⟩, MemoryOperand.byteCount]

/-- An action does the same for both records. -/
theorem perform_sameAccesses {a a' : Action} (h : insn.SameAccesses insn') (ha : a.SameAccess a') :
    perform insn' a' = perform insn a := by
  cases ha with
  | nothing => rfl
  | unsupported => rw [perform, perform, h.unsupportedShape]
  | push ho => simp only [perform, push, ho.byteCount, h.pushAddress, read_sameAccesses h ho]
  | pop ho => simp only [perform, pop, ho.byteCount, h.popAddress, resolve_sameAccesses h ho]
  | move ho hp => simp only [perform, resolve_sameAccesses h ho, read_sameAccesses h hp]
  | exchange ho hp =>
    simp only [perform, exchange, resolve_sameAccesses h ho, resolve_sameAccesses h hp, read_sameAccesses h ho,
      read_sameAccesses h hp]
  | loadAddress form ho =>
    cases form with
    | baseIndex base index scale => simp only [perform, loadAddress, resolve_sameAccesses h ho]
    | _ => rfl
  | unary opcode ho => simp only [perform, resolve_sameAccesses h ho, read_sameAccesses h ho]
  | binary opcode ho hp =>
    simp only [perform, resolve_sameAccesses h ho, read_sameAccesses h ho, read_sameAccesses h hp]
  | shift opcode count ho => simp only [perform, resolve_sameAccesses h ho, read_sameAccesses h ho]
  | mask opcode word ho => simp only [perform, resolve_sameAccesses h ho, read_sameAccesses h ho]
  | multiply factor ho hp => simp only [perform, resolve_sameAccesses h ho, read_sameAccesses h hp]

theorem step_sameAccesses (h : insn.SameAccesses insn') : step insn' = step insn := by
  unfold step
  rw [h.mnemonic, perform_sameAccesses h (Action.ofInstruction_sameAccess h)]

/-! ## Runs -/

/-- The two outcomes leave one session. Either both are successes, or both are faults with one cause
    at one position; the records at that position give the address that each fault quotes. -/
def SameOutcome (index : Nat) (records records' : List Instruction) (r r' : EStateM.Result Fault Session Unit) : Prop :=
  (∃ s', r = .ok () s' ∧ r' = .ok () s') ∨
  ∃ s' k insn insn' cause, records[k]? = some insn ∧ records'[k]? = some insn' ∧
    r = .error (.atInstruction (index + k) insn.address insn.mnemonic cause) s' ∧
    r' = .error (.atInstruction (index + k) insn'.address insn.mnemonic cause) s'

theorem SameOutcome.cons {index : Nat} {records records' : List Instruction}
    {r r' : EStateM.Result Fault Session Unit} (h : SameOutcome (index + 1) records records' r r') :
    SameOutcome index (insn :: records) (insn' :: records') r r' := by
  obtain hok | ⟨s', k, x, x', cause, hx, hx', hr, hr'⟩ := h
  · exact .inl hok
  · have hindex : index + 1 + k = index + (k + 1) := by omega
    rw [hindex] at hr hr'
    exact .inr ⟨s', k + 1, x, x', cause, hx, hx', hr, hr'⟩

theorem runFrom_sameAccesses {records records' : List Instruction}
    (h : List.Forall₂ Instruction.SameAccesses records records') (index : Nat) (s : Session) :
    SameOutcome index records records' (runFrom index records s) (runFrom index records' s) := by
  induction h generalizing index s with
  | nil => exact .inl ⟨s, rfl, rfl⟩
  | @cons insn insn' records records' hhead _ ih =>
    have hstep' := congrFun (step_sameAccesses hhead) s
    rw [runFrom, runFrom]
    cases hstep : step insn s with
    | ok u s₁ =>
      rw [bind_run (adaptExcept_ok.mpr hstep), bind_run (adaptExcept_ok.mpr (hstep'.trans hstep))]
      exact (ih (index + 1) s₁).cons
    | error cause s₁ =>
      rw [bind_run_error (adaptExcept_error hstep), bind_run_error (adaptExcept_error (hstep'.trans hstep)),
        hhead.mnemonic]
      exact .inr ⟨s₁, 0, insn, insn', cause, rfl, rfl, rfl, rfl⟩

end Replay

namespace Session

/-- Two traces with the same recorded addresses, whose records may differ in ids, in instruction
    addresses, in register contents and, `lea` apart, in the forms and segments of memory operands, take
    any session to the same session. Both succeed, or both fail at the same position with the same
    cause. -/
theorem recorded_addresses_decide_a_run (s : Session) (records records' : List Instruction)
    (h : List.Forall₂ Instruction.SameAccesses records records') :
    (∃ s', Replay.run records s = .ok () s' ∧ Replay.run records' s = .ok () s') ∨
    ∃ s' k insn insn' cause, records[k]? = some insn ∧ records'[k]? = some insn' ∧
      Replay.run records s = .error (.atInstruction k insn.address insn.mnemonic cause) s' ∧
      Replay.run records' s = .error (.atInstruction k insn'.address insn.mnemonic cause) s' := by
  obtain hok | ⟨s', k, insn, insn', cause, hk, hk', hr, hr'⟩ := Replay.runFrom_sameAccesses h 0 s
  · exact .inl hok
  · rw [Nat.zero_add] at hr hr'
    exact .inr ⟨s', k, insn, insn', cause, hk, hk', hr, hr'⟩

/-- A pushed word, a sum into memory, an address, and a store that straddles the pushed word. -/
def plainRecords : List Instruction :=
  [{ address := 0x1000, mnemonic := "push", operands := [.memory { form := .base .eax, bits := 32 }]
     readAddress := some 0x100, writeAddress := some 0x200 },
    { address := 0x1002, mnemonic := "add", operands := [.memory { form := .base .ecx, bits := 8 }, .register "bl" 8]
      readAddress := some 0x101, writeAddress := some 0x101 },
    { address := 0x1004, mnemonic := "lea"
      operands := [.register "edx" 32, .memory { form := .baseIndex .ebx .ecx 4, bits := 32 }]
      readAddress := some 0, writeAddress := some 0 },
    { address := 0x1007, mnemonic := "mov", operands := [.memory { form := .absolute 0x1ff, bits := 16 }, .register "bx" 16]
      readAddress := some 0x1ff, writeAddress := some 0x1ff }]

def garbledRecords : List Instruction :=
  [{ id := 7, address := 0x2000, mnemonic := "push"
     operands := [.memory { form := .absolute 0xffffffff, segment := some "fs", bits := 32 }]
     context := Vector.replicate 8 0x200, readAddress := some 0x100, writeAddress := some 0x200 },
    { id := 7, address := 0x2002, mnemonic := "add"
      operands := [.memory { form := .scaled .edx 8, segment := some "gs", bits := 8 }, .register "bl" 8]
      readAddress := some 0x101, writeAddress := some 0x101 },
    { id := 7, address := 0x2004, mnemonic := "lea"
      operands := [.register "edx" 32, .memory { form := .baseIndex .ebx .ecx 4, bits := 32 }]
      context := Vector.replicate 8 1, readAddress := some 0, writeAddress := some 0 },
    { id := 7, address := 0x2007, mnemonic := "mov"
      operands := [.memory { form := .base .esp, segment := some "fs", bits := 16 }, .register "bx" 16]
      readAddress := some 0x1ff, writeAddress := some 0x1ff }]

theorem sameAccesses_garbledRecords : List.Forall₂ Instruction.SameAccesses plainRecords garbledRecords := by
  refine .cons ⟨rfl, .cons (.memory ..) .nil, by decide, ⟨_, rfl, rfl⟩, ⟨_, rfl, rfl⟩⟩ (.cons ?_ (.cons ?_ (.cons ?_ .nil)))
  · exact ⟨rfl, .cons (.memory ..) (.cons (.register ..) .nil), by decide, ⟨_, rfl, rfl⟩, ⟨_, rfl, rfl⟩⟩
  · exact ⟨rfl, .cons (.register ..) (.cons (.refl _) .nil), fun _ => rfl, ⟨_, rfl, rfl⟩, ⟨_, rfl, rfl⟩⟩
  · exact ⟨rfl, .cons (.memory ..) (.cons (.register ..) .nil), by decide, ⟨_, rfl, rfl⟩, ⟨_, rfl, rfl⟩⟩

/-- Where the plain records meet a straddled word, so do the garbled ones. -/
theorem garbled_records_stop_at_the_same_store :
    ∃ s', Replay.run garbledRecords (seeded ⟨.empty⟩) =
        .error (.atInstruction 3 0x2007 "mov" (.partialOverlap ⟨0x1ff, 0x200⟩ ⟨0x200, 0x203⟩)) s' ∧
      s' = (Replay.run plainRecords).after (seeded ⟨.empty⟩) ∧ s'.executed = 3 := by
  have hfault : (Replay.run plainRecords).fault? (seeded ⟨.empty⟩) =
      some (.atInstruction 3 0x1007 "mov" (.partialOverlap ⟨0x1ff, 0x200⟩ ⟨0x200, 0x203⟩)) := by decide +kernel
  have hcount : ((Replay.run plainRecords).after (seeded ⟨.empty⟩)).executed = 3 := by decide +kernel
  obtain ⟨s', hplain, -⟩ | ⟨s', k, insn, insn', cause, -, hk', hplain, hgarbled⟩ :=
    recorded_addresses_decide_a_run (seeded ⟨.empty⟩) plainRecords garbledRecords sameAccesses_garbledRecords
  · rw [Replay.fault?, hplain] at hfault
    cases hfault
  · rw [Replay.fault?, hplain] at hfault
    simp only [Option.some.injEq, Fault.atInstruction.injEq] at hfault
    obtain ⟨rfl, -, hmnemonic, rfl⟩ := hfault
    cases hk'
    rw [hmnemonic] at hgarbled
    rw [Replay.after_error hplain] at hcount ⊢
    exact ⟨s', hgarbled, rfl, hcount⟩

end Session

end TraceReplay
