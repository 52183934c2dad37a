/-
  TraceReplay.Proofs.Replay.Reference — a machine that runs the same records on words.

  It has eight words for registers and a byte at every address. A view of a register is a field
  of its word, and writing one replaces that field only. Memory is read and written
  little-endian, at the recorded address if there is one. An instruction reads all its sources
  before it writes, and an exchange writes its first operand first. Operations are taken from
  given rules, on words that are zero-extended; pushing and popping leave the stack pointer.

  The machine is defined on mnemonics and operands. `result?_eq` says the same in terms of the
  action that an instruction is sorted into.
-/

import TraceReplay.Proofs.Memory.ByteStore
import TraceReplay.Proofs.Meaning
import TraceReplay.Proofs.Replay.Plan

namespace TraceReplay

def Rules.result (R : Rules) (opcode : Opcode) (args : List Word) : Word := (R.apply opcode args).getD 0

theorem Rules.apply_eq_result {R : Rules} {opcode : Opcode} {args : List Word}
    (h : ∃ w, R.apply opcode args = some w) : R.apply opcode args = some (R.result opcode args) := by
  obtain ⟨w, hw⟩ := h
  rw [result, hw]
  rfl

theorem Rules.result_of_apply {R : Rules} {opcode : Opcode} {args : List Word} {w : Word}
    (h : opcode.apply args = some w) : R.result opcode args = w := by
  rw [result, R.extends_apply h]
  rfl

/-- A register is as wide as its name says, and memory is accessed in bytes, halves or words. -/
def Operand.WidthConsistent : Operand → Prop
  | immediate _ => True
  | register name bits => (RegisterView.ofName? name).map RegisterView.bits = some bits.toNat
  | memory m => m.bits = 8 ∨ m.bits = 16 ∨ m.bits = 32

instance (o : Operand) : Decidable o.WidthConsistent :=
  match o with
  | .immediate _ => inferInstanceAs (Decidable True)
  | .register _ _ => inferInstanceAs (Decidable (_ = _))
  | .memory _ => inferInstanceAs (Decidable (_ ∨ _))

theorem Operand.WidthConsistent.byteCount {o : Operand} (h : o.WidthConsistent) :
    1 ≤ o.byteCount ∧ o.byteCount ≤ 4 ∧ o.bits.toNat = 8 * o.byteCount := by
  cases o with
  | immediate value => simp only [Operand.byteCount, Operand.bits]; decide
  | register name bits =>
    obtain ⟨view, -, hbits⟩ := Option.map_eq_some_iff.mp h
    simp only [Operand.byteCount, Operand.bits, ← hbits]
    cases view <;> (simp only [RegisterView.bits, RegisterView.span]; decide)
  | memory m =>
    simp only [Operand.byteCount, Operand.bits]
    rcases h with h | h | h <;> rw [h] <;> decide

namespace Instruction

def target (insn : Instruction) : Operand → Option Place
  | .immediate _ => none
  | .register name _ => (RegisterView.ofName? name).map .register
  | .memory m => match insn.accessAddress .write m with
    | .ok address => some (.memory address m.byteCount)
    | .error _ => none

def exchanged? (insn : Instruction) : Option (Operand × Operand) :=
  match insn.mnemonic, insn.operands with
  | "xchg", [a, b] => some (a, b)
  | _, _ => none

def WidthConsistent (insn : Instruction) : Prop :=
  (∀ o ∈ insn.operands, o.WidthConsistent) ∧ ∀ e ∈ insn.exchanged?, e.1.bits = e.2.bits

instance (insn : Instruction) : Decidable insn.WidthConsistent := inferInstanceAs (Decidable (_ ∧ _))

def operation? (insn : Instruction) : Option (Opcode × Nat) :=
  match insn.operands with
  | [_] => if insn.mnemonic ∈ ["push", "pop"] then none else some (.ofMnemonic insn.mnemonic, 1)
  | [_, _] => if insn.mnemonic ∈ ["mov", "movzx", "lea", "xchg"] then none
      else some (.ofMnemonic insn.mnemonic, 2)
  | [_, _, _] => some (.ofMnemonic insn.mnemonic, 2)
  | _ => none

def Modelled (R : Rules) (insn : Instruction) : Prop := ∀ opcode n, insn.operation? = some (opcode, n) →
  ∀ args : List Word, args.length = n → ∃ w, R.apply opcode args = some w

end Instruction

structure Machine where
  registers : Register → Word
  memory : ByteStore

namespace Machine

def view (m : Machine) (v : RegisterView) : Word := v.span.field (m.registers v.owner)

def setView (m : Machine) (v : RegisterView) (w : Word) : Machine :=
  { m with registers := fun r => if r = v.owner then v.span.replace (m.registers r) w else m.registers r }

def write (m : Machine) : Place → Word → Machine
  | .register v, w => m.setView v w
  | .memory address bytes, w => { m with memory := m.memory.store address bytes w }

def operand (m : Machine) (insn : Instruction) : Operand → Word
  | .immediate value => value
  | .register name _ => ((RegisterView.ofName? name).map m.view).getD 0
  | .memory o => match insn.accessAddress .read o with
    | .ok address => m.memory.load address o.byteCount
    | .error _ => 0

def result? (R : Rules) (m : Machine) (insn : Instruction) : Option (Place × Word) :=
  match insn.operands with
  | [o] =>
    match insn.mnemonic with
    | "push" => some (.memory (insn.pushAddress o.byteCount) o.byteCount, m.operand insn o)
    | "pop" => (insn.target o).map (·, m.memory.load insn.popAddress o.byteCount)
    | name => (insn.target o).map (·, R.result (.ofMnemonic name) [m.operand insn o])
  | [a, b] =>
    match insn.mnemonic with
    | "mov" => (insn.target a).map (·, m.operand insn b)
    | "movzx" => (insn.target a).map (·, m.operand insn b)
    | "lea" => match b with
      | .memory o => (insn.target a).map (·, o.form.resolve m.registers)
      | _ => none
    | "xchg" => none
    | name => (insn.target a).map (·, R.result (.ofMnemonic name) [m.operand insn a, m.operand insn b])
  | [a, b, c] => (insn.target a).map (·, R.result (.ofMnemonic insn.mnemonic) [m.operand insn b, m.operand insn c])
  | _ => none

def exchange (m : Machine) (insn : Instruction) (a b : Operand) : Machine :=
  match insn.target a, insn.target b with
  | some p, some q => (m.write p (m.operand insn b)).write q (m.operand insn a)
  | _, _ => m

def execute (R : Rules) (m : Machine) (insn : Instruction) : Machine :=
  match insn.exchanged? with
  | some (a, b) => m.exchange insn a b
  | none =>
    match m.result? R insn with
    | some (place, w) => m.write place w
    | none => m

/-- An instruction that is passed over changes nothing. -/
def step (R : Rules) (skip : SkipSet) (m : Machine) (insn : Instruction) : Machine :=
  if skip.contains insn.mnemonic then m else m.execute R insn

def run (R : Rules) (skip : SkipSet) (m : Machine) (trace : List Instruction) : Machine :=
  trace.foldl (step R skip) m

/-! ## Actions -/

def source (m : Machine) (insn : Instruction) : Source → Word
  | .operand o => m.operand insn o
  | .slot address bytes => m.memory.load address bytes
  | .register r => m.registers r

end Machine

def Action.result (R : Rules) : Action → List Word → Word
  | unary opcode _, [x] => R.result opcode [x]
  | binary opcode _ _, [y, x] => R.result opcode [x, y]
  | shift opcode _ count, [x] => R.result opcode [x, count]
  | mask opcode _ word, [x] => R.result opcode [x, word]
  | multiply _ _ factor, [x] => R.result .imul [x, factor]
  | loadAddress _ (.baseIndex _ _ scale), [b, i] => b + i * scale
  | _, x :: _ => x
  | _, [] => 0

/-- Only an instruction without operands does nothing. -/
theorem Action.operands_of_nothing {insn : Instruction} (h : Action.ofInstruction insn = .nothing) :
    insn.operands = [] := by
  unfold Action.ofInstruction at h
  split at h
  · assumption
  · unfold Action.ofOneOperand at h
    repeat' split at h
    all_goals cases h
  · unfold Action.ofTwoOperands Action.ofArithmetic at h
    repeat' split at h
    all_goals cases h
  · unfold Action.ofThreeOperands at h
    split at h <;> cases h
  · cases h

theorem Session.target_of_destination {s : Session} {insn : Instruction} {o : Operand} {place : Place}
    (h : s.destination insn o = .ok place) : insn.target o = some place := by
  obtain ⟨name, bits, view, rfl, hname, -, rfl⟩ | ⟨m, address, rfl, haddress, -, rfl⟩ := destination_ok h
  · rw [Instruction.target, hname]
    rfl
  · rw [Instruction.target, haddress]

namespace Machine

variable {R : Rules} {s : Session} {insn : Instruction} {place : Place}

def outcome (R : Rules) (m : Machine) (insn : Instruction) (a : Action) (place : Place) : Place × Word :=
  (place, a.result R ((a.sources insn).map (m.source insn)))

/-- The forms for a register and a constant compute what the general form does. -/
theorem outcome_ofArithmetic (m : Machine) {opcode : Opcode} {target source : Operand}
    (h : s.locate insn (.ofArithmetic opcode target source) = .ok place) :
    insn.target target = some place ∧ m.outcome R insn (.ofArithmetic opcode target source) place =
      (place, R.result opcode [m.operand insn target, m.operand insn source]) := by
  unfold Action.ofArithmetic at h ⊢
  split at h <;> exact ⟨Session.target_of_destination h, rfl⟩

theorem result?_one (m : Machine) {o : Operand} (hops : insn.operands = [o])
    (h : s.locate insn (.ofOneOperand insn.mnemonic o) = .ok place) :
    m.result? R insn = some (m.outcome R insn (.ofOneOperand insn.mnemonic o) place) := by
  by_cases hpush : insn.mnemonic = "push"
  · have haction : Action.ofOneOperand insn.mnemonic o = .push o := by rw [hpush]; rfl
    rw [haction] at h ⊢
    simp only [Session.locate, bind, Except.bind] at h
    split at h <;> cases h
    rw [result?, hops]
    simp only [hpush]
    rfl
  by_cases hpop : insn.mnemonic = "pop"
  · have haction : Action.ofOneOperand insn.mnemonic o = .pop o := by rw [hpop]; rfl
    rw [haction] at h ⊢
    simp only [result?, hops, hpop, Session.target_of_destination h]
    rfl
  · have haction : Action.ofOneOperand insn.mnemonic o =
        if o.isImmediate then .unsupported else .unary (.ofMnemonic insn.mnemonic) o := by
      unfold Action.ofOneOperand
      split <;> simp_all
    have hresult : m.result? R insn = (insn.target o).map
        (·, R.result (.ofMnemonic insn.mnemonic) [m.operand insn o]) := by
      simp only [result?, hops]
    rw [haction] at h ⊢
    split at h
    · cases h
    · rw [hresult, Session.target_of_destination h, if_neg ‹_›]
      rfl

theorem result?_lea (m : Machine) {a b : Operand} (hops : insn.operands = [a, b]) (hlea : insn.mnemonic = "lea")
    (h : s.locate insn (.ofTwoOperands "lea" a b) = .ok place) :
    m.result? R insn = some (m.outcome R insn (.ofTwoOperands "lea" a b) place) := by
  cases a with
  | immediate => cases h
  | memory => cases h
  | register name bits =>
    cases b with
    | immediate => cases h
    | register => cases h
    | memory o =>
      have haction : Action.ofTwoOperands "lea" (.register name bits) (.memory o) =
          .loadAddress (.register name bits) o.form := rfl
      rw [haction] at h ⊢
      -- only a base plus a scaled index has a place
      cases hform : o.form with
      | baseIndex base index scale =>
        simp only [hform, Session.locate] at h
        simp only [result?, hops, hlea, Session.target_of_destination h, hform]
        rfl
      | _ => rw [hform] at h; cases h

theorem result?_two (m : Machine) {a b : Operand} (hops : insn.operands = [a, b])
    (h : s.locate insn (.ofTwoOperands insn.mnemonic a b) = .ok place) :
    m.result? R insn = some (m.outcome R insn (.ofTwoOperands insn.mnemonic a b) place) := by
  by_cases hmov : insn.mnemonic = "mov" ∨ insn.mnemonic = "movzx"
  · have haction : Action.ofTwoOperands insn.mnemonic a b = .move a b := by
      rcases hmov with hmov | hmov <;> rw [hmov] <;> rfl
    have hresult : m.result? R insn = (insn.target a).map (·, m.operand insn b) := by
      rw [result?, hops]
      rcases hmov with hmov | hmov <;> simp only [hmov]
    rw [haction] at h ⊢
    rw [hresult, Session.target_of_destination h]
    rfl
  rw [not_or] at hmov
  obtain ⟨hmov, hmovzx⟩ := hmov
  by_cases hlea : insn.mnemonic = "lea"
  · rw [hlea] at h ⊢
    exact m.result?_lea hops hlea h
  by_cases hxchg : insn.mnemonic = "xchg"
  · have haction : Action.ofTwoOperands insn.mnemonic a b = .exchange a b := by rw [hxchg]; rfl
    rw [haction] at h
    cases h
  · have haction : Action.ofTwoOperands insn.mnemonic a b = .ofArithmetic (.ofMnemonic insn.mnemonic) a b := by
      unfold Action.ofTwoOperands
      split <;> simp_all
    have hresult : m.result? R insn = (insn.target a).map
        (·, R.result (.ofMnemonic insn.mnemonic) [m.operand insn a, m.operand insn b]) := by
      simp only [result?, hops]
    rw [haction] at h ⊢
    obtain ⟨htarget, hout⟩ := m.outcome_ofArithmetic h
    rw [hresult, htarget, hout]
    rfl

theorem result?_three (m : Machine) {a b c : Operand} (hops : insn.operands = [a, b, c])
    (h : s.locate insn (.ofThreeOperands insn.mnemonic a b c) = .ok place) :
    m.result? R insn = some (m.outcome R insn (.ofThreeOperands insn.mnemonic a b c) place) := by
  unfold Action.ofThreeOperands at h ⊢
  split at h
  · rename_i hname
    simp only [Session.locate] at h
    simp only [result?, hops, Session.target_of_destination h, hname]
    rfl
  · cases h

/-- The machine does what the action says, at the place where the session writes. -/
theorem result?_eq (m : Machine) (h : s.locate insn (.ofInstruction insn) = .ok place) :
    m.result? R insn = some (m.outcome R insn (.ofInstruction insn) place) := by
  unfold Action.ofInstruction at h ⊢
  split at h
  · cases h
  · exact m.result?_one ‹_› h
  · exact m.result?_two ‹_› h
  · exact m.result?_three ‹_› h
  · cases h

theorem result?_of_nothing (R : Rules) (m : Machine) (h : Action.ofInstruction insn = .nothing) :
    m.result? R insn = none := by
  simp only [result?, Action.operands_of_nothing h]

end Machine

namespace Action

variable {insn : Instruction}

theorem exchanged?_eq (insn : Instruction) : insn.exchanged? = match ofInstruction insn with
    | exchange a b => some (a, b)
    | _ => none := by
  unfold Instruction.exchanged?
  split
  · rename_i hname hops
    simp only [ofInstruction, hops, ofTwoOperands, hname]
  · rename_i hne
    split
    · rename_i x y h
      unfold ofInstruction at h
      split at h
      · cases h
      · unfold ofOneOperand at h
        split at h <;> (try split at h) <;> cases h
      · rename_i a b hops
        unfold ofTwoOperands at h
        split at h
        · cases h
        · cases h
        · split at h <;> cases h
        · exact absurd hops (hne a b ‹_›)
        · unfold ofArithmetic at h
          split at h <;> cases h
      · unfold ofThreeOperands at h
        split at h <;> cases h
      · cases h
    · rfl

def Modelled (R : Rules) : Action → Prop
  | unary opcode _ => ∀ x, ∃ w, R.apply opcode [x] = some w
  | binary opcode _ _ => ∀ x y, ∃ w, R.apply opcode [x, y] = some w
  | shift opcode _ _ => ∃ d, Direction.ofOpcode? opcode = some d
  | mask opcode _ _ => ∀ x y, ∃ w, opcode.apply [x, y] = some w
  | _ => True

theorem modelled_ofArithmetic {R : Rules} {opcode : Opcode} (h : ∀ x y, ∃ w, R.apply opcode [x, y] = some w)
    {target source : Operand} : (ofArithmetic opcode target source).Modelled R := by
  unfold ofArithmetic
  split
  · exact ⟨.left, rfl⟩
  · exact ⟨.right, rfl⟩
  · exact fun x y => ⟨x &&& y, rfl⟩
  · exact fun x y => ⟨x ||| y, rfl⟩
  · exact h

theorem modelled_ofInstruction {R : Rules} (h : insn.Modelled R) : (ofInstruction insn).Modelled R := by
  unfold ofInstruction
  split
  · trivial
  · rename_i o hops
    unfold ofOneOperand
    split
    · trivial
    · trivial
    · rename_i hpush hpop
      split
      · trivial
      · intro x
        refine h _ 1 ?_ [x] rfl
        simpa [Instruction.operation?, hops] using ⟨hpush, hpop⟩
  · rename_i a b hops
    unfold ofTwoOperands
    split
    · trivial
    · trivial
    · split <;> trivial
    · trivial
    · rename_i hmov hmovzx hlea hxchg
      refine modelled_ofArithmetic fun x y => h _ 2 ?_ [x, y] rfl
      simpa [Instruction.operation?, hops] using ⟨hmov, hmovzx, hlea, hxchg⟩
  · unfold ofThreeOperands
    split <;> trivial
  · trivial

end Action

/-! ## Widths -/

def Action.operands : Action → List Operand
  | nothing => []
  | unsupported => []
  | push source => [source]
  | pop target => [target]
  | move target source => [target, source]
  | exchange a b => [a, b]
  | loadAddress target _ => [target]
  | unary _ target => [target]
  | binary _ target source => [target, source]
  | shift _ target count => [target, .immediate count]
  | mask _ target word => [target, .immediate word]
  | multiply target source factor => [target, source, .immediate factor]

theorem Action.operands_subset (insn : Instruction) : (ofInstruction insn).operands ⊆ insn.operands := by
  unfold ofInstruction
  split
  · simp [operands]
  · rename_i hops
    rw [hops]
    unfold ofOneOperand
    repeat' split
    all_goals simp [operands]
  · rename_i hops
    rw [hops]
    unfold ofTwoOperands ofArithmetic
    repeat' split
    all_goals simp [operands]
  · rename_i hops
    rw [hops]
    unfold ofThreeOperands
    split <;> simp [operands]
  · simp [operands]

def Source.WidthConsistent : Source → Prop
  | operand o => o.WidthConsistent
  | slot _ bytes => 1 ≤ bytes ∧ bytes ≤ 4
  | register _ => True

def Place.bits : Place → Nat
  | register view => view.bits
  | memory _ bytes => 8 * bytes

namespace Instruction

variable {insn : Instruction}

theorem target_bits {o : Operand} (ho : o.WidthConsistent) {place : Place} (h : insn.target o = some place) :
    place.bits = o.bits.toNat := by
  cases o with
  | immediate value => cases h
  | register name bits =>
    obtain ⟨view, hview, hbits⟩ := Option.map_eq_some_iff.mp ho
    rw [target, hview] at h
    cases h
    exact hbits
  | memory m =>
    simp only [target] at h
    split at h
    · cases h
      exact (Operand.WidthConsistent.byteCount ho).2.2.symm
    · cases h

theorem WidthConsistent.operands (h : insn.WidthConsistent) :
    ∀ o ∈ (Action.ofInstruction insn).operands, o.WidthConsistent :=
  fun o ho => h.1 o (Action.operands_subset insn ho)

theorem WidthConsistent.sources (h : insn.WidthConsistent) :
    ∀ source ∈ (Action.ofInstruction insn).sources insn, source.WidthConsistent := by
  have ho := h.operands
  generalize Action.ofInstruction insn = a at ho
  cases a with
  | pop target =>
    intro source hs
    obtain ⟨h1, h4, -⟩ := (ho target (by simp [Action.operands])).byteCount
    obtain rfl := List.mem_singleton.mp hs
    exact ⟨h1, h4⟩
  | loadAddress target form => cases form <;> simp [Action.sources, Source.WidthConsistent]
  | _ => simp_all [Action.sources, Action.operands, Source.WidthConsistent]

/-- Whatever is written has one to four bytes. -/
theorem WidthConsistent.place (h : insn.WidthConsistent) {s : Session} {place : Place}
    (hl : s.locate insn (.ofInstruction insn) = .ok place) : 8 ≤ place.bits ∧ place.bits ≤ 32 := by
  have written {o : Operand} (ho : o.WidthConsistent) (hbits : place.bits = o.bits.toNat) :
      8 ≤ place.bits ∧ place.bits ≤ 32 := by
    obtain ⟨h1, h4, hb⟩ := ho.byteCount
    omega
  have ho := h.operands
  generalize Action.ofInstruction insn = a at ho hl
  cases a with
  | push source =>
    have hsource := ho source (by simp [Action.operands])
    simp only [Session.locate, bind, Except.bind] at hl
    split at hl <;> cases hl
    exact written hsource hsource.byteCount.2.2.symm
  | loadAddress target form =>
    have htarget := ho target (by simp [Action.operands])
    cases form with
    | baseIndex => exact written htarget (target_bits htarget (Session.target_of_destination hl))
    | _ => cases hl
  | pop target | move target | unary _ target | binary _ target | shift _ target | mask _ target | multiply target =>
    have htarget := ho target (by simp [Action.operands])
    exact written htarget (target_bits htarget (Session.target_of_destination hl))
  | nothing | unsupported | exchange => cases hl

end Instruction

def Machine.Fits (R : Rules) (m : Machine) (insn : Instruction) : Prop :=
  insn.exchanged? = none → ∀ place w, m.result? R insn = some (place, w) → w.toNat < 2 ^ place.bits

instance (R : Rules) (m : Machine) (insn : Instruction) : Decidable (m.Fits R insn) :=
  decidable_of_iff (insn.exchanged? = none → ∀ o ∈ m.result? R insn, o.2.toNat < 2 ^ o.1.bits)
    ⟨fun h hx place w hres => h hx (place, w) hres, fun h hx o ho => h hx o.1 o.2 ho⟩

/-- An operand is a number of its own width. -/
theorem Machine.operand_lt (m : Machine) (insn : Instruction) {o : Operand} (h : o.WidthConsistent) :
    (m.operand insn o).toNat < 2 ^ o.bits.toNat := by
  cases o with
  | immediate value => exact value.isLt
  | register name bits =>
    obtain ⟨view, hview, hbits⟩ := Option.map_eq_some_iff.mp h
    simp only [operand, hview, Operand.bits, ← hbits]
    exact BitRange.field_lt view.span_inWord _
  | memory access =>
    rw [h.byteCount.2.2]
    simp only [operand]
    split
    · exact m.memory.load_lt _ _
    · exact Nat.two_pow_pos _

/-! ## Parts of a trace -/

namespace Trace

variable {insn : Instruction} {rest : List Instruction}

theorem forall_before_cons {P : List Instruction → Prop} :
    (∀ before after, insn :: rest = before ++ after → P before) ↔
      P [] ∧ ∀ before after, rest = before ++ after → P (insn :: before) := by
  constructor
  · exact fun h => ⟨h [] _ rfl, fun before after hsplit => h (insn :: before) after (hsplit ▸ rfl)⟩
  · rintro ⟨hnil, hcons⟩ before after hsplit
    cases before with
    | nil => exact hnil
    | cons x before =>
      obtain ⟨rfl, hrest⟩ := List.cons.inj hsplit
      exact hcons before after hrest

theorem forall_at_cons {P : List Instruction → Instruction → Prop} :
    (∀ before x after, insn :: rest = before ++ x :: after → P before x) ↔
      P [] insn ∧ ∀ before x after, rest = before ++ x :: after → P (insn :: before) x := by
  constructor
  · exact fun h => ⟨h [] _ _ rfl, fun before x after hsplit => h (insn :: before) x after (hsplit ▸ rfl)⟩
  · rintro ⟨hnil, hcons⟩ before x after hsplit
    cases before with
    | nil =>
      obtain ⟨rfl, -⟩ := List.cons.inj hsplit
      exact hnil
    | cons y before =>
      obtain ⟨rfl, hrest⟩ := List.cons.inj hsplit
      exact hcons before x after hrest

end Trace

def Machine.AlwaysFits (R : Rules) (skip : SkipSet) (m : Machine) (trace : List Instruction) : Prop :=
  ∀ before insn after, trace = before ++ insn :: after → skip.contains insn.mnemonic = false →
    (m.run R skip before).Fits R insn

theorem Machine.alwaysFits_cons {R : Rules} {skip : SkipSet} {m : Machine} {insn : Instruction}
    {rest : List Instruction} : m.AlwaysFits R skip (insn :: rest) ↔
      (skip.contains insn.mnemonic = false → m.Fits R insn) ∧ (m.step R skip insn).AlwaysFits R skip rest :=
  Trace.forall_at_cons

end TraceReplay
