/-
  TraceReplay.Proofs.Evaluation — the word of a value by plain recursion over the graph.

  A value is evaluated in one pass that reads every value once, however often it is used. The
  plain recursion (`Table.plain`) computes an operand anew wherever it is used. On a well-formed
  table the two agree, if every input is bound (`WellFormed.plain_eq_outcome`). Evaluation gives a
  word if every operation below the value has a rule; if some have none, it stops at the first of
  them from left to right with operands before their operation (`Table.postorder`,
  `WellFormed.settled_outcome`).

  The inputs that are listed for a value are the symbols that can be reached from it
  (`WellFormed.mem_inputs_iff`); how many of them are unbound, and how many others are bound, is
  what evaluation looks at first (`WellFormed.evaluate_eq`).
-/

import TraceReplay.Proofs.Construction
import TraceReplay.Proofs.Formulas

namespace TraceReplay

/-! ## One value -/

namespace Opcode

def arity? : Opcode → Option Nat
  | add | sub | imul | xor | and | or | shl | shr => some 2
  | neg | inc => some 1
  | _ => none

theorem apply_eq_none_iff {opcode : Opcode} {ws : List Word} :
    opcode.apply ws = none ↔ opcode.arity? ≠ some ws.length := by
  obtain _ | ⟨a, _ | ⟨b, _ | ⟨c, ws⟩⟩⟩ := ws <;> cases opcode <;> simp [apply, arity?]

end Opcode

def truncate (width : Nat) (w : Word) : Word := BitVec.ofNat 32 (w.toNat % 2 ^ min (max width 1) 32)

theorem truncate_eq (width : Nat) (w : Word) : truncate width w = w &&& (BitRange.lowBits width).mask := by
  refine BitVec.eq_of_getLsbD_eq fun k hk => ?_
  have hcovers : (BitRange.lowBits width).covers k = decide (k < min (max width 1) 32) := by
    rw [Bool.eq_iff_iff, BitRange.covers_iff, decide_eq_true_iff]
    simp only [BitRange.lowBits]
    omega
  rw [BitVec.getLsbD_and, BitRange.getLsbD_mask (BitRange.lowBits_inWord width), hcovers, truncate,
    BitVec.getLsbD_ofNat, Nat.testBit_mod_two_pow, BitVec.testBit_toNat, decide_eq_true hk, Bool.true_and, Bool.and_comm]

def Value.compute (binding : Option Word) (v : Value) (ws : List Word) : Except Fault Word :=
  match v.node with
  | .symbol =>
    match binding with
    | some word => .ok (truncate v.width word)
    | none => .error (.bindingMismatch 1 0)
  | .constant bits => .ok bits.value
  | .hybrid pieces => .ok ((pieces.keys.zip ws).foldl (fun word p => word ||| p.1.place p.2) 0)
  | .operation opcode _ =>
    match opcode.apply ws with
    | some word => .ok word
    | none => .error (.unknownOperation opcode.name)

namespace Table

variable {t : Table}

/-! ## Plain recursion -/

/-- The word of a value by recursion: first those of its operands, from left to right. Nothing
    that was computed is kept. -/
def plain (t : Table) (ht : t.WellFormed) (b : Bindings) (id : ValueId) : Except Fault Word :=
  match hv : t.get? id with
  | none => .ok 0
  | some v => do
    let ws ← v.node.operands.attach.mapM fun o =>
      have := ht.operands_lt hv o.1 o.2
      t.plain ht b o.1
    v.compute (b.get? id) ws
termination_by id

/-- The values below a value, as often as they are used, operands before what is made of them. -/
def postorder (t : Table) (ht : t.WellFormed) (id : ValueId) : List ValueId :=
  match hv : t.get? id with
  | none => []
  | some v =>
    let below := v.node.operands.attach.flatMap fun o =>
      have := ht.operands_lt hv o.1 o.2
      t.postorder ht o.1
    below ++ [id]
termination_by id

def lacking? (t : Table) (id : ValueId) : Option Opcode :=
  (t.get? id).bind fun v =>
    match v.node with
    | .operation opcode operands => if opcode.arity? = some operands.length then none else some opcode
    | _ => none

def inputSet (t : Table) (root : ValueId) : Set ValueId := {id | t.Reaches root id ∧ t.IsInput id}

theorem plain_eq (ht : t.WellFormed) (b : Bindings) {id : Nat} {v : Value} (hv : t.get? id = some v) :
    t.plain ht b id = v.node.operands.mapM (t.plain ht b) >>= v.compute (b.get? id) := by
  rw [plain]
  split
  · rename_i hnone
    rw [hv] at hnone
    cases hnone
  · rename_i v' hv'
    cases hv.symm.trans hv'
    show (v.node.operands.attach.mapM fun o => t.plain ht b o.1) >>= v.compute (b.get? id) = _
    rw [List.mapM_subtype (g := t.plain ht b) fun _ _ => rfl, List.unattach_attach]

theorem postorder_eq (ht : t.WellFormed) {id : Nat} {v : Value} (hv : t.get? id = some v) :
    t.postorder ht id = v.node.operands.flatMap (t.postorder ht) ++ [id] := by
  rw [postorder]
  split
  · rename_i hnone
    rw [hv] at hnone
    cases hnone
  · rename_i v' hv'
    cases hv.symm.trans hv'
    show v.node.operands.attach.flatMap (fun o => t.postorder ht o.1) ++ [id] = _
    rw [List.flatMap_subtype (g := t.postorder ht) fun _ _ => rfl, List.unattach_attach]

end Table

/-! ## Evaluation is the recursion -/

theorem mapM_congr_left {m : Type → Type} [Monad m] [LawfulMonad m] {f g : ValueId → m Word} {ids : List ValueId}
    (h : ∀ o ∈ ids, f o = g o) : ids.mapM f = ids.mapM g := by
  induction ids with
  | nil => rfl
  | cons o ids ih =>
    obtain ⟨ho, hids⟩ := List.forall_mem_cons.mp h
    rw [List.mapM_cons, List.mapM_cons, ho, ih hids]

theorem findSome?_flatMap {α β γ : Type} (f : α → List β) (p : β → Option γ) (l : List α) :
    (l.flatMap f).findSome? p = l.findSome? fun a => (f a).findSome? p := by
  induction l with
  | nil => rfl
  | cons a l ih =>
    rw [List.flatMap_cons, List.findSome?_append, List.findSome?_cons, ih]
    cases (f a).findSome? p <;> rfl

theorem mapError_mapM {f : ValueId → Except Opcode Word} (name : Opcode → Fault) (ids : List ValueId) :
    ((ids.map f).mapM id).mapError name = ids.mapM fun o => (f o).mapError name := by
  induction ids with
  | nil => rfl
  | cons o ids ih =>
    rw [List.map_cons, List.mapM_cons, List.mapM_cons, ← ih]
    cases ho : f o with
    | error opcode => rfl
    | ok w => cases hids : (ids.map f).mapM id <;> rfl

/-- Placing pieces one by one is placing them when all their words are there. -/
theorem mapError_foldlM_place {ε : Type} {f : ValueId → Except ε Word} (name : ε → Fault)
    (l : List (BitRange × ValueId)) (acc : Word) :
    Except.mapError name
        ((l.map fun e => (e.1, f e.2)).foldlM (fun word p => p.2.map (word ||| p.1.place ·)) acc) =
      (l.map (·.2)).mapM (fun o => (f o).mapError name) >>= fun ws =>
        .ok (((l.map (·.1)).zip ws).foldl (fun word p => word ||| p.1.place p.2) acc) := by
  induction l generalizing acc with
  | nil => rfl
  | cons e l ih =>
    rw [List.map_cons, List.foldlM_cons, List.map_cons, List.mapM_cons]
    cases he : f e.2 with
    | error opcode => rfl
    | ok w =>
      refine (ih (acc ||| e.1.place w)).trans ?_
      cases hl : (l.map (·.2)).mapM fun o => (f o).mapError name <;> rfl

namespace Table

variable {t : Table}

def outcome (t : Table) (σ : Assignment) (id : ValueId) : Except Fault Word :=
  (t.eval σ id).mapError fun opcode => .unknownOperation opcode.name

theorem WellFormed.outcome_eq (ht : t.WellFormed) (σ : Assignment) {root : Nat} {v : Value}
    (hv : t.get? root = some v) :
    t.outcome σ root = v.node.operands.mapM (t.outcome σ) >>= v.compute (some (σ root)) := by
  rw [outcome, eval, ht.interpret_value _ hv]
  unfold Interpretation.value Value.compute
  cases v.node with
  | symbol =>
    simp only [truncate_eq]
    rfl
  | constant bits => rfl
  | hybrid pieces => exact mapError_foldlM_place _ pieces.entries 0
  | operation opcode operands =>
    have hargs : operands.mapM (t.outcome σ) = Except.mapError _ ((operands.map (t.eval σ)).mapM id) :=
      (mapError_mapM _ operands).symm
    show Except.mapError _ ((operands.map (t.eval σ)).mapM id >>= _) = _
    simp only [Node.operands, hargs]
    cases (operands.map (t.eval σ)).mapM id with
    | error opcode => rfl
    | ok ws =>
      show Except.mapError _ (match opcode.apply ws with
        | some word => .ok word
        | none => .error opcode) = match opcode.apply ws with
        | some word => .ok word
        | none => .error (Fault.unknownOperation opcode.name)
      cases opcode.apply ws <;> rfl

end Table

/-! ## Bindings -/

/-- Members of a list without duplicates are counted by its length. -/
theorem length_filter_eq_ncard {l : List ValueId} (hl : l.Nodup) {S T : Set ValueId} (hS : ∀ a, a ∈ l ↔ a ∈ S)
    {p : ValueId → Bool} (hT : ∀ a, p a = true ↔ a ∉ T) : (l.filter p).length = (S \ T).ncard := by
  have hset : S \ T = ((l.filter p).toFinset : Set ValueId) := by
    ext a
    simp [← hS, ← hT]
  rw [hset, Set.ncard_coe_finset, List.toFinset_card_of_nodup (hl.filter p)]

namespace Bindings

theorem nodup_keys (b : Bindings) : b.keys.Nodup :=
  (List.pairwise_map.mpr b.ascending).imp SortedMap.ne_of_compare_lt

end Bindings

/-! ## Values below a value -/

namespace Table

variable {t : Table} {root id : Nat} {v : Value}

theorem reaches_iff (hv : t.get? root = some v) :
    t.Reaches root id ↔ id = root ∨ ∃ o ∈ v.node.operands, t.Reaches o id := by
  constructor
  · rintro (_ | ⟨hv', ho, hreach⟩)
    · exact .inl rfl
    · cases hv.symm.trans hv'
      exact .inr ⟨_, ho, hreach⟩
  · rintro (rfl | ⟨o, ho, hreach⟩)
    · exact .refl _
    · exact .step hv ho hreach

theorem WellFormed.mem_postorder_iff (ht : t.WellFormed) (hroot : root < t.size) :
    id ∈ t.postorder ht root ↔ t.Reaches root id := by
  induction root using Nat.strongRecOn with
  | ind root ih =>
    obtain ⟨v, hv⟩ := get?_of_lt hroot
    have hlt := ht.operands_lt hv
    have hbelow : (∃ o ∈ v.node.operands, id ∈ t.postorder ht o) ↔ ∃ o ∈ v.node.operands, t.Reaches o id :=
      exists_congr fun o => and_congr_right fun ho => ih o (hlt o ho) (Nat.lt_trans (hlt o ho) hroot)
    rw [postorder_eq ht hv, reaches_iff hv, ← hbelow]
    simp [or_comm]

/-- The inputs of a value are itself, if it is a symbol, or those of its operands. -/
theorem WellFormed.mem_inputs (ht : t.WellFormed) (hv : t.get? root = some v) :
    id ∈ t.inputs root ↔ id = root ∧ v.node = .symbol ∨ ∃ o ∈ v.node.operands, id ∈ t.inputs o := by
  have hinputs : t.inputs root = Interpretation.inputs.value root v t.inputs := ht.interpret_value _ hv
  rw [hinputs]
  unfold Interpretation.value
  cases v.node with
  | symbol => simp [Interpretation.inputs, Node.operands]
  | constant bits => simp [Interpretation.inputs, Node.operands]
  | hybrid pieces =>
    have hparts : (pieces.entries.map fun e => (e.1, t.inputs e.2)).map (·.2) = pieces.values.map t.inputs := by
      rw [SortedMap.values, List.map_map, List.map_map]
      rfl
    show id ∈ ((pieces.entries.map fun e => (e.1, t.inputs e.2)).map (·.2)).foldl mergeAscending [] ↔ _
    rw [hparts, mem_foldl_mergeAscending]
    simp [Node.operands]
  | operation opcode operands => simp [Interpretation.inputs, Node.operands, mem_foldl_mergeAscending]

/-- The inputs that are listed are the symbols that can be reached. -/
theorem WellFormed.mem_inputs_iff (ht : t.WellFormed) (hroot : root < t.size) :
    id ∈ t.inputs root ↔ id ∈ t.inputSet root := by
  induction root using Nat.strongRecOn with
  | ind root ih =>
    obtain ⟨v, hv⟩ := get?_of_lt hroot
    have hlt := ht.operands_lt hv
    have hbelow : (∃ o ∈ v.node.operands, id ∈ t.inputs o) ↔ ∃ o ∈ v.node.operands, id ∈ t.inputSet o :=
      exists_congr fun o => and_congr_right fun ho => ih o (hlt o ho) (Nat.lt_trans (hlt o ho) hroot)
    have hset (o : ValueId) : id ∈ t.inputSet o ↔ t.Reaches o id ∧ t.IsInput id := Iff.rfl
    rw [ht.mem_inputs hv, hbelow, hset, reaches_iff hv]
    constructor
    · rintro (⟨rfl, hn⟩ | ⟨o, ho, hreach, hin⟩)
      · exact ⟨.inl rfl, v, hv, hn⟩
      · exact ⟨.inr ⟨o, ho, hreach⟩, hin⟩
    · rintro ⟨rfl | ⟨o, ho, hreach⟩, hin⟩
      · obtain ⟨v', hv', hn⟩ := hin
        cases hv.symm.trans hv'
        exact .inl ⟨rfl, hn⟩
      · exact .inr ⟨o, ho, hreach, hin⟩

theorem WellFormed.finite_inputSet (ht : t.WellFormed) (hroot : root < t.size) : (t.inputSet root).Finite :=
  (t.inputs root).finite_toSet.subset fun _ hs => (ht.mem_inputs_iff hroot).mpr hs

/-! ## Unbound symbols are not met -/

/-- If all its inputs are bound, the recursion takes their words under the assignment. -/
theorem plain_eq_of_bound (ht : t.WellFormed) {b : Bindings} (hroot : root < t.size)
    (hbound : ∀ s ∈ t.inputSet root, s ∈ b.keys) : t.plain ht b root = t.outcome b.assignment root := by
  induction root using Nat.strongRecOn with
  | ind root ih =>
    obtain ⟨v, hv⟩ := get?_of_lt hroot
    have hlt := ht.operands_lt hv
    have hoperands : v.node.operands.mapM (t.plain ht b) = v.node.operands.mapM (t.outcome b.assignment) := by
      refine mapM_congr_left fun o ho => ih o (hlt o ho) (Nat.lt_trans (hlt o ho) hroot) fun s hs => ?_
      exact hbound s ⟨.step hv ho hs.1, hs.2⟩
    have hcompute (ws : List Word) : v.compute (b.get? root) ws = v.compute (some (b.assignment root)) ws := by
      unfold Value.compute
      cases hn : v.node with
      | symbol =>
        obtain ⟨⟨_, word⟩, he, rfl⟩ := List.mem_map.mp (hbound root ⟨.refl root, v, hv, hn⟩)
        rw [Bindings.assignment, SortedMap.get?_eq_some_iff.mpr he]
        rfl
      | constant bits => rfl
      | hybrid pieces => rfl
      | operation opcode operands => rfl
    rw [plain_eq ht b hv, ht.outcome_eq _ hv, hoperands, funext hcompute]

/-! ## Where evaluation stops -/

def Settled (r : Except Fault Word) : Option Opcode → Prop
  | some opcode => r = .error (.unknownOperation opcode.name)
  | none => ∃ w, r = .ok w

theorem settled_compute (hv : t.get? root = some v) (x : Word) {ws : List Word}
    (hws : ws.length = v.node.operands.length) : Settled (v.compute (some x) ws) (t.lacking? root) := by
  unfold Value.compute
  rw [lacking?, hv, Option.bind_some]
  cases hn : v.node with
  | symbol => exact ⟨_, rfl⟩
  | constant bits => exact ⟨_, rfl⟩
  | hybrid pieces => exact ⟨_, rfl⟩
  | operation opcode operands =>
    have hws : ws.length = operands.length := by rw [hws, hn]; rfl
    by_cases harity : opcode.arity? = some operands.length
    · obtain ⟨w, hw⟩ : ∃ w, opcode.apply ws = some w := by
        rw [← Option.ne_none_iff_exists', ne_eq, Opcode.apply_eq_none_iff, hws]
        exact fun hne => hne harity
      simp only [if_pos harity, hw]
      exact ⟨w, rfl⟩
    · simp only [if_neg harity, Opcode.apply_eq_none_iff.mpr (hws ▸ harity)]
      rfl

/-- Operands are computed from left to right, up to the first that has no word. -/
theorem mapM_settled {f : ValueId → Except Fault Word} {stop : ValueId → Option Opcode} {ids : List ValueId}
    (h : ∀ o ∈ ids, Settled (f o) (stop o)) :
    (∀ opcode, ids.findSome? stop = some opcode → ids.mapM f = .error (.unknownOperation opcode.name)) ∧
      (ids.findSome? stop = none → ∃ ws, ids.mapM f = .ok ws ∧ ws.length = ids.length) := by
  induction ids with
  | nil => exact ⟨nofun, fun _ => ⟨[], rfl, rfl⟩⟩
  | cons o ids ih =>
    obtain ⟨ho, hids⟩ := List.forall_mem_cons.mp h
    rw [List.mapM_cons, List.findSome?_cons]
    cases hstop : stop o with
    | some opcode =>
      rw [hstop] at ho
      rw [show f o = _ from ho]
      exact ⟨fun _ hsome => by cases hsome; rfl, nofun⟩
    | none =>
      rw [hstop] at ho
      obtain ⟨w, hw⟩ := ho
      rw [hw]
      refine ⟨fun opcode hsome => ?_, fun hnone => ?_⟩
      · rw [(ih hids).1 opcode hsome]
        rfl
      · obtain ⟨ws, hws, hlength⟩ := (ih hids).2 hnone
        rw [hws]
        exact ⟨w :: ws, rfl, congrArg Nat.succ hlength⟩

/-- Evaluation stops at the first operation that has no rule, in the order of the recursion. -/
theorem WellFormed.settled_outcome (ht : t.WellFormed) (σ : Assignment) (hroot : root < t.size) :
    Settled (t.outcome σ root) ((t.postorder ht root).findSome? t.lacking?) := by
  induction root using Nat.strongRecOn with
  | ind root ih =>
    obtain ⟨v, hv⟩ := get?_of_lt hroot
    have hlt := ht.operands_lt hv
    obtain ⟨hstops, hgives⟩ := mapM_settled fun o ho => ih o (hlt o ho) (Nat.lt_trans (hlt o ho) hroot)
    rw [ht.outcome_eq σ hv, postorder_eq ht hv, List.findSome?_append, findSome?_flatMap]
    cases hfirst : v.node.operands.findSome? fun o => (t.postorder ht o).findSome? t.lacking? with
    | some opcode =>
      rw [hstops opcode hfirst]
      rfl
    | none =>
      obtain ⟨ws, hws, hlength⟩ := hgives hfirst
      rw [hws]
      have hself : [root].findSome? t.lacking? = t.lacking? root := by
        cases hl : t.lacking? root <;> simp [hl]
      rw [hself]
      exact settled_compute hv (σ root) hlength

/-! ## Bindings and inputs -/

section

variable (ht : t.WellFormed) (hroot : root < t.size) (b : Bindings)

include ht hroot

theorem WellFormed.length_unbound :
    ((t.inputs root).filter (!b.contains ·)).length = (t.inputSet root \ {s | s ∈ b.keys}).ncard := by
  refine length_filter_eq_ncard ((t.pairwise_inputs root).imp Nat.ne_of_lt) (fun _ => ht.mem_inputs_iff hroot) fun s => ?_
  rw [Bool.not_eq_true', ← Bool.not_eq_true, SortedMap.contains_iff]
  rfl

theorem WellFormed.length_unexpected :
    (b.keys.filter (!(t.inputs root).contains ·)).length = ({s | s ∈ b.keys} \ t.inputSet root).ncard := by
  refine length_filter_eq_ncard b.nodup_keys (fun _ => Iff.rfl) fun s => ?_
  rw [Bool.not_eq_true', ← Bool.not_eq_true, List.contains_iff_mem, ht.mem_inputs_iff hroot]

/-- How evaluation compares what is bound with the inputs, and what it does then. -/
theorem WellFormed.evaluate_eq :
    t.evaluate root b =
      if (t.inputSet root \ {s | s ∈ b.keys}).ncard + ({s | s ∈ b.keys} \ t.inputSet root).ncard > 0 then
        .error (.bindingMismatch (t.inputSet root \ {s | s ∈ b.keys}).ncard ({s | s ∈ b.keys} \ t.inputSet root).ncard)
      else t.outcome b.assignment root := by
  rw [evaluate]
  simp only [ht.length_unbound hroot, ht.length_unexpected hroot]
  split
  · rfl
  · rw [outcome]
    cases t.eval b.assignment root <;> rfl

variable {b}

/-- If no input is unbound, the recursion is evaluation under the assignment. -/
theorem WellFormed.plain_eq_outcome (hbound : (t.inputSet root \ {s | s ∈ b.keys}).ncard = 0) :
    t.plain ht b root = t.outcome b.assignment root := by
  refine plain_eq_of_bound ht hroot fun s hs => ?_
  by_contra hs'
  have hempty := (Set.ncard_eq_zero ((ht.finite_inputSet hroot).subset Set.sdiff_subset)).mp hbound
  exact Set.notMem_empty s (hempty ▸ ⟨hs, hs'⟩)

end

end Table

end TraceReplay
