/-
  TraceReplay.Proofs.MemoisedEvaluation — evaluation that remembers words is plain recursion.

  A value can be evaluated by a recursion that keeps the word of every value it has been at, and
  looks there first (`Table.memoised`). The table of words is handed from operand to operand and
  outlives a failure; an unbound symbol stops the recursion where it is met. Evaluation compares
  what is bound with the inputs that the walk over a queue finds, and then recurses with no words
  kept (`Table.evaluateMemoised`).

  What is kept is right (`Table.Remembers`) if it is what the plain recursion gives. From such words
  the recursion ends as the plain one does, and keeps such words, whether it succeeds or not
  (`Table.Agrees`, `agrees_memoised`). Proved, of every value of a well-formed table and all bindings
  (`memoised_evaluation_is_plain_recursion`):
  - if an input is unbound, or something else is bound, evaluation says how many there are of
    each, and nothing else;
  - otherwise it is the plain recursion. That never meets an unbound symbol, and gives a word if
    every operation below the value has a rule; if some have none, the one named is the first of
    them from left to right with operands before their operation (`Table.postorder`);
  - so it is the evaluation in one pass over the table.
-/

import TraceReplay.Proofs.InputWalk

namespace TraceReplay

abbrev Memo := Std.HashMap ValueId Word

namespace Table

variable {t : Table}

/-! ## The recursion -/

/-- The word of a value: the one that is kept, if there is one. Otherwise it is computed from the
    words of its operands, from left to right, and kept. -/
def memoised (t : Table) (ht : t.WellFormed) (b : Bindings) (id : ValueId) : EStateM Fault Memo Word := do
  match (← get)[id]? with
  | some word => return word
  | none =>
    let word ← (match hv : t.get? id with
      | none => pure 0
      | some v =>
        match hn : v.node with
        | .symbol =>
          match b.get? id with
          | some word => pure (word &&& (BitRange.lowBits v.width).mask)
          | none => throw (.bindingMismatch 1 0)
        | .constant bits => pure bits.value
        | .hybrid pieces =>
          pieces.entries.attach.foldlM (fun word (e : {e // e ∈ pieces.entries}) => do
            have : e.1.2 < id := ht.operands_lt hv _ (hn ▸ List.mem_map.mpr ⟨e.1, e.2, rfl⟩)
            return word ||| e.1.1.place (← t.memoised ht b e.1.2)) 0
        | .operation opcode operands => do
          let args ← operands.attach.mapM fun (o : {o // o ∈ operands}) =>
            have : o.1 < id := ht.operands_lt hv _ (hn ▸ o.2)
            t.memoised ht b o.1
          match opcode.apply args with
          | some word => pure word
          | none => throw (.unknownOperation opcode.name))
    modify (·.insert id word)
    return word
termination_by id

def evaluateMemoised (t : Table) (ht : t.WellFormed) (root : ValueId) (b : Bindings) : Except Fault Word :=
  let inputs := (InputWalk.finish t { queue := [root] }).inputs
  let unbound := (inputs.keys.filter (!b.contains ·)).length
  let unexpected := (b.keys.filter (!inputs.contains ·)).length
  if unbound + unexpected > 0 then .error (.bindingMismatch unbound unexpected)
  else
    match t.memoised ht b root ∅ with
    | .ok word _ => .ok word
    | .error fault _ => .error fault

/-! ## Words that are kept -/

def Remembers (t : Table) (ht : t.WellFormed) (b : Bindings) (memo : Memo) : Prop :=
  ∀ id word, memo[id]? = some word → t.plain ht b id = .ok word

def ending {α : Type} (r : Except Fault α) (memo : Memo) : EStateM.Result Fault Memo α :=
  match r with
  | .ok a => .ok a memo
  | .error fault => .error fault memo

/-- If the words that are kept are right, the computation has the result, and the words are right
    when it ends, also if it fails. -/
def Agrees {α : Type} (t : Table) (ht : t.WellFormed) (b : Bindings) (x : EStateM Fault Memo α)
    (r : Except Fault α) : Prop :=
  ∀ memo, t.Remembers ht b memo → ∃ memo', t.Remembers ht b memo' ∧ x memo = ending r memo'

section

variable {α β : Type} {ht : t.WellFormed} {b : Bindings} {id : ValueId}

theorem remembers_empty : t.Remembers ht b ∅ := by
  intro id word h
  simp at h

theorem Remembers.insert {memo : Memo} {word : Word} (h : t.Remembers ht b memo) (hword : t.plain ht b id = .ok word) :
    t.Remembers ht b (memo.insert id word) := by
  intro id' word' hget
  rw [Std.HashMap.getElem?_insert] at hget
  split at hget
  · rename_i heq
    cases hget
    rw [← beq_iff_eq.mp heq, hword]
  · exact h id' word' hget

theorem agrees_pure (a : α) : t.Agrees ht b (pure a) (.ok a) := fun memo h => ⟨memo, h, rfl⟩

theorem agrees_throw (fault : Fault) : t.Agrees ht b (throw fault : EStateM Fault Memo α) (.error fault) :=
  fun memo h => ⟨memo, h, rfl⟩

theorem Agrees.bind {x : EStateM Fault Memo α} {r : Except Fault α} {f : α → EStateM Fault Memo β}
    {g : α → Except Fault β} (hx : t.Agrees ht b x r) (hf : ∀ a, t.Agrees ht b (f a) (g a)) :
    t.Agrees ht b (x >>= f) (r >>= g) := by
  intro memo hmemo
  obtain ⟨memo₁, h₁, hrun⟩ := hx memo hmemo
  cases r with
  | error fault => exact ⟨memo₁, h₁, bind_run_error hrun⟩
  | ok a =>
    rw [bind_run hrun]
    exact hf a memo₁ h₁

theorem agrees_mapM {f : α → EStateM Fault Memo β} {g : α → Except Fault β} {l : List α}
    (h : ∀ a ∈ l, t.Agrees ht b (f a) (g a)) : t.Agrees ht b (l.mapM f) (l.mapM g) := by
  induction l with
  | nil => exact agrees_pure []
  | cons a l ih =>
    obtain ⟨ha, hl⟩ := List.forall_mem_cons.mp h
    rw [List.mapM_cons, List.mapM_cons]
    exact ha.bind fun _ => (ih hl).bind fun _ => agrees_pure _

theorem agrees_foldlM {f : β → α → EStateM Fault Memo β} {g : β → α → Except Fault β} {l : List α}
    (h : ∀ a ∈ l, ∀ acc, t.Agrees ht b (f acc a) (g acc a)) (acc : β) :
    t.Agrees ht b (l.foldlM f acc) (l.foldlM g acc) := by
  induction l generalizing acc with
  | nil => exact agrees_pure acc
  | cons a l ih =>
    obtain ⟨ha, hl⟩ := List.forall_mem_cons.mp h
    rw [List.foldlM_cons, List.foldlM_cons]
    exact (ha acc).bind fun acc => ih hl acc

/-- A word that is kept need not be computed, and one that was computed can be kept. -/
theorem agrees_kept {x : EStateM Fault Memo Word} (h : t.Agrees ht b x (t.plain ht b id)) :
    t.Agrees ht b (do
      match (← get)[id]? with
      | some word => return word
      | none =>
        let word ← x
        modify (·.insert id word)
        return word) (t.plain ht b id) := by
  intro memo hmemo
  have hlook : (get : EStateM Fault Memo Memo) memo = .ok memo memo := rfl
  rw [bind_run hlook]
  cases hget : memo[id]? with
  | some word => exact ⟨memo, hmemo, by rw [hmemo id word hget]; rfl⟩
  | none =>
    obtain ⟨memo₁, h₁, hrun⟩ := h memo hmemo
    cases hplain : t.plain ht b id with
    | error fault =>
      rw [hplain] at hrun
      exact ⟨memo₁, h₁, bind_run_error hrun⟩
    | ok word =>
      rw [hplain] at hrun
      exact ⟨memo₁.insert id word, h₁.insert hplain, bind_run hrun⟩

end

/-! ## The plain recursion, node by node -/

section

variable (ht : t.WellFormed) (b : Bindings) {id : ValueId} {v : Value}

theorem plain_of_none (hv : t.get? id = none) : t.plain ht b id = .ok 0 := by
  rw [plain]
  split
  · rfl
  · rename_i v hv'
    cases hv.symm.trans hv'

theorem plain_of_symbol (hv : t.get? id = some v) (hn : v.node = .symbol) :
    t.plain ht b id = match b.get? id with
      | some word => .ok (truncate v.width word)
      | none => .error (.bindingMismatch 1 0) := by
  have hcompute (ws : List Word) : v.compute (b.get? id) ws = match b.get? id with
      | some word => .ok (truncate v.width word)
      | none => .error (.bindingMismatch 1 0) := by
    cases b.get? id <;> simp only [Value.compute, hn]
  rw [plain_eq ht b hv, funext hcompute, hn]
  rfl

theorem plain_of_constant {bits : Bits} (hv : t.get? id = some v) (hn : v.node = .constant bits) :
    t.plain ht b id = .ok bits.value := by
  have hcompute (ws : List Word) : v.compute (b.get? id) ws = .ok bits.value := by
    simp only [Value.compute, hn]
  rw [plain_eq ht b hv, funext hcompute, hn]
  rfl

/-- Placing the pieces as their words are found is placing them when all are there. -/
theorem plain_of_hybrid {pieces : Pieces} (hv : t.get? id = some v) (hn : v.node = .hybrid pieces) :
    t.plain ht b id = pieces.entries.foldlM (fun word e => do return word ||| e.1.place (← t.plain ht b e.2)) 0 := by
  have hcompute (ws : List Word) : v.compute (b.get? id) ws =
      .ok ((pieces.keys.zip ws).foldl (fun word p => word ||| p.1.place p.2) 0) := by
    simp only [Value.compute, hn]
  have hid (x : Except Fault Word) : x.mapError (fun fault => fault) = x := by cases x <;> rfl
  have hplaced := mapError_foldlM_place (f := t.plain ht b) (fun fault => fault) pieces.entries 0
  simp only [hid, List.foldlM_map] at hplaced
  rw [plain_eq ht b hv, funext hcompute, hn]
  exact hplaced.symm

theorem plain_of_operation {opcode : Opcode} {operands : List ValueId} (hv : t.get? id = some v)
    (hn : v.node = .operation opcode operands) :
    t.plain ht b id = (do
      match opcode.apply (← operands.mapM (t.plain ht b)) with
      | some word => .ok word
      | none => .error (.unknownOperation opcode.name)) := by
  have hcompute (ws : List Word) : v.compute (b.get? id) ws = match opcode.apply ws with
      | some word => .ok word
      | none => .error (.unknownOperation opcode.name) := by
    cases happly : opcode.apply ws <;> simp only [Value.compute, hn, happly]
  rw [plain_eq ht b hv, funext hcompute, hn]
  rfl

end

/-! ## The recursions agree -/

/-- The recursion that keeps words agrees with the plain one, on every value and for all bindings. -/
theorem agrees_memoised (ht : t.WellFormed) (b : Bindings) (id : ValueId) :
    t.Agrees ht b (t.memoised ht b id) (t.plain ht b id) := by
  induction id using Nat.strongRecOn with
  | ind id ih =>
    rw [memoised]
    refine agrees_kept ?_
    split
    · rename_i hv
      rw [plain_of_none ht b hv]
      exact agrees_pure 0
    · rename_i v hv
      have hlt := ht.operands_lt hv
      split
      · rename_i hn
        rw [plain_of_symbol ht b hv hn]
        cases b.get? id with
        | none => exact agrees_throw _
        | some word =>
          simp only [truncate_eq]
          exact agrees_pure _
      · rename_i bits hn
        rw [plain_of_constant ht b hv hn]
        exact agrees_pure _
      · rename_i pieces hn
        have hpieces : (pieces.entries.attach.foldlM (fun word e => do
            return word ||| e.1.1.place (← t.plain ht b e.1.2)) 0 : Except Fault Word) = t.plain ht b id := by
          rw [plain_of_hybrid ht b hv hn, List.foldlM_subtype (g := fun word e => do
            return word ||| e.1.place (← t.plain ht b e.2)) fun _ _ _ => rfl, List.unattach_attach]
        rw [← hpieces]
        refine agrees_foldlM (fun e _ word => ?_) 0
        exact (ih e.1.2 (hlt _ (hn ▸ List.mem_map.mpr ⟨e.1, e.2, rfl⟩))).bind fun _ => agrees_pure _
      · rename_i opcode operands hn
        rw [plain_of_operation ht b hv hn]
        have hargs := agrees_mapM (l := operands.attach) fun o _ => ih o.1 (hlt _ (hn ▸ o.2))
        rw [List.mapM_subtype (g := t.plain ht b) fun _ _ => rfl, List.unattach_attach] at hargs
        refine hargs.bind fun args => ?_
        cases opcode.apply args with
        | none => exact agrees_throw _
        | some word => exact agrees_pure _

/-- The walk over the queue notes the inputs that one pass over the table lists. -/
theorem WellFormed.keys_finish (ht : t.WellFormed) {root : ValueId} (hroot : root < t.size) :
    (InputWalk.finish t { queue := [root] }).inputs.keys = t.inputs root := by
  obtain ⟨n, hends⟩ := InputWalk.exists_ends t { queue := [root] }
  exact ((InputWalk.covers_start t root).ends hends).keys_eq hends.queue_eq_nil ht hroot

/-- Evaluation compares what is bound with the inputs, and then is the plain recursion. -/
theorem WellFormed.evaluateMemoised_eq (ht : t.WellFormed) {root : ValueId} (hroot : root < t.size) (b : Bindings) :
    t.evaluateMemoised ht root b =
      if (t.inputSet root \ {s | s ∈ b.keys}).ncard + ({s | s ∈ b.keys} \ t.inputSet root).ncard > 0 then
        .error (.bindingMismatch (t.inputSet root \ {s | s ∈ b.keys}).ncard ({s | s ∈ b.keys} \ t.inputSet root).ncard)
      else t.plain ht b root := by
  have hkeys := ht.keys_finish hroot
  have hcontains (k : ValueId) :
      (InputWalk.finish t { queue := [root] }).inputs.contains k = (t.inputs root).contains k := by
    rw [Bool.eq_iff_iff, SortedMap.contains_iff, hkeys, List.contains_iff_mem]
  have hmemoised : (match t.memoised ht b root ∅ with
      | .ok word _ => .ok word
      | .error fault _ => .error fault) = t.plain ht b root := by
    obtain ⟨memo, -, hrun⟩ := agrees_memoised ht b root ∅ remembers_empty
    rw [hrun]
    cases t.plain ht b root <;> rfl
  rw [evaluateMemoised]
  simp only [hkeys, hcontains, hmemoised, ht.length_unbound hroot, ht.length_unexpected hroot]

/-- Evaluation of a value of a well-formed table, with words kept on the way. If the bound symbols
    are not its inputs, the answer is how many inputs are unbound and how many others are bound.
    Otherwise it is that of the plain recursion: a word, if every operation below the value has a
    rule, and the first one that has none if not. Whatever right words are kept when the recursion
    starts, it ends as the plain one does and keeps right words. So evaluation in one pass over the
    table gives the same answer. -/
theorem memoised_evaluation_is_plain_recursion (t : Table) (ht : t.WellFormed) (root : ValueId) (hroot : root < t.size)
    (b : Bindings) :
    let unbound := (t.inputSet root \ {s | s ∈ b.keys}).ncard
    let unexpected := ({s | s ∈ b.keys} \ t.inputSet root).ncard
    (unbound ≠ 0 ∨ unexpected ≠ 0 →
      t.evaluateMemoised ht root b = .error (.bindingMismatch unbound unexpected)) ∧
    (unbound = 0 ∧ unexpected = 0 →
      t.evaluateMemoised ht root b = t.plain ht b root ∧
      ((∀ id, t.Reaches root id → t.lacking? id = none) → ∃ w, t.plain ht b root = .ok w) ∧
      ((∃ id, t.Reaches root id ∧ t.lacking? id ≠ none) → ∃ opcode,
        (t.postorder ht root).findSome? t.lacking? = some opcode ∧
        t.plain ht b root = .error (.unknownOperation opcode.name))) ∧
    (∀ memo, t.Remembers ht b memo → ∃ memo', t.Remembers ht b memo' ∧
      t.memoised ht b root memo = ending (t.plain ht b root) memo') ∧
    t.evaluate root b = t.evaluateMemoised ht root b := by
  intro unbound unexpected
  have hmemoised := ht.evaluateMemoised_eq hroot b
  refine ⟨fun hne => ?_, fun ⟨hunbound, hunexpected⟩ => ⟨?_, ?_⟩, agrees_memoised ht b root, ?_⟩
  · rw [hmemoised, if_pos]
    omega
  · rw [hmemoised, if_neg]
    omega
  · have hsettled := ht.settled_outcome b.assignment hroot
    rw [ht.plain_eq_outcome hroot hunbound]
    refine ⟨fun hrules => ?_, fun ⟨id, hreach, hlacks⟩ => ?_⟩
    · have hnone : (t.postorder ht root).findSome? t.lacking? = none :=
        List.findSome?_eq_none_iff.mpr fun id hid => hrules id ((ht.mem_postorder_iff hroot).mp hid)
      rwa [hnone] at hsettled
    · cases hfirst : (t.postorder ht root).findSome? t.lacking? with
      | none =>
        have hnone := List.findSome?_eq_none_iff.mp hfirst id ((ht.mem_postorder_iff hroot).mpr hreach)
        exact absurd hnone hlacks
      | some opcode =>
        rw [hfirst] at hsettled
        exact ⟨opcode, rfl, hsettled⟩
  · rw [hmemoised, ht.evaluate_eq hroot b]
    split
    · rfl
    · exact (ht.plain_eq_outcome hroot (by omega)).symm

/-- Two operations without a rule on one byte, the sum of both, and the square of the byte doubled. -/
def byteHistory : List Construction :=
  [.symbol 8, .unary .dec 0, .unary .not 0, .binary .add 2 1, .binary .add 0 0, .binary .imul 4 4]

/-- The sum stops at its left operand, though the right one was built before it. The square of the
    doubled byte takes the low byte of what is bound, also if the double is kept already. -/
theorem the_left_operand_is_named_first :
    let t := empty.construct byteHistory
    let b : Bindings := .ofList [(0, 0x1ff)]
    ∃ ht : t.WellFormed,
      (3 < t.size ∧ t.evaluateMemoised ht 3 b = .error (.unknownOperation "not")) ∧
      (5 < t.size ∧ t.evaluateMemoised ht 5 b = .ok (0x1fe * 0x1fe)) ∧
      t.Remembers ht b ((∅ : Memo).insert 4 0x1fe) ∧
      ∃ memo', t.memoised ht b 5 ((∅ : Memo).insert 4 0x1fe) = .ok (0x1fe * 0x1fe) memo' := by
  intro t b
  have ht : t.WellFormed :=
    construct_wellFormed wellFormed_empty ⟨by decide, by decide, by decide, by decide, by decide, by decide, trivial⟩
  have main (id : ValueId) (hid : id < t.size) := memoised_evaluation_is_plain_recursion t ht id hid b
  -- an answer that is not a mismatch is that of the plain recursion
  have hplain {id : ValueId} (hid : id < t.size) (hne : ∀ k n, t.evaluate id b ≠ .error (.bindingMismatch k n)) :
      t.plain ht b id = t.evaluate id b := by
    obtain ⟨hmismatch, hmatch, -, heq⟩ := main id hid
    rw [heq] at hne ⊢
    refine (hmatch ?_).1.symm
    by_contra hcounts
    exact hne _ _ (hmismatch (by omega))
  have hstops : t.evaluate 3 b = .error (.unknownOperation "not") := by cbv
  have hdouble : t.evaluate 4 b = .ok 0x1fe := by cbv
  have hsquare : t.evaluate 5 b = .ok (0x1fe * 0x1fe) := by cbv
  have hkept : t.Remembers ht b ((∅ : Memo).insert 4 0x1fe) := by
    refine remembers_empty.insert ?_
    rw [hplain (by decide) (by rw [hdouble]; simp), hdouble]
  refine ⟨ht, ⟨by decide, ?_⟩, ⟨by decide, ?_⟩, hkept, ?_⟩
  · rw [← (main 3 (by decide)).2.2.2, hstops]
  · rw [← (main 5 (by decide)).2.2.2, hsquare]
  · obtain ⟨memo', -, hrun⟩ := (main 5 (by decide)).2.2.1 _ hkept
    rw [hplain (by decide) (by rw [hsquare]; simp), hsquare] at hrun
    exact ⟨memo', hrun⟩

end Table

end TraceReplay
