/-
  TraceReplay.Proofs.InputWalk — the inputs of a value, found by a walk over a queue.

  The inputs of a value are listed by one pass over the table (`Table.inputs`). They can also be found by
  a breadth-first walk: a value is taken off the front of a queue; if it was not seen before, a symbol
  is noted, and the operands of an operation or the pieces of a hybrid word join the queue at its end
  (`InputWalk.turn?`). A value joins the queue once for each use, so the queue may grow while values
  repeat in it.

  Every turn makes either the values that are not seen yet fewer or the queue shorter, so the walk ends
  (`InputWalk.exists_ends`). What is seen or waits in the queue is reachable, and what a seen value
  refers to is seen or waits (`InputWalk.Covers`). Proved, of every value of a well-formed table
  (`the_walk_ends_with_the_reachable_symbols`): the walk ends, after one turn and one more for each edge
  below the value; then it has seen the values that can be reached, and noted the symbols among them,
  which are the inputs that the pass lists.
-/

import TraceReplay.Proofs.Evaluation

namespace TraceReplay

def Table.below (t : Table) (id : ValueId) : List ValueId := ((t.get? id).map (·.node.operands)).getD []

/-- A walk under way: the symbols that were noted, the values that were seen, and those to look at. -/
structure InputWalk where
  inputs : SortedMap ValueId Unit := .empty
  seen : Finset ValueId := ∅
  queue : List ValueId

namespace InputWalk

def visit (t : Table) (id : ValueId) (w : InputWalk) : InputWalk :=
  match (t.get? id).map Value.node with
  | some .symbol => { w with inputs := w.inputs.insert id () }
  | some (.constant _) => w
  | some (.hybrid pieces) => { w with queue := w.queue ++ pieces.values }
  | some (.operation _ operands) => { w with queue := w.queue ++ operands }
  | none => w

def turn? (t : Table) (w : InputWalk) : Option InputWalk :=
  match w.queue with
  | [] => none
  | id :: rest =>
    if id ∈ w.seen then some { w with queue := rest }
    else some (visit t id { w with seen := insert id w.seen, queue := rest })

inductive Ends (t : Table) : Nat → InputWalk → InputWalk → Prop
  | stop {w : InputWalk} : w.turn? t = none → Ends t 0 w w
  | turn {n : Nat} {w w₁ w' : InputWalk} : w.turn? t = some w₁ → Ends t n w₁ w' → Ends t (n + 1) w w'

variable {t : Table} {w w' : InputWalk} {root : ValueId}

/-! ## One turn -/

theorem visit_spec (t : Table) (id : ValueId) (w : InputWalk) :
    (visit t id w).seen = w.seen ∧ (visit t id w).queue = w.queue ++ t.below id ∧
      ∀ x, x ∈ (visit t id w).inputs.keys ↔ x ∈ w.inputs.keys ∨ x = id ∧ t.IsInput id := by
  have hinput {v : Value} (hv : t.get? id = some v) : t.IsInput id ↔ v.node = .symbol := by
    simp [Table.IsInput, hv]
  unfold visit Table.below
  cases hv : t.get? id with
  | none =>
    have : ¬ t.IsInput id := by simp [Table.IsInput, hv]
    simp [this]
  | some v =>
    rw [hinput hv]
    simp only [Option.map_some, Option.getD_some]
    cases hn : v.node with
    | symbol => simp [Node.operands, SortedMap.mem_keys_insert, or_comm]
    | constant bits => simp [Node.operands]
    | hybrid pieces => simp [Node.operands]
    | operation opcode operands => simp [Node.operands]

/-- A turn drops a value that was seen, or sees a value, notes it if it is a symbol, and queues what it
    refers to. -/
theorem turn?_cases (h : w.turn? t = some w') : ∃ id rest, w.queue = id :: rest ∧
    (id ∈ w.seen ∧ w' = { w with queue := rest } ∨
      id ∉ w.seen ∧ w'.seen = insert id w.seen ∧ w'.queue = rest ++ t.below id ∧
        ∀ x, x ∈ w'.inputs.keys ↔ x ∈ w.inputs.keys ∨ x = id ∧ t.IsInput id) := by
  unfold turn? at h
  split at h
  · cases h
  · rename_i id rest hqueue
    refine ⟨id, rest, hqueue, ?_⟩
    split at h
    · rename_i hseen
      cases h
      exact .inl ⟨hseen, rfl⟩
    · rename_i hseen
      cases h
      exact .inr ⟨hseen, visit_spec t id _⟩

theorem turn?_eq_none_iff : w.turn? t = none ↔ w.queue = [] := by
  unfold turn?
  split
  · simp_all
  · split <;> simp_all

/-! ## The walk ends -/

def unseen (t : Table) (w : InputWalk) : Nat := (Finset.range t.size \ w.seen).card

/-- A turn that lengthens the queue has seen one more value of the table. -/
theorem turn?_decreases (h : w.turn? t = some w') :
    Prod.Lex (· < ·) (· < ·) (w'.unseen t, w'.queue.length) (w.unseen t, w.queue.length) := by
  obtain ⟨id, rest, hqueue, ⟨-, rfl⟩ | ⟨hnew, hseen, hqueue', -⟩⟩ := turn?_cases h
  · rw [hqueue]
    exact .right _ (Nat.lt_succ_self _)
  · have hsub : Finset.range t.size \ w'.seen ⊆ Finset.range t.size \ w.seen :=
      Finset.sdiff_subset_sdiff (Finset.Subset.refl _) (by rw [hseen]; exact Finset.subset_insert _ _)
    by_cases hid : id < t.size
    · refine .left _ _ (Finset.card_lt_card ⟨hsub, fun hsup => ?_⟩)
      have hin : id ∈ Finset.range t.size \ w.seen := Finset.mem_sdiff.mpr ⟨Finset.mem_range.mpr hid, hnew⟩
      have hout := (Finset.mem_sdiff.mp (hsup hin)).2
      rw [hseen] at hout
      exact hout (Finset.mem_insert_self _ _)
    · -- an id outside of the table refers to nothing
      have hnone : t.get? id = none := by
        rw [Table.get?, Array.getElem?_eq_none_iff]
        exact Nat.le_of_not_lt hid
      have hbelow : t.below id = [] := by rw [Table.below, hnone]; rfl
      rw [hqueue', hqueue, hbelow, List.append_nil]
      rcases Nat.lt_or_eq_of_le (Finset.card_le_card hsub) with hlt | heq
      · exact .left _ _ hlt
      · rw [unseen, unseen, heq]
        exact .right _ (Nat.lt_succ_self _)

def finish (t : Table) (w : InputWalk) : InputWalk :=
  match _h : w.turn? t with
  | none => w
  | some w₁ => finish t w₁
termination_by (w.unseen t, w.queue.length)
decreasing_by exact turn?_decreases _h

/-- Wherever it stands and whatever the table is, the walk ends. -/
theorem exists_ends (t : Table) (w : InputWalk) : ∃ n, Ends t n w (finish t w) := by
  fun_induction finish t w with
  | case1 w h => exact ⟨0, .stop h⟩
  | case2 w w₁ h ih =>
    obtain ⟨n, hends⟩ := ih
    exact ⟨n + 1, .turn h hends⟩

theorem Ends.queue_eq_nil {n : Nat} (h : Ends t n w w') : w'.queue = [] := by
  induction h with
  | stop h => exact turn?_eq_none_iff.mp h
  | turn _ _ ih => exact ih

/-- A turn takes one value off the queue. It joined the queue for an edge from a value that was seen,
    if it was not there from the start. -/
theorem Ends.turns {n : Nat} (h : Ends t n w w') :
    n + ∑ id ∈ w.seen, (t.below id).length = w.queue.length + ∑ id ∈ w'.seen, (t.below id).length := by
  induction h with
  | stop h => rw [turn?_eq_none_iff.mp h, List.length_nil]
  | turn hturn _ ih =>
    obtain ⟨id, rest, hqueue, ⟨-, rfl⟩ | ⟨hnew, hseen, hqueue', -⟩⟩ := turn?_cases hturn
    · rw [hqueue, List.length_cons]
      simp only at ih
      omega
    · rw [hseen, Finset.sum_insert hnew, hqueue', List.length_append] at ih
      rw [hqueue, List.length_cons]
      omega

/-! ## What the walk covers -/

/-- What was seen or waits is reachable, and nothing that is reachable from a seen value is forgotten. -/
structure Covers (t : Table) (root : ValueId) (w : InputWalk) : Prop where
  seen : ∀ id ∈ w.seen, t.Reaches root id
  queue : ∀ id ∈ w.queue, t.Reaches root id
  root : root ∈ w.seen ∨ root ∈ w.queue
  below : ∀ id ∈ w.seen, ∀ o ∈ t.below id, o ∈ w.seen ∨ o ∈ w.queue
  inputs : ∀ id, id ∈ w.inputs.keys ↔ id ∈ w.seen ∧ t.IsInput id

theorem covers_start (t : Table) (root : ValueId) : Covers t root { queue := [root] } where
  seen _ hid := absurd hid (Finset.notMem_empty _)
  queue id hid := by
    rw [List.mem_singleton.mp hid]
    exact .refl root
  root := .inr (List.mem_singleton.mpr rfl)
  below _ hid := absurd hid (Finset.notMem_empty _)
  inputs _ := by simp [SortedMap.keys]

theorem reaches_below {id o : ValueId} (h : t.Reaches root id) (ho : o ∈ t.below id) : t.Reaches root o := by
  induction h with
  | refl id =>
    unfold Table.below at ho
    cases hv : t.get? id with
    | none => rw [hv] at ho; cases ho
    | some v =>
      rw [hv] at ho
      exact .step hv ho (.refl o)
  | step hv hmem _ ih => exact .step hv hmem (ih ho)

theorem Covers.turn (h : Covers t root w) (hturn : w.turn? t = some w') : Covers t root w' := by
  obtain ⟨id, rest, hqueue, ⟨hold, rfl⟩ | ⟨hnew, hseen, hqueue', hinputs⟩⟩ := turn?_cases hturn
  · -- a value that was seen before is covered without its place in the queue
    have cover {x : ValueId} (hx : x ∈ w.seen ∨ x ∈ w.queue) : x ∈ w.seen ∨ x ∈ rest := by
      rw [hqueue, List.mem_cons] at hx
      rcases hx with hx | rfl | hx
      · exact .inl hx
      · exact .inl hold
      · exact .inr hx
    refine ⟨h.seen, fun x hx => h.queue x ?_, cover h.root, fun x hx o ho => cover (h.below x hx o ho), h.inputs⟩
    rw [hqueue]
    exact List.mem_cons_of_mem _ hx
  · -- a new value is covered from now on, and what it is built from waits in the queue
    have hreach : t.Reaches root id := h.queue id (by rw [hqueue]; exact List.mem_cons_self)
    have cover {x : ValueId} (hx : x ∈ w.seen ∨ x ∈ w.queue) : x ∈ w'.seen ∨ x ∈ w'.queue := by
      rw [hqueue, List.mem_cons] at hx
      rw [hseen, hqueue', Finset.mem_insert, List.mem_append]
      rcases hx with hx | rfl | hx
      · exact .inl (.inr hx)
      · exact .inl (.inl rfl)
      · exact .inr (.inl hx)
    refine ⟨fun x hx => ?_, fun x hx => ?_, cover h.root, fun x hx o ho => ?_, fun x => ?_⟩
    · rw [hseen, Finset.mem_insert] at hx
      rcases hx with rfl | hx
      · exact hreach
      · exact h.seen x hx
    · rw [hqueue', List.mem_append] at hx
      rcases hx with hx | hx
      · exact h.queue x (by rw [hqueue]; exact List.mem_cons_of_mem _ hx)
      · exact reaches_below hreach hx
    · rw [hseen, Finset.mem_insert] at hx
      rcases hx with rfl | hx
      · rw [hqueue']
        exact .inr (List.mem_append_right _ ho)
      · exact cover (h.below x hx o ho)
    · rw [hinputs, h.inputs, hseen, Finset.mem_insert]
      constructor
      · rintro (⟨hx, hin⟩ | ⟨rfl, hin⟩)
        · exact ⟨.inr hx, hin⟩
        · exact ⟨.inl rfl, hin⟩
      · rintro ⟨rfl | hx, hin⟩
        · exact .inr ⟨rfl, hin⟩
        · exact .inl ⟨hx, hin⟩

theorem Covers.ends {n : Nat} (h : Covers t root w) (hends : Ends t n w w') : Covers t root w' := by
  induction hends with
  | stop _ => exact h
  | turn hturn _ ih => exact ih (h.turn hturn)

/-- When nothing waits, all that is reachable was seen. -/
theorem Covers.mem_seen_iff (h : Covers t root w) (hqueue : w.queue = []) (id : ValueId) :
    id ∈ w.seen ↔ t.Reaches root id := by
  have settled {x : ValueId} (hx : x ∈ w.seen ∨ x ∈ w.queue) : x ∈ w.seen := by
    rw [hqueue] at hx
    exact hx.resolve_right List.not_mem_nil
  have closed {x : ValueId} (hreach : t.Reaches x id) : x ∈ w.seen → id ∈ w.seen := by
    induction hreach with
    | refl _ => exact fun hx => hx
    | @step x o _ v hv ho _ ih =>
      intro hx
      refine ih (settled (h.below x hx o ?_))
      rw [Table.below, hv]
      exact ho
  exact ⟨h.seen id, fun hreach => closed hreach (settled h.root)⟩

/-- What was noted when the walk ends are the inputs of the value. -/
theorem Covers.keys_eq (h : Covers t root w) (hqueue : w.queue = []) (ht : t.WellFormed) (hroot : root < t.size) :
    w.inputs.keys = t.inputs root := by
  have hascending : w.inputs.keys.Pairwise (· < ·) :=
    (List.pairwise_map.mpr w.inputs.ascending).imp Nat.compare_eq_lt.mp
  refine hascending.eq_of_mem_iff (Table.pairwise_inputs t root) fun id => ?_
  rw [h.inputs, h.mem_seen_iff hqueue, ht.mem_inputs_iff hroot]
  rfl

/-- From any value of a well-formed table the walk ends. However it was queued and shared, it has then
    seen exactly the values that can be reached, in one turn and one for each of their edges, and has
    noted exactly the symbols among them, which are the inputs of the value in ascending order. -/
theorem the_walk_ends_with_the_reachable_symbols (t : Table) (ht : t.WellFormed) (root : ValueId)
    (hroot : root < t.size) :
    (∃ n w, Ends t n { queue := [root] } w) ∧
    ∀ n w, Ends t n { queue := [root] } w →
      (∀ id, id ∈ w.seen ↔ t.Reaches root id) ∧
      n = 1 + ∑ id ∈ w.seen, (t.below id).length ∧
      (∀ id, id ∈ w.inputs.keys ↔ t.Reaches root id ∧ t.IsInput id) ∧
      w.inputs.keys = t.inputs root := by
  obtain ⟨n, hends⟩ := exists_ends t { queue := [root] }
  refine ⟨⟨n, _, hends⟩, fun n w hends => ?_⟩
  have hcovers := (covers_start t root).ends hends
  have hseen := hcovers.mem_seen_iff hends.queue_eq_nil
  refine ⟨hseen, ?_, fun id => by rw [hcovers.inputs, hseen], hcovers.keys_eq hends.queue_eq_nil ht hroot⟩
  simpa using hends.turns

/-- A hybrid word that is used twice, a sum that is squared, and a symbol beside them. -/
def sharedHistory : List Construction :=
  [.symbol 8, .bits ⟨0x500, ⟨8, 31⟩⟩, .hybrid (.ofList [(⟨0, 7⟩, 0), (⟨8, 31⟩, 1)]), .symbol 32, .binary .add 2 3,
    .binary .imul 4 4, .binary .xor 5 2, .symbol 32]

/-- Of the values, two are queued twice and one is not reached. -/
theorem shared_values_are_walked_once :
    ∃ w, Ends (Table.empty.construct sharedHistory) 9 { queue := [6] } w ∧ w.inputs.keys = [0, 3] ∧ 7 ∉ w.seen := by
  have ht : (Table.empty.construct sharedHistory).WellFormed :=
    Table.construct_wellFormed Table.wellFormed_empty
      ⟨by decide, by decide, by decide, by decide, by decide, by decide, by decide, by decide, trivial⟩
  have hends : ∃ w, Ends (Table.empty.construct sharedHistory) 9 { queue := [6] } w ∧ 7 ∉ w.seen := by
    refine ⟨_, .turn rfl (.turn rfl (.turn rfl (.turn rfl (.turn rfl (.turn rfl (.turn rfl (.turn rfl (.turn rfl
      (.stop rfl))))))))), ?_⟩
    decide
  obtain ⟨w, hends, hseven⟩ := hends
  obtain ⟨-, -, -, hinputs⟩ :=
    (the_walk_ends_with_the_reachable_symbols _ ht 6 (by decide)).2 9 w hends
  refine ⟨w, hends, ?_, hseven⟩
  rw [hinputs]
  cbv

end InputWalk

end TraceReplay
