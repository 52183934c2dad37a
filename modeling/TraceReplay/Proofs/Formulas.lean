/-
  TraceReplay.Proofs.Formulas — what a table says of a value is what its formula says.

  A value is read in one pass over the values before it, a formula by recursion. The two agree
  under every interpretation (`Table.interpret_formula`), so facts about values are proved by
  induction over formulas (`Formula.structural`): the inputs are listed in the order of their ids
  (`Table.pairwise_inputs`), and evaluation looks at them alone (`Formula.eval_congr`), hence a
  value with exactly its inputs bound evaluates as it does under the whole assignment
  (`Table.evaluate_bound`). A value whose word is known has none (`not_mem_inputs_of_known?`). The
  parts of a value's formula are the formulas of the values that it reaches
  (`Table.WellFormed.reaches_of_within`).
-/

import TraceReplay.Proofs.Hybrid

namespace TraceReplay

namespace Formula

variable {β : Type} (I : Interpretation β)

theorem interpretParts_eq (parts : List (BitRange × Formula)) :
    interpretParts I parts = parts.map fun p => (p.1, p.2.interpret I) := by
  induction parts with
  | nil => rw [interpretParts]; rfl
  | cons p parts ih => rw [interpretParts, ih]; rfl

theorem interpretArgs_eq (args : List Formula) : interpretArgs I args = args.map (interpret I) := by
  induction args with
  | nil => rw [interpretArgs]; rfl
  | cons a args ih => rw [interpretArgs, ih]; rfl

mutual

/-- Induction over the parts and operands of a formula. -/
theorem structural {P : Formula → Prop} (symbol : ∀ id width, P (symbol id width))
    (constant : ∀ value, P (constant value))
    (hybrid : ∀ id parts, (∀ p ∈ parts, P p.2) → P (hybrid id parts))
    (operation : ∀ opcode args, (∀ a ∈ args, P a) → P (operation opcode args)) : (f : Formula) → P f
  | .symbol id width => symbol id width
  | .constant value => constant value
  | .hybrid id parts => hybrid id parts (structural_parts symbol constant hybrid operation parts)
  | .operation opcode args => operation opcode args (structural_args symbol constant hybrid operation args)

theorem structural_parts {P : Formula → Prop} (symbol : ∀ id width, P (.symbol id width))
    (constant : ∀ value, P (.constant value))
    (hybrid : ∀ id parts, (∀ p ∈ parts, P p.2) → P (.hybrid id parts))
    (operation : ∀ opcode args, (∀ a ∈ args, P a) → P (.operation opcode args)) :
    (parts : List (BitRange × Formula)) → ∀ p ∈ parts, P p.2
  | [] => nofun
  | (_, part) :: parts => List.forall_mem_cons.mpr
      ⟨structural symbol constant hybrid operation part, structural_parts symbol constant hybrid operation parts⟩

theorem structural_args {P : Formula → Prop} (symbol : ∀ id width, P (.symbol id width))
    (constant : ∀ value, P (.constant value))
    (hybrid : ∀ id parts, (∀ p ∈ parts, P p.2) → P (.hybrid id parts))
    (operation : ∀ opcode args, (∀ a ∈ args, P a) → P (.operation opcode args)) :
    (args : List Formula) → ∀ a ∈ args, P a
  | [] => nofun
  | arg :: args => List.forall_mem_cons.mpr
      ⟨structural symbol constant hybrid operation arg, structural_args symbol constant hybrid operation args⟩

end

end Formula

namespace Table

variable {β : Type} (I : Interpretation β) {t : Table} {id : Nat}

/-- A value reads as its formula does. -/
theorem interpret_formula (t : Table) (id : Nat) : (t.formula id).interpret I = t.interpret I id := by
  induction id using Nat.strongRecOn with
  | ind id ih =>
    by_cases hid : id < t.size
    · obtain ⟨v, hv⟩ := get?_of_lt hid
      have operand (o : Nat) : (if o < id then t.interpret Formula.syntactic o else .constant 0).interpret I =
          if o < id then t.interpret I o else I.constant 0 := by
        split
        · rename_i ho
          exact ih o ho
        · rw [Formula.interpret]
      rw [formula, interpret_eq _ hv, interpret_eq _ hv]
      unfold Interpretation.value
      cases v.node with
      | symbol => rfl
      | constant bits => rfl
      | hybrid pieces =>
        simp only [Formula.syntactic, Formula.interpret, Formula.interpretParts_eq, List.map_map]
        refine congrArg (I.hybrid id) (List.map_congr_left fun e _ => ?_)
        exact congrArg (Prod.mk e.1) (operand e.2)
      | operation opcode operands =>
        simp only [Formula.syntactic, Formula.interpret, Formula.interpretArgs_eq, List.map_map]
        exact congrArg (I.operation opcode) (List.map_congr_left fun o _ => operand o)
    · rw [formula, interpret_of_size_le _ (Nat.le_of_not_lt hid), interpret_of_size_le _ (Nat.le_of_not_lt hid)]
      rfl

end Table

namespace Interpretation

variable {β : Type} (I : Interpretation β)

theorem value_congr {id : ValueId} {v : Value} {f g : ValueId → β} (h : ∀ o ∈ v.node.operands, f o = g o) :
    I.value id v f = I.value id v g := by
  unfold value
  cases hn : v.node with
  | symbol => rfl
  | constant bits => rfl
  | hybrid pieces =>
    rw [hn] at h
    refine congrArg (I.hybrid id) (List.map_congr_left fun e he => ?_)
    rw [h e.2 (List.mem_map.mpr ⟨e, he, rfl⟩)]
  | operation opcode operands =>
    rw [hn] at h
    exact congrArg (I.operation opcode) (List.map_congr_left h)

end Interpretation

namespace Table

variable {t : Table} {id : Nat} {v : Value}

/-- In a well-formed table a value reads as its node does from the readings of its operands. -/
theorem WellFormed.interpret_value {β : Type} (I : Interpretation β) (ht : t.WellFormed) (hv : t.get? id = some v) :
    t.interpret I id = I.value id v (t.interpret I) := by
  rw [interpret_eq I hv]
  exact I.value_congr fun o ho => if_pos (ht.operands_lt hv o ho)

/-- What a table knows of a value is what its formula says. -/
theorem WellFormed.interpret_known (ht : t.WellFormed) (hid : id < t.size) : t.interpret .known id = t.known id := by
  induction id using Nat.strongRecOn with
  | ind id ih =>
    obtain ⟨v, hv⟩ := get?_of_lt hid
    have hlt := ht.operands_lt hv
    have hop : Interpretation.known.value id v (t.interpret .known) = Interpretation.known.value id v t.known :=
      Interpretation.known.value_congr fun o ho => ih o (hlt o ho) (Nat.lt_trans (hlt o ho) hid)
    rw [ht.interpret_value _ hv, hop, ht.known_eq hv]
    unfold Interpretation.value
    cases v.node with
    | symbol => rfl
    | constant bits => rfl
    | hybrid pieces => exact List.foldlM_map ..
    | operation opcode operands => exact congrArg (Option.bind · opcode.apply) List.mapM_map

theorem WellFormed.known?_formula (ht : t.WellFormed) (hid : id < t.size) : (t.formula id).known? = t.known id := by
  rw [Formula.known?, interpret_formula, ht.interpret_known hid]

end Table

/-! ## Inputs -/

theorem mem_mergeAscending {s : Nat} {as bs : List Nat} : s ∈ mergeAscending as bs ↔ s ∈ as ∨ s ∈ bs := by
  fun_induction mergeAscending as bs with
  | case1 bs => simp
  | case2 as => simp
  | case3 a as b bs hlt ih => simp only [List.mem_cons, ih]; tauto
  | case4 a as b bs hge hlt ih => simp only [List.mem_cons, ih]; tauto
  | case5 a as b bs hge hle ih =>
    have hab : a = b := by omega
    simp only [List.mem_cons, ih, hab]
    tauto

theorem mem_foldl_mergeAscending {s : Nat} {ls : List (List Nat)} {acc : List Nat} :
    s ∈ ls.foldl mergeAscending acc ↔ s ∈ acc ∨ ∃ l ∈ ls, s ∈ l := by
  induction ls generalizing acc with
  | nil => simp
  | cons l ls ih => simp [ih, mem_mergeAscending, or_assoc]

theorem pairwise_mergeAscending {as bs : List Nat} (ha : as.Pairwise (· < ·)) (hb : bs.Pairwise (· < ·)) :
    (mergeAscending as bs).Pairwise (· < ·) := by
  fun_induction mergeAscending as bs with
  | case1 bs => exact hb
  | case2 as => exact ha
  | case3 a as b bs hlt ih =>
    rw [List.pairwise_cons] at ha
    refine List.pairwise_cons.mpr ⟨fun s hs => ?_, ih ha.2 hb⟩
    rcases mem_mergeAscending.mp hs with hs | hs
    · exact ha.1 s hs
    · rcases List.mem_cons.mp hs with rfl | hs
      · exact hlt
      · exact Nat.lt_trans hlt ((List.pairwise_cons.mp hb).1 s hs)
  | case4 a as b bs hge hlt ih =>
    rw [List.pairwise_cons] at hb
    refine List.pairwise_cons.mpr ⟨fun s hs => ?_, ih ha hb.2⟩
    rcases mem_mergeAscending.mp hs with hs | hs
    · rcases List.mem_cons.mp hs with rfl | hs
      · exact hlt
      · exact Nat.lt_trans hlt ((List.pairwise_cons.mp ha).1 s hs)
    · exact hb.1 s hs
  | case5 a as b bs hge hle ih =>
    have hab : a = b := by omega
    rw [List.pairwise_cons] at ha hb
    refine List.pairwise_cons.mpr ⟨fun s hs => ?_, ih ha.2 hb.2⟩
    rcases mem_mergeAscending.mp hs with hs | hs
    · exact ha.1 s hs
    · exact hab ▸ hb.1 s hs

theorem pairwise_foldl_mergeAscending {ls : List (List Nat)} (h : ∀ l ∈ ls, l.Pairwise (· < ·)) {acc : List Nat}
    (hacc : acc.Pairwise (· < ·)) : (ls.foldl mergeAscending acc).Pairwise (· < ·) := by
  induction ls generalizing acc with
  | nil => exact hacc
  | cons l ls ih =>
    obtain ⟨hl, hls⟩ := List.forall_mem_cons.mp h
    exact ih hls (pairwise_mergeAscending hacc hl)

namespace Formula

def inputs (f : Formula) : List ValueId := f.interpret .inputs

def eval (σ : Assignment) (f : Formula) : Except Opcode Word := f.interpret (.evaluation σ)

theorem mem_inputs_symbol {s id : ValueId} {width : Nat} : s ∈ (symbol id width).inputs ↔ s = id := by
  simp [inputs, interpret, Interpretation.inputs]

theorem mem_inputs_hybrid {s id : ValueId} {parts : List (BitRange × Formula)} :
    s ∈ (hybrid id parts).inputs ↔ ∃ p ∈ parts, s ∈ p.2.inputs := by
  simp [inputs, interpret, interpretParts_eq, Interpretation.inputs, mem_foldl_mergeAscending]

theorem mem_inputs_operation {s : ValueId} {opcode : Opcode} {args : List Formula} :
    s ∈ (operation opcode args).inputs ↔ ∃ a ∈ args, s ∈ a.inputs := by
  simp [inputs, interpret, interpretArgs_eq, Interpretation.inputs, mem_foldl_mergeAscending]

theorem pairwise_inputs (f : Formula) : f.inputs.Pairwise (· < ·) := by
  induction f using structural with
  | symbol id width => exact List.pairwise_singleton _ id
  | constant value => exact .nil
  | hybrid id parts ih =>
    rw [inputs, interpret, interpretParts_eq]
    refine pairwise_foldl_mergeAscending (fun l hl => ?_) .nil
    simp only [List.map_map, List.mem_map] at hl
    obtain ⟨p, hp, rfl⟩ := hl
    exact ih p hp
  | operation opcode args ih =>
    rw [inputs, interpret, interpretArgs_eq]
    refine pairwise_foldl_mergeAscending (fun l hl => ?_) .nil
    obtain ⟨a, ha, rfl⟩ := List.mem_map.mp hl
    exact ih a ha

theorem eval_hybrid (σ : Assignment) (id : ValueId) (parts : List (BitRange × Formula)) :
    (hybrid id parts).eval σ =
      (parts.map fun p => (p.1, p.2.eval σ)).foldlM (fun word p => p.2.map (word ||| p.1.place ·)) 0 := by
  rw [eval, interpret, interpretParts_eq]
  rfl

theorem eval_operation (σ : Assignment) (opcode : Opcode) (args : List Formula) :
    (operation opcode args).eval σ = (Interpretation.evaluation σ).operation opcode (args.map (eval σ)) := by
  rw [eval, interpret, interpretArgs_eq]
  rfl

/-- Evaluation looks at the words of the inputs alone. -/
theorem eval_congr {σ σ' : Assignment} {f : Formula} (h : ∀ s ∈ f.inputs, σ s = σ' s) :
    f.eval σ = f.eval σ' := by
  induction f using structural with
  | symbol id width =>
    simp only [eval, interpret, Interpretation.evaluation, h id (mem_inputs_symbol.mpr rfl)]
  | constant value => rfl
  | hybrid id parts ih =>
    have hparts : (parts.map fun p => (p.1, p.2.eval σ)) = parts.map fun p => (p.1, p.2.eval σ') :=
      List.map_congr_left fun p hp => by rw [ih p hp fun s hs => h s (mem_inputs_hybrid.mpr ⟨p, hp, hs⟩)]
    rw [eval_hybrid, eval_hybrid, hparts]
  | operation opcode args ih =>
    have hargs : args.map (eval σ) = args.map (eval σ') :=
      List.map_congr_left fun a ha => ih a ha fun s hs => h s (mem_inputs_operation.mpr ⟨a, ha, hs⟩)
    rw [eval_operation, eval_operation, hargs]
    rfl

theorem known?_hybrid (id : ValueId) (parts : List (BitRange × Formula)) :
    (hybrid id parts).known? = parts.foldlM (fun word p => p.2.known?.map (word ||| p.1.place ·)) 0 := by
  rw [known?, interpret, interpretParts_eq]
  exact List.foldlM_map ..

theorem known?_operation (opcode : Opcode) (args : List Formula) :
    (operation opcode args).known? = (args.mapM known?).bind opcode.apply := by
  rw [known?, interpret, interpretArgs_eq]
  exact congrArg (Option.bind · opcode.apply) List.mapM_map

/-- A formula whose word is known has no inputs. -/
theorem not_mem_inputs_of_known? {f : Formula} {w : Word} (h : f.known? = some w) (s : ValueId) : s ∉ f.inputs := by
  induction f using structural generalizing w with
  | symbol id width => cases h
  | constant value => exact List.not_mem_nil
  | hybrid id parts ih =>
    rw [known?_hybrid] at h
    rw [mem_inputs_hybrid]
    intro hs
    obtain ⟨p, hp, hs⟩ := hs
    have hparts := (isSome_foldlM_union_iff (f := fun p : BitRange × Formula => p.2.known?.map p.1.place)).mp
      (by simpa only [Option.map_map, Function.comp_def] using Option.isSome_of_eq_some h) p hp
    obtain ⟨x, hx⟩ := Option.isSome_iff_exists.mp (Option.isSome_map.symm.trans hparts)
    exact ih p hp hx hs
  | operation opcode args ih =>
    rw [known?_operation] at h
    rw [mem_inputs_operation]
    intro hs
    obtain ⟨a, ha, hs⟩ := hs
    obtain ⟨ws, hws, -⟩ := Option.bind_eq_some_iff.mp h
    obtain ⟨x, hx⟩ := Option.isSome_iff_exists.mp (isSome_of_mapM_eq_some hws ha)
    exact ih a ha hx hs

/-- A word that needs no input is the word under all inputs. -/
theorem eval_of_known? {σ : Assignment} {f : Formula} {w : Word} (h : f.known? = some w) : f.eval σ = .ok w := by
  induction f using structural generalizing w with
  | symbol id width => cases h
  | constant value => cases h; rfl
  | hybrid id parts ih =>
    rw [known?_hybrid] at h
    rw [eval_hybrid]
    exact foldlM_place_of_known _ _ _ h fun p hp x hx => ih p hp hx
  | operation opcode args ih =>
    rw [known?_operation] at h
    obtain ⟨ws, hws, hw⟩ := Option.bind_eq_some_iff.mp h
    rw [eval_operation]
    exact Rules.standard.evaluation_operation σ (map_ok_of_mapM_known hws fun a ha x hx => ih a ha hx) hw

end Formula

namespace Table

variable {t : Table} {id : Nat}

theorem inputs_formula (t : Table) (id : Nat) : (t.formula id).inputs = t.inputs id := interpret_formula _ t id

theorem pairwise_inputs (t : Table) (id : Nat) : (t.inputs id).Pairwise (· < ·) :=
  inputs_formula t id ▸ (t.formula id).pairwise_inputs

theorem eval_formula (t : Table) (σ : Assignment) (id : Nat) : (t.formula id).eval σ = t.eval σ id :=
  interpret_formula _ t id

def bound (t : Table) (σ : Assignment) (id : ValueId) : Bindings := .ofList ((t.inputs id).map fun s => (s, σ s))

theorem get?_bound {σ : Assignment} {s : ValueId} (hs : s ∈ t.inputs id) : (t.bound σ id).get? s = some (σ s) :=
  SortedMap.get?_eq_some_iff.mpr (SortedMap.mem_ofList_map.mpr ⟨hs, rfl⟩)

theorem mem_keys_bound {σ : Assignment} {s : ValueId} (hs : s ∈ (t.bound σ id).keys) : s ∈ t.inputs id := by
  obtain ⟨e, he, rfl⟩ := List.mem_map.mp hs
  exact (SortedMap.mem_ofList_map.mp he).1

/-- With its inputs bound and nothing else, a value evaluates as it does under the assignment. -/
theorem evaluate_bound {σ : Assignment} {w : Word} (h : t.eval σ id = .ok w) :
    t.evaluate id (t.bound σ id) = .ok w := by
  have hunbound : ((t.inputs id).filter (!(t.bound σ id).contains ·)).length = 0 := by
    rw [List.length_eq_zero_iff, List.filter_eq_nil_iff]
    intro s hs
    simp [SortedMap.contains, get?_bound hs]
  have hunexpected : ((t.bound σ id).keys.filter (!(t.inputs id).contains ·)).length = 0 := by
    rw [List.length_eq_zero_iff, List.filter_eq_nil_iff]
    intro s hs
    simp [mem_keys_bound hs]
  have heval : t.eval (t.bound σ id).assignment id = .ok w := by
    rw [← h, ← eval_formula, ← eval_formula]
    refine Formula.eval_congr fun s hs => ?_
    rw [inputs_formula] at hs
    rw [Bindings.assignment, get?_bound hs, Option.getD_some]
  rw [evaluate]
  simp only [hunbound, hunexpected, heval]
  rfl

/-! ## Values below a value -/

inductive Reaches (t : Table) : ValueId → ValueId → Prop
  | refl (id : ValueId) : Reaches t id id
  | step {id o below : ValueId} {v : Value} : t.get? id = some v → o ∈ v.node.operands → Reaches t o below →
      Reaches t id below

end Table

inductive Formula.Within (g : Formula) : Formula → Prop
  | refl : Within g g
  | part {id : ValueId} {parts : List (BitRange × Formula)} {p : BitRange × Formula} : p ∈ parts → Within g p.2 →
      Within g (.hybrid id parts)
  | arg {opcode : Opcode} {args : List Formula} {a : Formula} : a ∈ args → Within g a →
      Within g (.operation opcode args)

namespace Table

variable {t : Table} {id : Nat}

theorem WellFormed.formula_value (ht : t.WellFormed) {f : Formula} (h : t.formula id = f) (hf : f ≠ .constant 0) :
    ∃ v, t.get? id = some v ∧ Formula.syntactic.value id v t.formula = f := by
  by_cases hid : id < t.size
  · obtain ⟨v, hv⟩ := get?_of_lt hid
    exact ⟨v, hv, (ht.interpret_value _ hv).symm.trans h⟩
  · rw [formula, interpret_of_size_le _ (Nat.le_of_not_lt hid)] at h
    exact absurd h.symm hf

theorem WellFormed.formula_eq_hybrid (ht : t.WellFormed) {id' : ValueId} {parts : List (BitRange × Formula)}
    (h : t.formula id = .hybrid id' parts) :
    ∃ v pieces, t.get? id = some v ∧ v.node = .hybrid pieces ∧
      parts = pieces.entries.map fun e => (e.1, t.formula e.2) := by
  obtain ⟨v, hv, hf⟩ := ht.formula_value h nofun
  unfold Interpretation.value at hf
  cases hn : v.node <;> rw [hn] at hf <;> cases hf
  exact ⟨v, _, hv, hn, rfl⟩

theorem WellFormed.formula_eq_operation (ht : t.WellFormed) {opcode : Opcode} {args : List Formula}
    (h : t.formula id = .operation opcode args) :
    ∃ v operands, t.get? id = some v ∧ v.node = .operation opcode operands ∧ args = operands.map t.formula := by
  obtain ⟨v, hv, hf⟩ := ht.formula_value h nofun
  unfold Interpretation.value at hf
  cases hn : v.node <;> rw [hn] at hf <;> cases hf
  exact ⟨v, _, hv, hn, rfl⟩

/-- The parts of a value's formula are the formulas of the values below it. -/
theorem WellFormed.reaches_of_within (ht : t.WellFormed) {g : Formula} (h : g.Within (t.formula id)) :
    ∃ below, t.Reaches id below ∧ t.formula below = g := by
  generalize hf : t.formula id = f at h
  induction h generalizing id with
  | refl => exact ⟨id, .refl id, hf⟩
  | part hp _ ih =>
    obtain ⟨v, pieces, hv, hn, rfl⟩ := ht.formula_eq_hybrid hf
    obtain ⟨e, he, rfl⟩ := List.mem_map.mp hp
    obtain ⟨below, hreach, hg⟩ := ih rfl
    have ho : e.2 ∈ v.node.operands := by rw [hn]; exact List.mem_map.mpr ⟨e, he, rfl⟩
    exact ⟨below, .step hv ho hreach, hg⟩
  | arg ha _ ih =>
    obtain ⟨v, operands, hv, hn, rfl⟩ := ht.formula_eq_operation hf
    obtain ⟨o, ho, rfl⟩ := List.mem_map.mp ha
    obtain ⟨below, hreach, hg⟩ := ih rfl
    have ho' : o ∈ v.node.operands := by rw [hn]; exact ho
    exact ⟨below, .step hv ho' hreach, hg⟩

end Table

end TraceReplay
