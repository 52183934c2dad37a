/-
  TraceReplay.Proofs.Meaning — the words that values stand for.

  `Rules` are results for operations that agree with `Opcode.apply` wherever that has a
  result; the standard rules add nothing to it. A value means a word (`Table.Means`) under
  given rules and a word for every symbol. Evaluation is meaning under the standard rules
  (`evalWith_standard`), and what evaluation finds is right under all rules
  (`evalWith_of_eval`), so that a value whose formula holds an operation without a result
  can still be followed.
-/

import TraceReplay.Proofs.Partition
import TraceReplay.Proofs.Table

namespace TraceReplay

/-- Results of operations, those of `Opcode.apply` among them. -/
structure Rules where
  apply : Opcode → List Word → Option Word
  extends_apply : ∀ {opcode : Opcode} {args : List Word} {w : Word},
    opcode.apply args = some w → apply opcode args = some w

namespace Rules

def standard : Rules := ⟨Opcode.apply, id⟩

def evaluation (R : Rules) (σ : Assignment) : Interpretation (Except Opcode Word) :=
  { Interpretation.evaluation σ with
    operation := fun opcode args => do
      match R.apply opcode (← args.mapM id) with
      | some word => .ok word
      | none => .error opcode }

end Rules

def Table.evalWith (R : Rules) (t : Table) (σ : Assignment) (id : ValueId) : Except Opcode Word :=
  t.interpret (R.evaluation σ) id

theorem Table.evalWith_standard (t : Table) (σ : Assignment) (id : ValueId) :
    t.evalWith .standard σ id = t.eval σ id := rfl

/-! ## Words of lists -/

theorem mapM_id_eq_ok_iff {l : List (Except Opcode Word)} {ws : List Word} :
    l.mapM id = .ok ws ↔ l = ws.map .ok := by
  induction l generalizing ws with
  | nil =>
    cases ws with
    | nil => exact ⟨fun _ => rfl, fun _ => rfl⟩
    | cons w ws => exact ⟨nofun, nofun⟩
  | cons x l ih =>
    rw [List.mapM_cons]
    cases x with
    | error e => cases ws <;> exact ⟨nofun, nofun⟩
    | ok y =>
      cases hl : l.mapM id with
      | error e =>
        refine ⟨nofun, fun h => ?_⟩
        cases ws with
        | nil => cases h
        | cons w ws => rw [ih.mpr (List.cons.inj h).2] at hl; cases hl
      | ok ys =>
        constructor
        · intro h
          cases h
          rw [List.map_cons, ih.mp hl]
        · intro h
          cases ws with
          | nil => cases h
          | cons w ws =>
            obtain ⟨hy, hl'⟩ := List.cons.inj h
            cases hy
            rw [ih.mpr hl'] at hl
            cases hl
            rfl

theorem map_ok_mono {f g : ValueId → Except Opcode Word} (hfg : ∀ o x, f o = .ok x → g o = .ok x)
    {ids : List ValueId} {ws : List Word} (h : ids.map f = ws.map .ok) : ids.map g = ws.map .ok := by
  induction ids generalizing ws with
  | nil => simpa using h
  | cons o ids ih =>
    cases ws with
    | nil => simp at h
    | cons w ws =>
      obtain ⟨ho, hids⟩ := List.cons.inj h
      rw [List.map_cons, List.map_cons, hfg o w ho, ih hids]

def Pieces.assemble (f : ValueId → Word) (l : List (BitRange × ValueId)) (acc : Word) : Word :=
  union (fun e => e.1.place (f e.2)) l acc

theorem foldlM_place_eq_ok {g : ValueId → Except Opcode Word} {f : ValueId → Word}
    (l : List (BitRange × ValueId)) (acc : Word) (h : ∀ e ∈ l, g e.2 = .ok (f e.2)) :
    (l.map fun e => (e.1, g e.2)).foldlM (fun word p => p.2.map (word ||| p.1.place ·)) acc =
      .ok (Pieces.assemble f l acc) := by
  induction l generalizing acc with
  | nil => rfl
  | cons e l ih =>
    rw [List.map_cons, List.foldlM_cons, h e (by simp)]
    exact ih _ fun e' he' => h e' (by simp [he'])

theorem exists_ok_of_foldlM_place {g : ValueId → Except Opcode Word} {l : List (BitRange × ValueId)} {acc w : Word}
    (h : (l.map fun e => (e.1, g e.2)).foldlM (fun word p => p.2.map (word ||| p.1.place ·)) acc = .ok w)
    {e : BitRange × ValueId} (he : e ∈ l) : ∃ x, g e.2 = .ok x := by
  induction l generalizing acc with
  | nil => cases he
  | cons a l ih =>
    rw [List.map_cons, List.foldlM_cons] at h
    cases ha : g a.2 with
    | error opcode => rw [ha] at h; cases h
    | ok x =>
      rw [ha] at h
      rcases List.mem_cons.mp he with rfl | he
      · exact ⟨x, ha⟩
      · exact ih h he

theorem foldlM_place_mono {g g' : ValueId → Except Opcode Word} (l : List (BitRange × ValueId))
    (acc w : Word) (h : ∀ e ∈ l, ∀ x, g e.2 = .ok x → g' e.2 = .ok x)
    (hw : (l.map fun e => (e.1, g e.2)).foldlM (fun word p => p.2.map (word ||| p.1.place ·)) acc = .ok w) :
    (l.map fun e => (e.1, g' e.2)).foldlM (fun word p => p.2.map (word ||| p.1.place ·)) acc = .ok w := by
  induction l generalizing acc with
  | nil => exact hw
  | cons e l ih =>
    rw [List.map_cons, List.foldlM_cons] at hw ⊢
    cases he : g e.2 with
    | error o => rw [he] at hw; cases hw
    | ok x =>
      rw [he] at hw
      rw [h e (by simp) x he]
      exact ih _ (fun e' he' => h e' (by simp [he'])) hw

theorem map_ok_of_mapM_known {α : Type} {known : α → Option Word} {g : α → Except Opcode Word} {l : List α}
    {ws : List Word} (h : l.mapM known = some ws)
    (hg : ∀ o ∈ l, ∀ x, known o = some x → g o = .ok x) : l.map g = ws.map .ok := by
  induction l generalizing ws with
  | nil => cases h; rfl
  | cons o l ih =>
    rw [List.mapM_cons] at h
    cases ho : known o with
    | none => rw [ho] at h; cases h
    | some x =>
      cases hl : l.mapM known with
      | none => rw [ho, hl] at h; cases h
      | some xs =>
        rw [ho, hl] at h
        cases h
        rw [List.map_cons, List.map_cons, hg o (by simp) x ho,
          ih hl fun o' ho' => hg o' (by simp [ho'])]

theorem foldlM_place_of_known {α : Type} {known : α → Option Word} {g : α → Except Opcode Word}
    (l : List (BitRange × α)) (acc w : Word)
    (h : l.foldlM (fun word e => (known e.2).map (word ||| e.1.place ·)) acc = some w)
    (hg : ∀ e ∈ l, ∀ x, known e.2 = some x → g e.2 = .ok x) :
    (l.map fun e => (e.1, g e.2)).foldlM (fun word p => p.2.map (word ||| p.1.place ·)) acc = .ok w := by
  induction l generalizing acc with
  | nil => cases h; rfl
  | cons e l ih =>
    rw [List.foldlM_cons] at h
    rw [List.map_cons, List.foldlM_cons]
    cases he : known e.2 with
    | none => rw [he] at h; cases h
    | some x =>
      rw [he] at h
      rw [hg e (by simp) x he]
      exact ih _ h fun e' he' => hg e' (by simp [he'])

theorem isSome_of_mapM_eq_some {α β : Type} {f : α → Option β} {l : List α} {bs : List β} (h : l.mapM f = some bs)
    {a : α} (ha : a ∈ l) : (f a).isSome := by
  induction l generalizing bs with
  | nil => cases ha
  | cons b l ih =>
    rw [List.mapM_cons] at h
    obtain ⟨x, hx, h⟩ := Option.bind_eq_some_iff.mp h
    obtain ⟨xs, hxs, -⟩ := Option.bind_eq_some_iff.mp h
    rcases List.mem_cons.mp ha with rfl | ha
    · rw [hx]; rfl
    · exact ih hxs ha

/-- A union of contributions is known if each of them is. -/
theorem isSome_foldlM_union_iff {α : Type} {f : α → Option Word} {l : List α} {acc : Word} :
    (l.foldlM (fun word a => (f a).map (word ||| ·)) acc).isSome ↔ ∀ a ∈ l, (f a).isSome := by
  induction l generalizing acc with
  | nil => simp
  | cons a l ih =>
    rw [List.foldlM_cons, List.forall_mem_cons]
    cases f a with
    | none => simp
    | some c => exact ih.trans (by simp)

namespace Rules

variable (R : Rules) (σ : Assignment)

theorem evaluation_operation {opcode : Opcode} {args : List (Except Opcode Word)} {ws : List Word}
    {w : Word} (h : args = ws.map .ok) (hw : R.apply opcode ws = some w) :
    (R.evaluation σ).operation opcode args = .ok w := by
  have : args.mapM id = .ok ws := mapM_id_eq_ok_iff.mpr h
  show (args.mapM id >>= fun ws => match R.apply opcode ws with
    | some word => Except.ok word
    | none => .error opcode) = .ok w
  rw [this]
  show (match R.apply opcode ws with
    | some word => Except.ok word
    | none => .error opcode) = .ok w
  rw [hw]

theorem operation_inv {opcode : Opcode} {args : List (Except Opcode Word)} {w : Word}
    (h : (R.evaluation σ).operation opcode args = .ok w) :
    ∃ ws : List Word, args = ws.map .ok ∧ R.apply opcode ws = some w := by
  replace h : (args.mapM id >>= fun ws => match R.apply opcode ws with
    | some word => Except.ok word
    | none => .error opcode) = .ok w := h
  cases ha : args.mapM id with
  | error e => rw [ha] at h; cases h
  | ok ws =>
    rw [ha] at h
    refine ⟨ws, mapM_id_eq_ok_iff.mp ha, ?_⟩
    replace h : (match R.apply opcode ws with
      | some word => Except.ok word
      | none => .error opcode) = .ok w := h
    split at h
    · rename_i word hword; cases h; exact hword
    · cases h

/-- A word found under the standard rules is found under all rules. -/
theorem value_mono {id : Nat} {v : Value} {f g : ValueId → Except Opcode Word} {w : Word}
    (hfg : ∀ o x, f o = .ok x → g o = .ok x)
    (h : (standard.evaluation σ).value id v f = .ok w) : (R.evaluation σ).value id v g = .ok w := by
  unfold Interpretation.value at h ⊢
  split at h
  · exact h
  · exact h
  · exact foldlM_place_mono _ _ _ (fun e _ => hfg e.2) h
  · obtain ⟨ws, hws, hw⟩ := standard.operation_inv σ h
    exact R.evaluation_operation σ (map_ok_mono hfg hws) (R.extends_apply hw)

end Rules

namespace Table

variable {R : Rules} {σ : Assignment} {t t' : Table} {id : Nat}

theorem interpret_of_size_le {β : Type} (I : Interpretation β) (h : t.size ≤ id) :
    t.interpret I id = I.constant 0 := by
  have hs : (I.readings (t.values.toList.take (id + 1))).size ≤ id := by
    rw [I.size_readings, List.length_take]
    have : t.values.toList.length = t.size := by simp [size]
    omega
  rw [interpret, Interpretation.lookup, Array.getElem?_eq_none hs]
  rfl

/-- What evaluation finds is right under all rules. -/
theorem evalWith_of_eval (R : Rules) {w : Word} (h : t.eval σ id = .ok w) : t.evalWith R σ id = .ok w := by
  induction id using Nat.strongRecOn generalizing w with
  | ind id ih =>
    by_cases hid : id < t.size
    · obtain ⟨v, hv⟩ := get?_of_lt hid
      rw [← evalWith_standard, evalWith, interpret_eq _ hv] at h
      rw [evalWith, interpret_eq _ hv]
      refine R.value_mono σ (fun o x hx => ?_) h
      by_cases ho : o < id
      · rw [if_pos ho] at hx ⊢; exact ih o ho hx
      · rw [if_neg ho] at hx ⊢; exact hx
    · rw [← evalWith_standard, evalWith, interpret_of_size_le _ (by omega)] at h
      rw [evalWith, interpret_of_size_le _ (by omega)]
      exact h

/-! ## Meaning -/

def Means (R : Rules) (σ : Assignment) (t : Table) (id : Nat) (w : Word) : Prop :=
  id < t.size ∧ t.evalWith R σ id = .ok w

theorem Means.grow {w : Word} (h : t.Means R σ id w) (g : t.Grows t') : t'.Means R σ id w :=
  ⟨g.lt h.1, (interpret_of_grows _ g h.1).trans h.2⟩

theorem Means.of_grows {w : Word} (h : t'.Means R σ id w) (g : t.Grows t')
    (hid : id < t.size) : t.Means R σ id w :=
  ⟨hid, (interpret_of_grows _ g hid).symm.trans h.2⟩

theorem Means.unique {w w' : Word} (h : t.Means R σ id w) (h' : t.Means R σ id w') : w = w' :=
  Except.ok.inj (h.2.symm.trans h'.2)

theorem means_symbol {v : Value} (hv : t.get? id = some v) (hn : v.node = .symbol) :
    t.Means R σ id (σ id &&& (BitRange.lowBits v.width).mask) :=
  ⟨lt_of_get? hv, by rw [evalWith, interpret_eq _ hv, Interpretation.value, hn]; rfl⟩

theorem means_constant {v : Value} {b : Bits} (hv : t.get? id = some v) (hn : v.node = .constant b) :
    t.Means R σ id b.value :=
  ⟨lt_of_get? hv, by rw [evalWith, interpret_eq _ hv, Interpretation.value, hn]; rfl⟩

theorem means_operation {v : Value} {opcode : Opcode} {ids : List ValueId} {ws : List Word} {w : Word}
    (hv : t.get? id = some v) (hn : v.node = .operation opcode ids) (hlt : ∀ o ∈ ids, o < id)
    (hws : ids.map (t.evalWith R σ) = ws.map .ok) (hw : R.apply opcode ws = some w) :
    t.Means R σ id w := by
  refine ⟨lt_of_get? hv, ?_⟩
  rw [evalWith, interpret_eq _ hv, Interpretation.value, hn]
  refine R.evaluation_operation σ ((List.map_congr_left fun o ho => ?_).trans hws) hw
  exact if_pos (hlt o ho)

theorem means_hybrid {v : Value} {pieces : Pieces} {f : ValueId → Word} (hv : t.get? id = some v)
    (hn : v.node = .hybrid pieces) (hlt : ∀ e ∈ pieces.entries, e.2 < id)
    (hf : ∀ e ∈ pieces.entries, t.Means R σ e.2 (f e.2)) :
    t.Means R σ id (Pieces.assemble f pieces.entries 0) := by
  refine ⟨lt_of_get? hv, ?_⟩
  rw [evalWith, interpret_eq _ hv, Interpretation.value, hn]
  have hmap : (pieces.entries.map fun e => (e.1, if e.2 < id then t.interpret (R.evaluation σ) e.2
      else (R.evaluation σ).constant 0)) = pieces.entries.map fun e => (e.1, t.evalWith R σ e.2) :=
    List.map_congr_left fun e he => by rw [if_pos (hlt e he)]; rfl
  show (R.evaluation σ).hybrid id _ = _
  rw [hmap]
  exact foldlM_place_eq_ok _ _ fun e he => (hf e he).2

/-- An operation has a word only if its operands have. -/
theorem Means.operation_inv {v : Value} {opcode : Opcode} {ids : List ValueId} {w : Word} (h : t.Means R σ id w)
    (hv : t.get? id = some v) (hn : v.node = .operation opcode ids) (hlt : ∀ o ∈ ids, o < id) :
    ∃ ws : List Word, ids.map (t.evalWith R σ) = ws.map .ok ∧ R.apply opcode ws = some w := by
  have heval := h.2
  rw [evalWith, interpret_eq _ hv, Interpretation.value, hn] at heval
  obtain ⟨ws, hws, hw⟩ := R.operation_inv σ heval
  refine ⟨ws, (List.map_congr_left fun o ho => ?_).trans hws, hw⟩
  exact (if_pos (hlt o ho)).symm

/-- A hybrid word has a word only if its pieces have. -/
theorem WellFormed.exists_means_piece (h : t.WellFormed) {pieces : Pieces} {w : Word}
    (hp : t.pieces? id = some pieces) (hw : t.Means R σ id w) {e : BitRange × ValueId} (he : e ∈ pieces.entries) :
    ∃ x, t.evalWith R σ e.2 = .ok x := by
  have heval := hw.2
  rw [evalWith, h.interpret_hybrid _ hp] at heval
  exact exists_ok_of_foldlM_place heval he

/-- A word that is known without any input is the word under all inputs and rules. -/
theorem WellFormed.means_of_known (h : t.WellFormed) {w : Word} (hw : t.known id = some w) :
    t.Means R σ id w := by
  induction id using Nat.strongRecOn generalizing w with
  | ind id ih =>
    obtain ⟨v, hv, hk⟩ := Option.bind_eq_some_iff.mp hw
    have hc := h id v hv
    unfold Value.Consistent at hc
    split at hc
    · rw [hc.2] at hk; cases hk
    · rename_i b hn
      rw [hc.2] at hk
      cases hk
      exact means_constant hv hn
    · rename_i pieces hn
      obtain ⟨-, hlt, -, hp⟩ := hc
      rw [hp] at hk
      refine ⟨lt_of_get? hv, ?_⟩
      rw [evalWith, h.interpret_hybrid _ (pieces?_eq_some_iff.mpr ⟨v, hv, hn⟩)]
      refine foldlM_place_of_known _ _ _ hk fun e he x hx => ?_
      exact (ih e.2 (hlt e.2 (List.mem_map.mpr ⟨e, he, rfl⟩)) hx).2
    · rename_i opcode ids hn
      obtain ⟨hlt, -, hp⟩ := hc
      rw [hp] at hk
      split at hk
      · cases hk
      · obtain ⟨ws, hws, hw⟩ := Option.bind_eq_some_iff.mp hk
        have hmap := map_ok_of_mapM_known hws fun o ho x hx => (ih o (hlt o ho) hx).2
        exact means_operation hv hn hlt hmap (R.extends_apply hw)

end Table

end TraceReplay
