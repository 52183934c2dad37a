/-
  TraceReplay.Proofs.Table — tables that grow.

  A table grows into another (`Grows`) when the values it has keep their positions. Whatever
  is known of a value is then known of it in the larger table too (`Grows.get?`), and so is
  its reading under any interpretation (`interpret_of_grows`): the reading of a value depends
  on the values before it alone (`interpret_eq`).

  In a well-formed table (`WellFormed`) every value refers to earlier ones, pieces of hybrid
  words tile them, and the two facts kept with a value are the ones its operands give. So both
  facts can be read off the node (`isSymbolic_eq`, `known_eq`); a value that depends on an input
  has no known word.
-/

import TraceReplay.Formula.Evaluation
import TraceReplay.Value.Hybrid

namespace TraceReplay

namespace Table

def Grows (t t' : Table) : Prop := t.values.toList <+: t'.values.toList

def push (t : Table) (v : Value) : Table := ⟨t.values.push v⟩

variable {t t' t'' : Table} {id : Nat}

theorem Grows.refl (t : Table) : t.Grows t := List.prefix_refl _

theorem Grows.trans (h : t.Grows t') (h' : t'.Grows t'') : t.Grows t'' := List.IsPrefix.trans h h'

theorem grows_push (t : Table) (v : Value) : t.Grows (t.push v) :=
  ⟨[v], by simp [push]⟩

@[simp] theorem size_push (t : Table) (v : Value) : (t.push v).size = t.size + 1 := by
  simp [push, size]

theorem lt_size_push (t : Table) (v : Value) : t.size < (t.push v).size := by simp

theorem Grows.size_le (h : t.Grows t') : t.size ≤ t'.size := by
  simpa [size] using h.length_le

theorem Grows.lt (h : t.Grows t') (hid : id < t.size) : id < t'.size :=
  Nat.lt_of_lt_of_le hid h.size_le

theorem Grows.get? (h : t.Grows t') (hid : id < t.size) : t'.get? id = t.get? id := by
  obtain ⟨l, hl⟩ := h
  simp only [Table.get?, ← Array.getElem?_toList]
  rw [← hl, List.getElem?_append_left (by simpa [size] using hid)]

theorem get?_push_self (t : Table) (v : Value) : (t.push v).get? t.size = some v := by
  simp [push, Table.get?, size]

theorem get?_push_of_lt (v : Value) (h : id < t.size) : (t.push v).get? id = t.get? id :=
  (grows_push t v).get? h

theorem lt_of_get? {v : Value} (h : t.get? id = some v) : id < t.size := by
  obtain ⟨hid, -⟩ := Array.getElem?_eq_some_iff.mp h
  exact hid

theorem get?_of_lt (h : id < t.size) : ∃ v, t.get? id = some v :=
  ⟨t.values[id], Array.getElem?_eq_getElem h⟩

/-- A value of the table with one more is an old one or the new one. -/
theorem get?_push_cases {v w : Value} (h : (t.push v).get? id = some w) :
    t.get? id = some w ∨ (id = t.size ∧ w = v) := by
  have hid := lt_of_get? h
  rw [size_push] at hid
  by_cases hlt : id < t.size
  · exact .inl (by rw [← get?_push_of_lt v hlt, h])
  · obtain rfl : id = t.size := by omega
    rw [get?_push_self] at h
    exact .inr ⟨rfl, (Option.some.inj h).symm⟩

/-! What the table says of a value is what is kept with it. -/

theorem isSymbolic_of_get? {v : Value} (h : t.get? id = some v) : t.isSymbolic id = v.symbolic := by
  rw [Table.isSymbolic, h, Option.any_some]

theorem known_of_get? {v : Value} (h : t.get? id = some v) : t.known id = v.known := by
  rw [Table.known, h, Option.bind_some]

theorem constant?_of_get? {v : Value} (h : t.get? id = some v) : t.constant? id = v.constant? := by
  rw [Table.constant?, h, Option.bind_some]

theorem pieces?_of_get? {v : Value} (h : t.get? id = some v) : t.pieces? id = v.pieces? := by
  rw [Table.pieces?, h, Option.bind_some]

theorem Grows.isSymbolic (h : t.Grows t') (hid : id < t.size) :
    t'.isSymbolic id = t.isSymbolic id := by
  rw [Table.isSymbolic, Table.isSymbolic, h.get? hid]

theorem Grows.known (h : t.Grows t') (hid : id < t.size) : t'.known id = t.known id := by
  rw [Table.known, Table.known, h.get? hid]

theorem Grows.constant? (h : t.Grows t') (hid : id < t.size) : t'.constant? id = t.constant? id := by
  rw [Table.constant?, Table.constant?, h.get? hid]

theorem Grows.pieces? (h : t.Grows t') (hid : id < t.size) : t'.pieces? id = t.pieces? id := by
  simp only [Table.pieces?, h.get? hid]

theorem pieces?_eq_some_iff {pieces : Pieces} :
    t.pieces? id = some pieces ↔ ∃ v, t.get? id = some v ∧ v.node = .hybrid pieces := by
  simp only [Table.pieces?, Option.bind_eq_some_iff, Value.pieces?]
  refine exists_congr fun v => and_congr_right fun _ => ?_
  split <;> simp_all

theorem constant?_eq_some_iff {b : Bits} :
    t.constant? id = some b ↔ ∃ v, t.get? id = some v ∧ v.node = .constant b := by
  simp only [Table.constant?, Option.bind_eq_some_iff, Value.constant?]
  refine exists_congr fun v => and_congr_right fun _ => ?_
  split <;> simp_all

theorem constant?_push_self (t : Table) (v : Value) : (t.push v).constant? t.size = v.constant? :=
  constant?_of_get? (t.get?_push_self v)

theorem pieces?_push_self (t : Table) (v : Value) : (t.push v).pieces? t.size = v.pieces? :=
  pieces?_of_get? (t.get?_push_self v)

end Table

/-! ## Readings -/

namespace Interpretation

variable {β : Type} (I : Interpretation β)

theorem readings_snoc (l : List Value) (v : Value) :
    I.readings (l ++ [v]) =
      (I.readings l).push (I.value (I.readings l).size v (I.lookup (I.readings l))) := by
  simp [readings, List.foldl_append]

theorem size_foldl_readings (l : List Value) (before : Array β) :
    (l.foldl (fun before v => before.push (I.value before.size v (I.lookup before))) before).size =
      before.size + l.length := by
  induction l generalizing before with
  | nil => simp
  | cons v l ih => simp only [List.foldl_cons, ih, Array.size_push, List.length_cons]; omega

theorem size_readings (l : List Value) : (I.readings l).size = l.length := by
  simp [readings, size_foldl_readings]

/-- Further values leave the readings of the earlier ones as they are. -/
theorem getElem?_readings_append (l l' : List Value) {i : Nat} (h : i < l.length) :
    (I.readings (l ++ l'))[i]? = (I.readings l)[i]? := by
  have keep : ∀ (l' : List Value) (before : Array β), i < before.size →
      (l'.foldl (fun before v => before.push (I.value before.size v (I.lookup before))) before)[i]? =
        before[i]? := by
    intro l'
    induction l' with
    | nil => intro before _; rfl
    | cons v l' ih =>
      intro before hi
      rw [List.foldl_cons, ih _ (by simp only [Array.size_push]; omega), Array.getElem?_push_lt hi,
        Array.getElem?_eq_getElem hi]
  rw [readings, List.foldl_append]
  exact keep l' _ (by rw [size_foldl_readings]; simpa using h)

end Interpretation

namespace Table

variable {β : Type} (I : Interpretation β) {t t' : Table} {id : Nat}

theorem interpret_of_grows (h : t.Grows t') (hid : id < t.size) :
    t'.interpret I id = t.interpret I id := by
  obtain ⟨l, hl⟩ := h
  rw [interpret, interpret, ← hl, List.take_append_of_le_length (by simpa [size] using Nat.succ_le_of_lt hid)]

/-- The reading of a value from the readings of its operands; an operand that does not stand
    before it reads as zero. -/
theorem interpret_eq {v : Value} (h : t.get? id = some v) :
    t.interpret I id =
      I.value id v fun (o : Nat) => if o < id then t.interpret I o else I.constant 0 := by
  have hv : t.values.toList[id]? = some v := by rw [Array.getElem?_toList]; exact h
  have hlen : (t.values.toList.take id).length = id := by
    rw [List.length_take]
    have := (List.getElem?_eq_some_iff.mp hv).1
    omega
  have htake : t.values.toList.take (id + 1) = t.values.toList.take id ++ [v] := by
    rw [List.take_add_one, hv]; rfl
  have hop : (fun (o : Nat) => if o < id then t.interpret I o else I.constant 0) =
      I.lookup (I.readings (t.values.toList.take id)) := by
    funext o
    split
    · rename_i ho
      have hsplit := (List.take_append_drop (o + 1) (t.values.toList.take id)).symm
      rw [List.take_take, Nat.min_eq_left (by omega)] at hsplit
      have ho' : o < (t.values.toList.take (o + 1)).length := by
        rw [List.length_take] at hlen ⊢; omega
      rw [interpret, Interpretation.lookup, Interpretation.lookup, hsplit,
        I.getElem?_readings_append _ _ ho']
    · rename_i ho
      rw [Interpretation.lookup, Array.getElem?_eq_none (by rw [I.size_readings, hlen]; omega)]
      rfl
  rw [interpret, htake, I.readings_snoc, Interpretation.lookup, hop]
  have hs : (I.readings (t.values.toList.take id)).size = id := by rw [I.size_readings, hlen]
  rw [Array.getElem?_push, hs]
  simp

end Table

/-! ## Well-formed tables -/

theorem any_isSymbolic_of_grows {t t' : Table} (h : t.Grows t') {ids : List ValueId}
    (hid : ∀ o ∈ ids, o < t.size) : ids.any t'.isSymbolic = ids.any t.isSymbolic := by
  induction ids with
  | nil => rfl
  | cons o ids ih =>
    rw [List.any_cons, List.any_cons, h.isSymbolic (hid o (by simp)), ih fun o' ho' => hid o' (by simp [ho'])]

theorem mapM_known_of_grows {t t' : Table} (h : t.Grows t') {ids : List ValueId}
    (hid : ∀ o ∈ ids, o < t.size) : ids.mapM t'.known = ids.mapM t.known := by
  induction ids with
  | nil => rfl
  | cons o ids ih =>
    rw [List.mapM_cons, List.mapM_cons, h.known (hid o (by simp)), ih fun o' ho' => hid o' (by simp [ho'])]

namespace Pieces

theorem foldlM_place_congr {f g : ValueId → Option Word} (l : List (BitRange × ValueId)) (acc : Word)
    (h : ∀ e ∈ l, f e.2 = g e.2) :
    l.foldlM (fun word e => (f e.2).map (word ||| e.1.place ·)) acc =
      l.foldlM (fun word e => (g e.2).map (word ||| e.1.place ·)) acc := by
  induction l generalizing acc with
  | nil => rfl
  | cons e l ih =>
    rw [List.foldlM_cons, List.foldlM_cons, h e (by simp)]
    cases g e.2 with
    | none => rfl
    | some w => exact ih _ fun e' he' => h e' (by simp [he'])

theorem known_of_grows {pieces : Pieces} {t t' : Table} (h : t.Grows t')
    (hp : ∀ p ∈ pieces.values, p < t.size) : pieces.known t' = pieces.known t :=
  foldlM_place_congr _ _ fun e he => h.known (hp e.2 (List.mem_map.mpr ⟨e, he, rfl⟩))

end Pieces

def Value.Consistent (t : Table) (id : Nat) (v : Value) : Prop :=
  match v.node with
  | .symbol => v.symbolic = true ∧ v.known = none
  | .constant b => v.symbolic = false ∧ v.known = some b.value
  | .hybrid pieces => pieces.isPartition = true ∧ (∀ p ∈ pieces.values, p < id) ∧
      v.symbolic = pieces.isSymbolic t ∧ v.known = pieces.known t
  | .operation opcode operands => (∀ o ∈ operands, o < id) ∧
      v.symbolic = operands.any t.isSymbolic ∧
      v.known = if v.symbolic then none else (operands.mapM t.known).bind opcode.apply

def Table.WellFormed (t : Table) : Prop := ∀ id v, t.get? id = some v → v.Consistent t id

theorem Value.Consistent.grow {t t' : Table} {id : Nat} {v : Value} (h : v.Consistent t id)
    (hid : id ≤ t.size) (g : t.Grows t') : v.Consistent t' id := by
  unfold Value.Consistent at h ⊢
  split at h
  · exact h
  · exact h
  · obtain ⟨htile, hlt, hs, hk⟩ := h
    have hsize : ∀ p ∈ _, p < t.size := fun p hp => Nat.lt_of_lt_of_le (hlt p hp) hid
    exact ⟨htile, hlt, hs.trans (any_isSymbolic_of_grows g hsize).symm, by rw [Pieces.known_of_grows g hsize, hk]⟩
  · obtain ⟨hlt, hs, hk⟩ := h
    have hsize : ∀ o ∈ _, o < t.size := fun o ho => Nat.lt_of_lt_of_le (hlt o ho) hid
    exact ⟨hlt, hs.trans (any_isSymbolic_of_grows g hsize).symm, by rw [mapM_known_of_grows g hsize, hk]⟩

namespace Table

theorem wellFormed_empty : Table.empty.WellFormed := by
  intro id v h
  simp [empty, get?] at h

theorem WellFormed.push {t : Table} (h : t.WellFormed) {v : Value} (hv : v.Consistent t t.size) :
    (t.push v).WellFormed := by
  intro id w hw
  rcases get?_push_cases hw with hw | ⟨rfl, rfl⟩
  · exact (h id w hw).grow (Nat.le_of_lt (lt_of_get? hw)) (grows_push t v)
  · exact hv.grow (Nat.le_refl _) (grows_push t w)

/-- The reading of a value of a well-formed table from those of its operands. -/
theorem WellFormed.interpret_hybrid {β : Type} (I : Interpretation β) {t : Table} (h : t.WellFormed)
    {id : Nat} {pieces : Pieces} (hp : t.pieces? id = some pieces) :
    t.interpret I id = I.hybrid id (pieces.entries.map fun e => (e.1, t.interpret I e.2)) := by
  obtain ⟨v, hv, hn⟩ := pieces?_eq_some_iff.mp hp
  have hc := h id v hv
  simp only [Value.Consistent, hn] at hc
  rw [interpret_eq I hv, Interpretation.value, hn]
  refine congrArg (I.hybrid id) (List.map_congr_left fun e he => ?_)
  rw [if_pos (hc.2.1 e.2 (List.mem_map.mpr ⟨e, he, rfl⟩))]

end Table

/-! ## What a node says of its value -/

namespace Node

def operands : Node → List ValueId
  | symbol => []
  | constant _ => []
  | hybrid pieces => pieces.values
  | operation _ operands => operands

def isSymbolic (t : Table) : Node → Bool
  | symbol => true
  | constant _ => false
  | hybrid pieces => pieces.isSymbolic t
  | operation _ operands => operands.any t.isSymbolic

def known (t : Table) : Node → Option Word
  | symbol => none
  | constant bits => some bits.value
  | hybrid pieces => pieces.known t
  | operation opcode operands => (operands.mapM t.known).bind opcode.apply

end Node

theorem mapM_known_eq_none {t : Table} {ids : List ValueId} {o : ValueId} (ho : o ∈ ids)
    (h : t.known o = none) : ids.mapM t.known = none := by
  induction ids with
  | nil => cases ho
  | cons a ids ih =>
    rw [List.mapM_cons]
    rcases List.mem_cons.mp ho with rfl | ho
    · rw [h]; rfl
    · rw [ih ho]
      cases t.known a <;> rfl

theorem Pieces.foldlM_place_eq_none {f : ValueId → Option Word} {l : List (BitRange × ValueId)}
    {e : BitRange × ValueId} (he : e ∈ l) (h : f e.2 = none) (acc : Word) :
    l.foldlM (fun word e => (f e.2).map (word ||| e.1.place ·)) acc = none := by
  induction l generalizing acc with
  | nil => cases he
  | cons a l ih =>
    rw [List.foldlM_cons]
    rcases List.mem_cons.mp he with rfl | he
    · rw [h]; rfl
    · cases f a.2 with
      | none => rfl
      | some w => exact ih he _

namespace Table

variable {t : Table} {id : Nat} {v : Value}

theorem WellFormed.operands_lt (h : t.WellFormed) (hv : t.get? id = some v) : ∀ o ∈ v.node.operands, o < id := by
  have hc := h id v hv
  unfold Value.Consistent at hc
  cases hn : v.node with
  | symbol => intro o ho; cases ho
  | constant b => intro o ho; cases ho
  | hybrid pieces => rw [hn] at hc; exact hc.2.1
  | operation opcode operands => rw [hn] at hc; exact hc.1

theorem WellFormed.isSymbolic_eq (h : t.WellFormed) (hv : t.get? id = some v) :
    t.isSymbolic id = v.node.isSymbolic t := by
  have hc := h id v hv
  unfold Value.Consistent at hc
  rw [isSymbolic_of_get? hv]
  cases hn : v.node <;> rw [hn] at hc
  · exact hc.1
  · exact hc.1
  · exact hc.2.2.1
  · exact hc.2.1

/-- A value that depends on an input has no known word. -/
theorem WellFormed.known_of_isSymbolic (h : t.WellFormed) (hs : t.isSymbolic id = true) : t.known id = none := by
  induction id using Nat.strongRecOn with
  | ind id ih =>
    by_cases hid : id < t.size
    · obtain ⟨v, hv⟩ := get?_of_lt hid
      have hc := h id v hv
      have hlt := h.operands_lt hv
      have hsym : v.symbolic = true := (isSymbolic_of_get? hv).symm.trans hs
      unfold Value.Consistent at hc
      rw [known_of_get? hv]
      cases hn : v.node <;> simp only [hn] at hc hlt
      · exact hc.2
      · rw [hc.1] at hsym; cases hsym
      · rename_i pieces
        -- some piece depends on an input
        rw [hc.2.2.1] at hsym
        obtain ⟨p, hp, hps⟩ := List.any_eq_true.mp hsym
        obtain ⟨e, he, rfl⟩ := List.mem_map.mp hp
        rw [hc.2.2.2]
        exact Pieces.foldlM_place_eq_none he (ih e.2 (hlt e.2 hp) hps) 0
      · rw [hc.2.2, if_pos hsym]
    · rw [Table.isSymbolic, Table.get?, Array.getElem?_eq_none (Nat.le_of_not_lt hid)] at hs
      cases hs

theorem WellFormed.known_eq (h : t.WellFormed) (hv : t.get? id = some v) : t.known id = v.node.known t := by
  have hc := h id v hv
  unfold Value.Consistent at hc
  rw [known_of_get? hv]
  cases hn : v.node <;> rw [hn] at hc
  · exact hc.2
  · exact hc.2
  · exact hc.2.2.2
  · rename_i opcode operands
    rw [hc.2.2]
    split
    · rename_i hsym
      -- an operand that depends on an input has no word, so there is none to fold
      rw [hc.2.1] at hsym
      obtain ⟨o, ho, hs⟩ := List.any_eq_true.mp hsym
      rw [Node.known, mapM_known_eq_none ho (h.known_of_isSymbolic hs)]
      rfl
    · rfl

end Table

end TraceReplay
