/-
  TraceReplay.Proofs.Build — what the ways to build a value give.

  `Build.Adds` says which nodes the values that a computation appends have, and `Build.Makes` that
  it also gives one of them. Most computations append constants and operations only
  (`Node.Computed`), so neither an input nor a hybrid word: inputs are made in
  one way only, by asking for a symbol (`Table.IsInput`), and hybrid words by splitting and shifting.

  `Build.Ensures` says that a computation only appends to the table, keeps it in order
  (`Table.InOrder`) and gives what it is meant to, and `Build.Gives` that this is a value for a
  certain word. Computations are chained by `Ensures.bind`; a value that means a word before a
  computation means it afterwards.

  In order means well-formed, with every hybrid word aligned: a constant piece is known at
  the very bits that it covers, and any other piece is at most a byte wide and, if it fills a
  byte, a number of eight bits. That is how registers are split, and shifts keep it so.
-/

import TraceReplay.Proofs.Meaning

namespace TraceReplay

/-! ## Computations that may fail -/

section

variable {ε τ α β : Type} {x : EStateM ε τ α} {f : α → EStateM ε τ β} {s s' : τ}

theorem bind_run {a : α} (h : x s = .ok a s') : (x >>= f) s = f a s' := by
  show EStateM.bind x f s = _
  rw [EStateM.bind, h]

theorem bind_run_error {e : ε} (h : x s = .error e s') : (x >>= f) s = .error e s' := by
  show EStateM.bind x f s = _
  rw [EStateM.bind, h]

end

variable {R : Rules} {σ : Assignment}

/-! ## Values that are added -/

namespace Node

def Derived (n : Node) : Prop := n ≠ .symbol

def Plain (n : Node) : Prop := ∀ pieces, n ≠ .hybrid pieces

def Computed (n : Node) : Prop := n.Derived ∧ n.Plain

end Node

namespace Table

variable {p : Node → Prop} {t t' t'' : Table} {id : Nat}

/-- The second table has the values of the first, and each of the others has such a node. -/
structure Adds (p : Node → Prop) (t t' : Table) : Prop where
  grows : t.Grows t'
  node : ∀ id v, t.size ≤ id → t'.get? id = some v → p v.node

theorem Adds.refl (t : Table) : t.Adds p t :=
  ⟨.refl t, fun _ _ hid hv => absurd (lt_of_get? hv) (Nat.not_lt.mpr hid)⟩

theorem Adds.trans (h : t.Adds p t') (h' : t'.Adds p t'') : t.Adds p t'' := by
  refine ⟨h.grows.trans h'.grows, fun id v hid hv => ?_⟩
  by_cases hlt : id < t'.size
  · rw [h'.grows.get? hlt] at hv
    exact h.node id v hid hv
  · exact h'.node id v (Nat.le_of_not_lt hlt) hv

theorem adds_push (t : Table) {v : Value} (hv : p v.node) : t.Adds p (t.push v) := by
  refine ⟨grows_push t v, fun id w hid hw => ?_⟩
  rcases get?_push_cases hw with hw | ⟨-, rfl⟩
  · exact absurd (lt_of_get? hw) (Nat.not_lt.mpr hid)
  · exact hv

theorem Adds.derived (h : t.Adds Node.Computed t') : t.Adds Node.Derived t' :=
  ⟨h.grows, fun id v hid hv => (h.node id v hid hv).1⟩

theorem Adds.plain (h : t.Adds Node.Computed t') : t.Adds Node.Plain t' :=
  ⟨h.grows, fun id v hid hv => (h.node id v hid hv).2⟩

theorem Adds.isHybrid (h : t.Adds Node.Plain t') (hid : t.size ≤ id) : t'.isHybrid id = false := by
  cases hp : t'.pieces? id with
  | none => rw [Table.isHybrid, hp]; rfl
  | some pieces =>
    obtain ⟨v, hv, hn⟩ := pieces?_eq_some_iff.mp hp
    exact absurd hn (h.node id v hid hv pieces)

theorem isHybrid_of_size_le (h : t.size ≤ id) : t.isHybrid id = false := (Adds.refl t).isHybrid h

/-! ### Inputs -/

/-- The node of the value is a symbol. An operation on symbols is no input. -/
def IsInput (t : Table) (id : ValueId) : Prop := ∃ v, t.get? id = some v ∧ v.node = .symbol

theorem IsInput.lt (h : t.IsInput id) : id < t.size := by
  obtain ⟨v, hv, -⟩ := h
  exact lt_of_get? hv

theorem isInput_of_grows (g : t.Grows t') (hid : id < t.size) : t'.IsInput id ↔ t.IsInput id := by
  rw [IsInput, IsInput, g.get? hid]

theorem Grows.width (g : t.Grows t') (hid : id < t.size) : t'.width id = t.width id := by
  rw [Table.width, Table.width, g.get? hid]

theorem isInput_push_iff {v : Value} : (t.push v).IsInput id ↔ t.IsInput id ∨ id = t.size ∧ v.node = .symbol := by
  constructor
  · rintro ⟨w, hw, hn⟩
    rcases get?_push_cases hw with hw | ⟨rfl, rfl⟩
    · exact .inl ⟨w, hw, hn⟩
    · exact .inr ⟨rfl, hn⟩
  · rintro (h | ⟨rfl, hn⟩)
    · exact (isInput_of_grows (grows_push t v) h.lt).mpr h
    · exact ⟨v, get?_push_self t v, hn⟩

abbrev Derives (t t' : Table) : Prop := t.Adds Node.Derived t'

theorem Derives.isInput_iff (h : t.Derives t') (id : ValueId) : t'.IsInput id ↔ t.IsInput id := by
  by_cases hid : id < t.size
  · exact isInput_of_grows h.grows hid
  · refine ⟨fun ⟨v, hv, hn⟩ => ?_, fun hin => absurd hin.lt hid⟩
    exact absurd hn (h.node id v (Nat.le_of_not_lt hid) hv)

end Table

/-! ## Tables in order -/

namespace Table

/-- The piece is what reading the range of the word must give. -/
def AlignedPiece (R : Rules) (σ : Assignment) (t : Table) (range : BitRange) (piece : ValueId) : Prop :=
  match t.constant? piece with
  | some b => b.range = range
  | none => range.width ≤ 8 ∧ ∃ w, t.Means R σ piece w ∧ (range.width = 8 → w.toNat < 2 ^ 8)

structure InOrder (R : Rules) (σ : Assignment) (t : Table) : Prop where
  wellFormed : t.WellFormed
  aligned : ∀ id pieces, t.pieces? id = some pieces →
    ∀ e ∈ pieces.entries, t.AlignedPiece R σ e.1 e.2

variable {t t' : Table} {id : Nat}

theorem AlignedPiece.grow {range : BitRange} {piece : Nat} (h : t.AlignedPiece R σ range piece)
    (hp : piece < t.size) (g : t.Grows t') : t'.AlignedPiece R σ range piece := by
  unfold AlignedPiece at h ⊢
  rw [g.constant? hp]
  split at h
  · exact h
  · obtain ⟨hw, w, hm, hf⟩ := h
    exact ⟨hw, w, hm.grow g, hf⟩

theorem WellFormed.piece_lt (h : t.WellFormed) {pieces : Pieces} (hp : t.pieces? id = some pieces)
    {e : BitRange × ValueId} (he : e ∈ pieces.entries) : e.2 < t.size := by
  obtain ⟨v, hv, hn⟩ := pieces?_eq_some_iff.mp hp
  have hc := h id v hv
  simp only [Value.Consistent, hn] at hc
  exact Nat.lt_trans (hc.2.1 e.2 (List.mem_map.mpr ⟨e, he, rfl⟩)) (lt_of_get? hv)

theorem WellFormed.isPartition (h : t.WellFormed) {pieces : Pieces} (hp : t.pieces? id = some pieces) :
    pieces.isPartition = true := by
  obtain ⟨v, hv, hn⟩ := pieces?_eq_some_iff.mp hp
  have hc := h id v hv
  simp only [Value.Consistent, hn] at hc
  exact hc.1

theorem InOrder.push (h : t.InOrder R σ) {v : Value} (hv : v.Consistent t t.size)
    (hp : ∀ pieces, v.node = .hybrid pieces → ∀ e ∈ pieces.entries, t.AlignedPiece R σ e.1 e.2) :
    (t.push v).InOrder R σ := by
  refine ⟨h.wellFormed.push hv, fun id pieces hpieces e he => ?_⟩
  obtain ⟨w, hw, hn⟩ := pieces?_eq_some_iff.mp hpieces
  rcases get?_push_cases hw with hw | ⟨rfl, rfl⟩
  · have hpieces := pieces?_eq_some_iff.mpr ⟨w, hw, hn⟩
    exact (h.aligned id pieces hpieces e he).grow (h.wellFormed.piece_lt hpieces he) (grows_push t v)
  · simp only [Value.Consistent, hn] at hv
    exact (hp pieces hn e he).grow (hv.2.1 e.2 (List.mem_map.mpr ⟨e, he, rfl⟩)) (grows_push t w)

end Table

/-! ## Computations -/

namespace Build

variable {α β : Type} {p : Node → Prop}

/-- Whatever table it is run on, the values that the computation appends have such nodes. -/
def Adds (p : Node → Prop) (b : Build α) : Prop := ∀ t : Table, t.Adds p (b t).2

/-- And it gives one of them. -/
structure Makes (p : Node → Prop) (b : Build ValueId) : Prop where
  adds : b.Adds p
  fresh : ∀ t : Table, t.size ≤ (b t).1

theorem Adds.derived {b : Build α} (h : b.Adds Node.Computed) : b.Adds Node.Derived := fun t => (h t).derived

theorem Adds.plain {b : Build α} (h : b.Adds Node.Computed) : b.Adds Node.Plain := fun t => (h t).plain

theorem Makes.plain {b : Build ValueId} (h : b.Makes Node.Computed) : b.Makes Node.Plain := ⟨h.adds.plain, h.fresh⟩

theorem Makes.isHybrid {b : Build ValueId} (h : b.Makes Node.Plain) (t : Table) : (b t).2.isHybrid (b t).1 = false :=
  (h.adds t).isHybrid (h.fresh t)

theorem Adds.bind {b : Build α} {f : α → Build β} (hb : b.Adds p) (hf : ∀ a, (f a).Adds p) : (b >>= f).Adds p :=
  fun t => (hb t).trans (hf (b t).1 (b t).2)

theorem Adds.bindMakes {b : Build α} {f : α → Build ValueId} (hb : b.Adds p) (hf : ∀ a, (f a).Makes p) :
    (b >>= f).Makes p :=
  ⟨hb.bind fun a => (hf a).adds, fun t => (hb t).grows.size_le.trans ((hf (b t).1).fresh (b t).2)⟩

theorem adds_pure (a : α) : (pure a : Build α).Adds p := Table.Adds.refl

theorem adds_get {f : Table → Build α} (h : ∀ t, (f t).Adds p) : (getThe Table >>= f).Adds p := fun t => h t t

theorem Adds.exceptBind {x : ExceptT Fault Build α} {f : α → ExceptT Fault Build β} (hx : x.run.Adds p)
    (hf : ∀ a, (f a).run.Adds p) : (x >>= f).run.Adds p := by
  show (x.run >>= ExceptT.bindCont f : Build (Except Fault β)).Adds p
  refine hx.bind fun r => ?_
  cases r with
  | error fault => exact adds_pure _
  | ok a => exact hf a

theorem makes_append {v : Value} (hv : p v.node) : (append v).Makes p :=
  ⟨fun t => t.adds_push hv, fun t => Nat.le_refl t.size⟩

theorem makes_symbol (width : Nat) : (symbol width).Makes Node.Plain := makes_append nofun

theorem makes_constantOf (width : Nat) (b : Bits) : (constantOf width b).Makes Node.Computed :=
  makes_append ⟨nofun, nofun⟩

theorem makes_bits (b : Bits) : (bits b).Makes Node.Computed := makes_constantOf _ b

theorem makes_constant (w : Word) : (constant w).Makes Node.Computed := makes_constantOf _ _

theorem makes_operation (opcode : Opcode) (ids : List ValueId) (width : Nat) :
    (operation opcode ids width).Makes Node.Computed :=
  ⟨fun t => t.adds_push ⟨nofun, nofun⟩, fun t => Nat.le_refl t.size⟩

theorem makes_operationLike (opcode : Opcode) (a : ValueId) (ids : List ValueId) :
    (operationLike opcode a ids).Makes Node.Computed :=
  ⟨fun t => t.adds_push ⟨nofun, nofun⟩, fun t => Nat.le_refl t.size⟩

theorem makes_unary (opcode : Opcode) (a : ValueId) : (unary opcode a).Makes Node.Computed :=
  makes_operationLike _ _ _

theorem makes_binary (opcode : Opcode) (a b : ValueId) : (binary opcode a b).Makes Node.Computed :=
  makes_operationLike _ _ _

theorem makes_binarySized (opcode : Opcode) (a b : ValueId) (width : Nat) :
    (binarySized opcode a b width).Makes Node.Computed :=
  makes_operation _ _ _

theorem makes_withConstant (opcode : Opcode) (a : ValueId) (w : Word) :
    (constant w >>= fun k => binary opcode a k).Makes Node.Computed :=
  (makes_constant w).adds.bindMakes fun k => makes_binary opcode a k

/-! ### What a computation gives -/

/-- Run on the table, the computation appends to it, keeps it in order and gives what it is
    meant to. -/
structure Ensures {α : Type} (R : Rules) (σ : Assignment) (b : Build α) (t : Table)
    (post : Table → α → Prop) : Prop where
  grows : t.Grows (b t).2
  inOrder : t.InOrder R σ → (b t).2.InOrder R σ
  post : post (b t).2 (b t).1

abbrev Gives (R : Rules) (σ : Assignment) (b : Build ValueId) (t : Table) (w : Word) : Prop :=
  Ensures R σ b t fun t' id => t'.Means R σ id w

variable {t : Table} {w : Word} {a c : Nat}

theorem Ensures.bind {α β : Type} {b : Build α} {f : α → Build β} {P : Table → α → Prop}
    {Q : Table → β → Prop} (hb : b.Ensures R σ t P)
    (hf : ∀ a t', t.Grows t' → P t' a → (f a).Ensures R σ t' Q) : (b >>= f).Ensures R σ t Q :=
  have h := hf (b t).1 (b t).2 hb.grows hb.post
  ⟨hb.grows.trans h.grows, fun ht => h.inOrder (hb.inOrder ht), h.post⟩

theorem ensures_pure {α : Type} {a : α} {P : Table → α → Prop} (h : P t a) :
    Ensures R σ (pure a) t P := ⟨.refl t, id, h⟩

theorem Ensures.congr {α : Type} {b b' : Build α} {P : Table → α → Prop} (h : b.Ensures R σ t P)
    (e : b' t = b t) : b'.Ensures R σ t P := by
  constructor <;> rw [e]
  · exact h.grows
  · exact h.inOrder
  · exact h.post

/-- A computation may look at the table. -/
theorem ensures_get {α : Type} {f : Table → Build α} {P : Table → α → Prop} (h : (f t).Ensures R σ t P) :
    (getThe Table >>= f).Ensures R σ t P := ⟨h.grows, h.inOrder, h.post⟩

theorem gives_append {v : Value} (hv : v.Consistent t t.size) (hn : ∀ pieces, v.node ≠ .hybrid pieces)
    (hm : (t.push v).Means R σ t.size w) : Gives R σ (append v) t w :=
  ⟨Table.grows_push t v, fun h => h.push hv fun pieces h => absurd h (hn pieces), hm⟩

theorem gives_symbol (width : Nat) (t : Table) :
    Gives R σ (symbol width) t (σ t.size &&& (BitRange.lowBits width).mask) := by
  have hv := Table.get?_push_self t ⟨width, .symbol, true, none⟩
  have hm : (t.push ⟨width, .symbol, true, none⟩).Means R σ t.size _ := Table.means_symbol hv rfl
  exact gives_append ⟨rfl, rfl⟩ (fun _ h => nomatch h) hm

theorem gives_constantOf (width : Nat) (bits : Bits) (t : Table) :
    Gives R σ (constantOf width bits) t bits.value :=
  have hv := Table.get?_push_self t ⟨width, .constant bits, false, some bits.value⟩
  gives_append ⟨rfl, rfl⟩ (fun _ h => nomatch h) (Table.means_constant hv rfl)

theorem gives_bits (bits : Bits) (t : Table) : Gives R σ (Build.bits bits) t bits.value :=
  gives_constantOf _ _ t

theorem gives_constant (w : Word) (t : Table) : Gives R σ (constant w) t w := by
  have h : Gives R σ (constant w) t (Bits.value ⟨w, BitRange.lowBits 32⟩) := gives_constantOf _ _ t
  rwa [Bits.value_word] at h

theorem gives_operation {opcode : Opcode} {ids : List ValueId} (ws : List Word) {width : Nat}
    (hlt : ∀ o ∈ ids, o < t.size) (hws : ids.map (t.evalWith R σ) = ws.map .ok)
    (hw : R.apply opcode ws = some w) : Gives R σ (operation opcode ids width) t w := by
  refine ⟨Table.grows_push t _, fun h => h.push ⟨hlt, rfl, rfl⟩ (fun _ h => nomatch h), ?_⟩
  refine Table.means_operation (Table.get?_push_self t _) rfl hlt ?_ hw
  rw [← hws]
  exact List.map_congr_left fun o ho => Table.interpret_of_grows _ (Table.grows_push t _) (hlt o ho)

theorem gives_operationLike {opcode : Opcode} {ids : List ValueId} (ws : List Word)
    (hlt : ∀ o ∈ a :: ids, o < t.size) (hws : (a :: ids).map (t.evalWith R σ) = ws.map .ok)
    (hw : R.apply opcode ws = some w) : Gives R σ (operationLike opcode a ids) t w :=
  have h : Gives R σ (operation opcode (a :: ids) (t.width a)) t w := gives_operation ws hlt hws hw
  ⟨h.grows, h.inOrder, h.post⟩

theorem gives_unary {opcode : Opcode} {x : Word} (ha : t.Means R σ a x)
    (hw : R.apply opcode [x] = some w) : Gives R σ (unary opcode a) t w :=
  gives_operationLike [x] (by simpa using ha.1) (by simp [ha.2]) hw

theorem gives_binary {opcode : Opcode} {x y : Word} (ha : t.Means R σ a x) (hc : t.Means R σ c y)
    (hw : R.apply opcode [x, y] = some w) : Gives R σ (binary opcode a c) t w :=
  gives_operationLike [x, y] (by simpa using ⟨ha.1, hc.1⟩) (by simp [ha.2, hc.2]) hw

theorem gives_binarySized {opcode : Opcode} {x y : Word} {width : Nat} (ha : t.Means R σ a x)
    (hc : t.Means R σ c y) (hw : R.apply opcode [x, y] = some w) :
    Gives R σ (binarySized opcode a c width) t w :=
  gives_operation [x, y] (by simpa using ⟨ha.1, hc.1⟩) (by simp [ha.2, hc.2]) hw

/-- The result of an operation has a word only if its operands have. -/
theorem binary_inv {opcode : Opcode} (ha : a < t.size) (hc : c < t.size)
    (h : (binary opcode a c t).2.Means R σ (binary opcode a c t).1 w) :
    ∃ x y, t.Means R σ a x ∧ t.Means R σ c y ∧ R.apply opcode [x, y] = some w := by
  have hlt : ∀ o ∈ [a, c], o < t.size := by simpa using ⟨ha, hc⟩
  obtain ⟨ws, hws, hw⟩ := h.operation_inv (Table.get?_push_self t _) rfl hlt
  have hold {o : Nat} (ho : o < t.size) : (binary opcode a c t).2.evalWith R σ o = t.evalWith R σ o :=
    Table.interpret_of_grows _ (Table.grows_push t _) ho
  obtain _ | ⟨x, _ | ⟨y, _ | ⟨_, _⟩⟩⟩ := ws <;> simp [hold ha, hold hc] at hws
  exact ⟨x, y, ⟨ha, hws.1⟩, ⟨hc, hws.2⟩, hw⟩

/-! ## Masks and shifts by a constant -/

theorem shiftCount_ofNat {n : Nat} (h : n < 32) : Opcode.shiftCount (BitVec.ofNat 32 n) = n := by
  simp only [Opcode.shiftCount, BitVec.toNat_ofNat]
  omega

/-- The value under a constant. -/
theorem gives_withConstant {opcode : Opcode} {x y : Word} (ha : t.Means R σ a x)
    (hw : R.apply opcode [x, y] = some w) :
    Gives R σ (constant y >>= fun k => binary opcode a k) t w :=
  (gives_constant y t).bind fun _ _ g hk => gives_binary (ha.grow g) hk hw

theorem makes_field (r : BitRange) (a : ValueId) (width : Nat) : (do
    let mask ← constant r.mask
    let masked ← binary .and a mask
    let count ← constant (BitVec.ofNat 32 r.low)
    binarySized .shr masked count width : Build ValueId).Makes Node.Computed :=
  (makes_constant _).adds.bindMakes fun _ => (makes_binary _ _ _).adds.bindMakes fun _ =>
    (makes_constant _).adds.bindMakes fun _ => makes_binarySized _ _ _ _

/-- A field by a mask and a shift down. -/
theorem gives_field {r : BitRange} {x : Word} (h : t.Means R σ a x) (hr : r.InWord) (width : Nat) :
    Gives R σ (do
      let mask ← constant r.mask
      let masked ← binary .and a mask
      let count ← constant (BitVec.ofNat 32 r.low)
      binarySized .shr masked count width) t (r.field x) := by
  have hlow := Nat.lt_of_le_of_lt hr.1 hr.2
  have hfield : (x &&& r.mask) >>> r.low = r.field x := Bits.value_eq_field (b := ⟨x, r⟩) hr
  refine (gives_constant _ t).bind fun mask t₁ g₁ hmask => ?_
  refine (gives_binary (h.grow g₁) hmask (R.extends_apply rfl)).bind fun masked t₂ g₂ hmasked => ?_
  refine (gives_constant _ t₂).bind fun count t₃ g₃ hcount => ?_
  refine gives_binarySized (hmasked.grow g₃) hcount (R.extends_apply ?_)
  rw [Opcode.apply, shiftCount_ofNat hlow, hfield]

theorem makes_merge (r : BitRange) (a c : ValueId) : (do
    let mask ← constant (~~~r.mask)
    let kept ← binary .and a mask
    let count ← constant (BitVec.ofNat 32 r.low)
    let moved ← binary .shl c count
    binary .or kept moved : Build ValueId).Makes Node.Computed :=
  (makes_constant _).adds.bindMakes fun _ => (makes_binary _ _ _).adds.bindMakes fun _ =>
    (makes_constant _).adds.bindMakes fun _ => (makes_binary _ _ _).adds.bindMakes fun _ => makes_binary _ _ _

/-- A merge by a mask and a shift up. -/
theorem gives_merge {r : BitRange} {x w : Word} (h : t.Means R σ a x) (hw : t.Means R σ c w)
    (hr : r.InWord) :
    Gives R σ (do
      let mask ← constant (~~~r.mask)
      let kept ← binary .and a mask
      let count ← constant (BitVec.ofNat 32 r.low)
      let moved ← binary .shl c count
      binary .or kept moved) t (r.merge x w) := by
  have hlow := Nat.lt_of_le_of_lt hr.1 hr.2
  have hshl : R.apply .shl [w, BitVec.ofNat 32 r.low] = some (w <<< r.low) := by
    refine R.extends_apply ?_
    rw [Opcode.apply, shiftCount_ofNat hlow]
  refine (gives_constant _ t).bind fun mask t₁ g₁ hmask => ?_
  refine (gives_binary (h.grow g₁) hmask (R.extends_apply rfl)).bind fun kept t₂ g₂ hkept => ?_
  refine (gives_constant _ t₂).bind fun count t₃ g₃ hcount => ?_
  refine (gives_binary (hw.grow (g₁.trans (g₂.trans g₃))) hcount hshl).bind fun moved t₄ g₄ hmoved => ?_
  exact gives_binary (hkept.grow (g₃.trans g₄)) hmoved (R.extends_apply rfl)

end Build

end TraceReplay
