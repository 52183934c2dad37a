/-
  TraceReplay.Proofs.Replay.Binding — to run a trace and then bind its symbols, or to bind them
  and then run it.

  One session starts with a symbol in every register, the other with known words. Knowing a word
  leads to other values: it is folded, split around an unknown byte, shifted piece by piece,
  masked to a constant. Two values are twins (`Twins`) if they mean the same word, the symbols
  being bound to the known words, and show the same number at every byte. Reads and operations
  give twins for twins (`Mirrors`), and so do shifts, since a byte of a shifted word shows what
  was shown before (`Shifted`).

  A write of a second byte does so, unless one session splits the register and the other does
  not, and the word is wider than a byte (`Moment.SplitFits`). The split register keeps the byte
  apart, while the other takes in all of its bits. So the sessions are alike after every write
  exactly if each such word fits, and then all registers end as twins
  (`a_run_commutes_with_binding_while_splits_fit`).
-/

import TraceReplay.Proofs.Regular
import TraceReplay.Proofs.Replay.Frame

namespace TraceReplay

variable {R : Rules} {σ τ : Assignment}

/-! ## Twins -/

/-- Values of two tables, each with its own assignment, that cannot be told apart by reading. -/
structure Twins (R : Rules) (σ τ : Assignment) (t u : Table) (v w : ValueId) : Prop where
  word : ∃ x, t.Means R σ v x ∧ u.Means R τ w x
  bytes : ∀ range, range.InWord → range.width = 8 → ∃ x, t.Shows R σ v range x ∧ u.Shows R τ w range x

namespace Twins

variable {t u t' u' : Table} {v w : ValueId}

theorem inside (h : Twins R σ τ t u v w) : v < t.size ∧ w < u.size := by
  obtain ⟨x, hx, hy⟩ := h.word
  exact ⟨hx.1, hy.1⟩

theorem grow (h : Twins R σ τ t u v w) (g : t.Grows t') (g' : u.Grows u') : Twins R σ τ t' u' v w := by
  obtain ⟨hv, hw⟩ := h.inside
  constructor
  · obtain ⟨x, hx, hy⟩ := h.word
    exact ⟨x, hx.grow g, hy.grow g'⟩
  · intro range hr h8
    obtain ⟨x, hx, hy⟩ := h.bytes range hr h8
    exact ⟨x, hx.grow hv g, hy.grow hw g'⟩

/-- Values that are not hybrid show the fields of their word. -/
theorem of_flat {x : Word} (hv : t.Means R σ v x) (hw : u.Means R τ w x) (hvf : t.isHybrid v = false)
    (hwf : u.isHybrid w = false) : Twins R σ τ t u v w :=
  ⟨⟨x, hv, hw⟩, fun range _ _ =>
    ⟨range.field x, Table.shows_of_not_hybrid hvf hv range, Table.shows_of_not_hybrid hwf hw range⟩⟩

/-- Twins show the same number at whatever is at least a byte. -/
theorem shown (h : Twins R σ τ t u v w) (ht : t.WellFormed) (htr : t.Regular) (hu : u.WellFormed) (hur : u.Regular)
    {range : BitRange} (hr : range.InWord) (h8 : 8 ≤ range.width) :
    ∃ x, t.Shows R σ v range x ∧ u.Shows R τ w range x := by
  rcases Nat.eq_or_lt_of_le h8 with h8 | hwide
  · exact h.bytes range hr h8.symm
  · obtain ⟨x, hx, hy⟩ := h.word
    exact ⟨range.field x, ht.shows_wide htr hx hwide, hu.shows_wide hur hy hwide⟩

/-- Shifted twins are twins, whichever way each of them is shifted. -/
theorem shift (h : Twins R σ τ t u v w) {d : Direction} {n : Nat} {v' w' : ValueId} {x : Word}
    (hx : t.Means R σ v x) (hv : Shifted R σ d n t t' v v' x)
    (hw : ∀ y, u.Means R τ w y → Shifted R τ d n u u' w w' y) : Twins R σ τ t' u' v' w' := by
  obtain ⟨y, hy, hwy⟩ := h.word
  obtain rfl := hx.unique hy
  replace hw := hw x hwy
  refine ⟨⟨_, hv.means, hw.means⟩, fun target hr h8 => ?_⟩
  by_cases hsource : ∃ source, source.InWord ∧ source.width = 8 ∧ d.move? n source = some target
  · obtain ⟨source, hrs, h8s, hm⟩ := hsource
    obtain ⟨z, hz, hz'⟩ := h.bytes source hrs h8s
    exact ⟨z, hv.moved source target z hrs h8s h8 hm hz, hw.moved source target z hrs h8s h8 hm hz'⟩
  · have hno (source : BitRange) (hrs : source.InWord) (h8s : source.width = 8) : d.move? n source ≠ some target :=
      fun hm => hsource ⟨source, hrs, h8s, hm⟩
    exact ⟨_, hv.fresh target hr h8 hno, hw.fresh target hr h8 hno⟩

end Twins

/-! ## Sessions that mirror each other -/

def Rules.Total (R : Rules) : Prop := ∀ opcode args, ∃ w, R.apply opcode args = some w

namespace Session

/-- The symbols for bytes of memory stand for the words that are chosen for their ranges. -/
def Supplies (M : AddressRange → Word) (σ : Assignment) (s : Session) : Prop :=
  ∀ e ∈ s.memory.inputs.entries, σ e.1 = M e.2

/-- The sessions have the same shape, and registers and cells hold twins. -/
structure Mirror (R : Rules) (σ τ : Assignment) (s t : Session) : Prop where
  shape : SameShape 0 s t
  left : s.table.Regular
  right : t.table.Regular
  registers : ∀ r, ∃ v w, s.registers.get? r = some v ∧ t.registers.get? r = some w ∧
    Twins R σ τ s.table t.table v w
  cells : ∀ range v w, (range, v) ∈ s.memory.cells.entries → (range, w) ∈ t.memory.cells.entries →
    Twins R σ τ s.table t.table v w

variable {M : AddressRange → Word} {s t s' t' : Session}

theorem Supplies.of_extends (h : s'.Supplies M σ) (he : s.Extends s') : s.Supplies M σ :=
  fun e hin => h e (he.memoryInputs e hin)

/-- Whatever is built, registers and cells still hold twins. -/
theorem Mirror.grow (h : Mirror R σ τ s t) (hc : Continues 0 s t s' t') (hl : s'.table.Regular) (hr : t'.table.Regular)
    (hregs : s'.registers = s.registers ∧ t'.registers = t.registers)
    (hcells : s'.memory = s.memory ∧ t'.memory = t.memory) : Mirror R σ τ s' t' := by
  refine ⟨hc.shape, hl, hr, fun r => ?_, fun range v w hv hw => ?_⟩
  · obtain ⟨v, w, hv, hw, htwins⟩ := h.registers r
    exact ⟨v, w, by rw [hregs.1, hv], by rw [hregs.2, hw], htwins.grow hc.left hc.right⟩
  · rw [hcells.1] at hv
    rw [hcells.2] at hw
    exact (h.cells range v w hv hw).grow hc.left hc.right

/-- Both sessions put twins into the same cell. -/
theorem Mirror.store (h : Mirror R σ τ s t) (hc : Continues 0 s t s' t') (hl : s'.table.Regular) (hr : t'.table.Regular)
    (hregs : s'.registers = s.registers ∧ t'.registers = t.registers) {range : AddressRange} {v w : ValueId}
    (hm : s.memory.Replaces range v s'.memory) (hm' : t.memory.Replaces range w t'.memory)
    (hvw : Twins R σ τ s'.table t'.table v w) : Mirror R σ τ s' t' := by
  have hle := hc.shape.left.separated.first_le_last _ ((hm.mem_iff (range, v)).mpr (.inl rfl))
  have hself : range.intersects range = true := AddressRange.intersects_of_contains range.contains_self hle
  refine ⟨hc.shape, hl, hr, fun r => ?_, fun r a b ha hb => ?_⟩
  · obtain ⟨a, b, ha, hb, htwins⟩ := h.registers r
    exact ⟨a, b, by rw [hregs.1, ha], by rw [hregs.2, hb], htwins.grow hc.left hc.right⟩
  · rcases (hm.mem_iff _).mp ha with hnew | ⟨ha, hi⟩
    · cases hnew
      rcases (hm'.mem_iff _).mp hb with hnew | ⟨-, hi⟩
      · cases hnew
        exact hvw
      · cases hself.symm.trans hi
    · rcases (hm'.mem_iff _).mp hb with hnew | ⟨hb, -⟩
      · cases hnew
        cases hself.symm.trans hi
      · exact (h.cells r a b ha hb).grow hc.left hc.right

end Session

/-! ## Computations that mirror each other -/

namespace Replay

open Session (SameShape Continues Both Mirror Supplies)
open Build (Inside)

variable {α β γ δ : Type} {M : AddressRange → Word} {s t s' t' : Session}

/-- Where both computations succeed, and the symbols that they make for bytes of memory stand for
    the chosen words, they lead to mirrored sessions again. -/
def Mirrors (R : Rules) (M : AddressRange → Word) (σ τ : Assignment) (s t : Session) (x : Replay α) (y : Replay β)
    (post : Table → Table → α → β → Prop) : Prop :=
  ∀ a b s' t', x s = .ok a s' → y t = .ok b t' → s'.Supplies M σ → t'.Supplies M τ →
    Mirror R σ τ s' t' ∧ s.table.Grows s'.table ∧ t.table.Grows t'.table ∧ post s'.table t'.table a b

theorem Mirrors.bind {x : Replay α} {y : Replay β} {f : α → Replay γ} {g : β → Replay δ}
    {P : Table → Table → α → β → Prop} {Q : Table → Table → γ → δ → Prop} (hx : Mirrors R M σ τ s t x y P)
    (h : Mirror R σ τ s t) (ex : x.Extending) (ey : y.Extending) (ef : ∀ a, (f a).Extending)
    (eg : ∀ b, (g b).Extending)
    (hf : ∀ a b s' t', Mirror R σ τ s' t' → s.table.Grows s'.table → t.table.Grows t'.table →
      P s'.table t'.table a b → Mirrors R M σ τ s' t' (f a) (g b) Q) :
    Mirrors R M σ τ s t (x >>= f) (y >>= g) Q := by
  intro c d s' t' hrun hrun' hsupplies hsupplies'
  obtain ⟨a, s₁, hxs, hfs⟩ := bind_ok hrun
  obtain ⟨b, t₁, hyt, hgt⟩ := bind_ok hrun'
  have hext := ef a s₁ c s' (ex s a s₁ h.shape.left.toTidy hxs).tidy hfs
  have hext' := eg b t₁ d t' (ey t b t₁ h.shape.right.toTidy hyt).tidy hgt
  obtain ⟨h₁, g₁, g₁', hp⟩ := hx a b s₁ t₁ hxs hyt (hsupplies.of_extends hext) (hsupplies'.of_extends hext')
  obtain ⟨h₂, g₂, g₂', hq⟩ := hf a b s₁ t₁ h₁ g₁ g₁' hp c d s' t' hfs hgt hsupplies hsupplies'
  exact ⟨h₂, g₁.trans g₂, g₁'.trans g₂', hq⟩

theorem mirrors_pure (h : Mirror R σ τ s t) {a : α} {b : β} {post : Table → Table → α → β → Prop}
    (hp : post s.table t.table a b) : Mirrors R M σ τ s t (pure a) (pure b) post := by
  intro a' b' s' t' hs ht _ _
  cases hs
  cases ht
  exact ⟨h, .refl _, .refl _, hp⟩

theorem mirrors_throw (fault fault' : Fault) {post : Table → Table → α → β → Prop} :
    Mirrors R M σ τ s t (throw fault) (throw fault') post := nofun

theorem mirrors_get {f : Session → Replay α} {g : Session → Replay β} {post : Table → Table → α → β → Prop}
    (h : Mirrors R M σ τ s t (f s) (g t) post) : Mirrors R M σ τ s t (get >>= f) (get >>= g) post :=
  fun a b s' t' hs ht => h a b s' t' (get_bind_ok hs) (get_bind_ok ht)

/-- What is decided from the shape alone is decided alike. -/
theorem mirrors_check (h : Mirror R σ τ s t) {outcome outcome' : Except Fault α} (ho : outcome = outcome') :
    Mirrors R M σ τ s t (check outcome) (check outcome') fun _ _ a b => a = b ∧ outcome = .ok a := by
  intro a b s' t' hs ht _ _
  obtain ⟨ha, rfl⟩ := check_ok hs
  obtain ⟨hb, rfl⟩ := check_ok ht
  rw [← ho, ha] at hb
  cases hb
  exact ⟨h, .refl _, .refl _, rfl, ha⟩

theorem mirrors_build (h : Mirror R σ τ s t) {b c : Build ValueId} (hb : b.Maintains s.table Inside)
    (hc : c.Maintains t.table Inside) (hl : (b s.table).2.Regular) (hr : (c t.table).2.Regular)
    (hbc : Twins R σ τ (b s.table).2 (c t.table).2 (b s.table).1 (c t.table).1) :
    Mirrors R M σ τ s t (build b) (build c) (Twins R σ τ) := by
  intro v w s' t' hs ht _ _
  obtain ⟨hcont, -⟩ := (lockstep_build h.shape hb hc).of_ok hs ht
  obtain ⟨rfl, rfl⟩ := build_ok hs
  obtain ⟨rfl, rfl⟩ := build_ok ht
  exact ⟨h.grow hcont hl hr ⟨rfl, rfl⟩ ⟨rfl, rfl⟩, hb.grows, hc.grows, hbc⟩

/-- Values for the same word that are not hybrid are twins. -/
theorem mirrors_flat (h : Mirror R σ τ s t) {b c : Build ValueId} (hb : b.Maintains s.table Inside)
    (hc : c.Maintains t.table Inside) (fb : b.Makes Node.Plain) (fc : c.Makes Node.Plain) {x : Word} (gb : b.Gives R σ s.table x)
    (gc : c.Gives R τ t.table x) : Mirrors R M σ τ s t (build b) (build c) (Twins R σ τ) :=
  mirrors_build h hb hc (fb.adds.regular h.shape.left.wellFormed h.left)
    (fc.adds.regular h.shape.right.wellFormed h.right) (.of_flat gb.post gc.post (fb.isHybrid _) (fc.isHybrid _))

/-! ### Reading -/

theorem mirrors_readRegister (h : Mirror R σ τ s t) (view : RegisterView) :
    Mirrors R M σ τ s t (readRegister view) (readRegister view) (Twins R σ τ) := by
  intro v w s' t' hs ht _ _
  obtain ⟨hcont, -⟩ := (lockstep_readRegister h.shape view).of_ok hs ht
  obtain ⟨a, ha, rfl, rfl⟩ := readRegister_ok hs
  obtain ⟨b, hb, rfl, rfl⟩ := readRegister_ok ht
  obtain ⟨a', b', ha', hb', htwins⟩ := h.registers view.owner
  cases ha.symm.trans ha'
  cases hb.symm.trans hb'
  have hl := h.shape.left.wellFormed
  have hr := h.shape.right.wellFormed
  refine ⟨h.grow hcont ((view.adds_extract a).plain.regular hl h.left)
    ((view.adds_extract b).plain.regular hr h.right)
    ⟨rfl, rfl⟩ ⟨rfl, rfl⟩, hcont.left, hcont.right, ?_⟩
  by_cases hpart : view.span = .word
  · cases view with
    | full r => exact htwins
    | low16 r | low8 r | high8 r => cases hpart
  · obtain ⟨x, hx, hy⟩ := htwins.shown hl h.left hr h.right view.span_inWord view.eight_le_width
    exact .of_flat (view.gives_extract_shown hpart hx).post (view.gives_extract_shown hpart hy).post
      (view.isHybrid_extract h.left hpart) (view.isHybrid_extract h.right hpart)

end Replay

namespace Replay

open Session (SameShape Continues Both Mirror Supplies)
open Build (Inside)

variable {α β γ δ : Type} {M : AddressRange → Word} {s t s' t' : Session}

theorem mirrors_readMemory (h : Mirror R σ τ s t) (address : Word) {bytes : Nat} (hbytes : bytes < 2 ^ 29) :
    Mirrors R M σ τ s t (readMemory address bytes) (readMemory address bytes) (Twins R σ τ) := by
  intro v w s' t' hs ht hσ hτ
  obtain ⟨hcont, -, halike⟩ := (readsAlike_readMemory h.shape address hbytes).of_ok hs ht
  have hl := h.shape.left.wellFormed
  have hr := h.shape.right.wellFormed
  cases halike with
  | exact hv hw => exact ⟨h, .refl _, .refl _, h.cells _ _ _ hv hw⟩
  | @fresh range m m' width hm hm' hin hin' =>
    have hsymbol := Build.makes_symbol width
    have hv : (Build.symbol width).Gives R σ s.table _ := Build.gives_symbol width s.table
    have hw : (Build.symbol width).Gives R τ t.table _ := Build.gives_symbol width t.table
    -- the new symbols stand for the word that is chosen for the range
    have hsame : σ s.table.size = τ t.table.size := by
      have hs : σ s.table.size = M range := hσ (s.table.size, range) (hin ▸ SortedMap.mem_insert.mpr (.inl rfl))
      have ht : τ t.table.size = M range := hτ (t.table.size, range) (hin' ▸ SortedMap.mem_insert.mpr (.inl rfl))
      rw [hs, ht]
    rw [hsame] at hv
    have htwins := Twins.of_flat hv.post hw.post (hsymbol.isHybrid _) (hsymbol.isHybrid _)
    exact ⟨h.store hcont (hsymbol.adds.regular hl h.left) (hsymbol.adds.regular hr h.right) ⟨rfl, rfl⟩ hm hm' htwins,
      hcont.left, hcont.right, htwins⟩
  | @within cell a b lane width ha hb hlane =>
    obtain ⟨x, hx, hy⟩ := (h.cells _ _ _ ha hb).word
    have hv : (Memory.readLane a lane width).Gives R σ s.table _ := Build.gives_field hx hlane width
    have hw : (Memory.readLane b lane width).Gives R τ t.table _ := Build.gives_field hy hlane width
    have flat (stored : ValueId) := (Memory.makes_readLane stored lane width).plain
    refine ⟨h.grow hcont ((flat a).adds.regular hl h.left) ((flat b).adds.regular hr h.right) ⟨rfl, rfl⟩ ⟨rfl, rfl⟩,
      hcont.left, hcont.right, ?_⟩
    exact .of_flat hv.post hw.post ((flat a).isHybrid _) ((flat b).isHybrid _)

theorem mirrors_read (h : Mirror R σ τ s t) (insn : Instruction) (o : Operand) :
    Mirrors R M σ τ s t (read insn o) (read insn o) (Twins R σ τ) := by
  cases o with
  | immediate value =>
    exact mirrors_flat h (Build.maintains_constant h.shape.left.wellFormed _)
      (Build.maintains_constant h.shape.right.wellFormed _) (Build.makes_constant _).plain
      (Build.makes_constant _).plain (Build.gives_constant _ _) (Build.gives_constant _ _)
  | register name bits =>
    refine (mirrors_check h rfl).bind h (extending_check _) (extending_check _)
      (fun _ => extending_readRegister _) (fun _ => extending_readRegister _) fun view view' s' t' h' _ _ hview => ?_
    obtain ⟨rfl, -⟩ := hview
    exact mirrors_readRegister h' view
  | memory m =>
    refine (mirrors_check h rfl).bind h (extending_check _) (extending_check _)
      (fun _ => extending_readMemory _ _) (fun _ => extending_readMemory _ _) fun address address' s' t' h' _ _ ha => ?_
    obtain ⟨rfl, -⟩ := ha
    exact mirrors_readMemory h' address (Operand.memory m).byteCount_lt

theorem mirrors_readSource (h : Mirror R σ τ s t) (insn : Instruction) {source : Source}
    (hshort : ∀ address bytes, source = .slot address bytes → bytes < 2 ^ 29) :
    Mirrors R M σ τ s t (readSource insn source) (readSource insn source) (Twins R σ τ) := by
  cases source with
  | operand o => exact mirrors_read h insn o
  | slot address bytes => exact mirrors_readMemory h address (hshort address bytes rfl)
  | register r => exact mirrors_readRegister h _

theorem mirrors_readSources (h : Mirror R σ τ s t) (insn : Instruction) {sources : List Source}
    (hshort : ∀ address bytes, .slot address bytes ∈ sources → bytes < 2 ^ 29) :
    Mirrors R M σ τ s t (readSources insn sources) (readSources insn sources) fun t' u' =>
      List.Forall₂ (Twins R σ τ t' u') := by
  induction sources generalizing s t with
  | nil => exact mirrors_pure h .nil
  | cons source rest ih =>
    simp only [readSources, List.mapM_cons]
    have hrest := extending_readSources insn rest
    have hpure (v : ValueId) : (do
        let vs ← readSources insn rest
        pure (v :: vs) : Replay (List ValueId)).Extending := hrest.bind fun _ => extending_pure _
    refine (mirrors_readSource h insn fun address bytes hs => hshort address bytes (by simp [hs])).bind
      h (extending_readSource _ _) (extending_readSource _ _) hpure hpure
      fun v w s' t' h' _ _ hvw => ?_
    refine (ih h' fun address bytes hin => hshort address bytes (by simp [hin])).bind
      h' hrest hrest (fun _ => extending_pure _) (fun _ => extending_pure _)
      fun vs ws s'' t'' h'' g g' hvws => ?_
    exact mirrors_pure h'' (.cons (hvw.grow g g') hvws)

/-! ### Combining -/

/-- A shift of a value, hybrid or not, shows its bytes at their new places. -/
theorem shiftValue_shifted (hs : s.Sound) (hreg : s.table.Regular) {opcode : Opcode} {d : Direction}
    (hd : Direction.ofOpcode? opcode = some d) {v v' : ValueId} {x count : Word} (hx : s.table.Means R σ v x)
    (hrun : shiftValue opcode v count s = .ok v' s') :
    s' = { s with table := s'.table } ∧ s'.table.Regular ∧
      Shifted R σ d (Opcode.shiftCount count) s.table s'.table v v' x := by
  replace hrun := get_bind_ok hrun
  split at hrun
  · rename_i hhybrid
    obtain ⟨pieces, hp⟩ := Option.isSome_iff_exists.mp hhybrid
    obtain ⟨id, hid, -, hreg', hshifted⟩ := (Build.shifted_shiftHybrid hs.wellFormed hreg hp hx hd count).post
    obtain ⟨hv', rfl⟩ := attempt_ok hrun
    cases hid.symm.trans hv'
    exact ⟨rfl, hreg', hshifted⟩
  · rename_i hflat
    have gives := Build.gives_withConstant hx (R.extends_apply (Direction.apply_eq hd x count))
    have hnew := (makes_withConstant opcode v count).plain
    obtain ⟨rfl, rfl⟩ := build_ok hrun
    exact ⟨rfl, hnew.adds.regular hs.wellFormed hreg,
      Build.shifted_of_not_hybrid hx (Bool.eq_false_iff.mpr hflat) gives.post (hnew.isHybrid _)⟩

theorem mirrors_shiftValue (h : Mirror R σ τ s t) {opcode : Opcode} {d : Direction}
    (hd : Direction.ofOpcode? opcode = some d) (count : Word) {v w : ValueId}
    (hvw : Twins R σ τ s.table t.table v w) :
    Mirrors R M σ τ s t (shiftValue opcode v count) (shiftValue opcode w count) (Twins R σ τ) := by
  intro v' w' s' t' hs ht _ _
  obtain ⟨hcont, -⟩ := (lockstep_shiftValue h.shape hd count hvw.inside).of_ok hs ht
  obtain ⟨x, hx, hy⟩ := hvw.word
  obtain ⟨heq, hl, hv⟩ := shiftValue_shifted h.shape.left h.left hd hx hs
  obtain ⟨heq', hr, hw⟩ := shiftValue_shifted h.shape.right h.right hd hy ht
  refine ⟨h.grow hcont hl hr ?_ ?_, hcont.left, hcont.right, hvw.shift hx hv fun y' hy' => hy'.unique hy ▸ hw⟩
  · rw [heq, heq']
    exact ⟨rfl, rfl⟩
  · rw [heq, heq']
    exact ⟨rfl, rfl⟩

theorem mirrors_combine (h : Mirror R σ τ s t) {a : Action} (ha : a.Modelled R) {vs ws : List ValueId}
    (hvws : List.Forall₂ (Twins R σ τ s.table t.table) vs ws) :
    Mirrors R M σ τ s t (combine a vs) (combine a ws) (Twins R σ τ) := by
  have hl := h.shape.left.wellFormed
  have hr := h.shape.right.wellFormed
  cases a, vs, ws, hvws using combine_cases₂ with
  | unary opcode _ v w hv =>
    obtain ⟨x, hx, hy⟩ := hv.word
    obtain ⟨z, hz⟩ := ha x
    exact mirrors_flat h (Build.maintains_unary hl opcode hx.1) (Build.maintains_unary hr opcode hy.1)
      (Build.makes_unary _ _).plain (Build.makes_unary _ _).plain (Build.gives_unary hx hz) (Build.gives_unary hy hz)
  | binary opcode _ _ b b' hb a a' hv =>
    obtain ⟨y, hy, hy'⟩ := hb.word
    obtain ⟨x, hx, hx'⟩ := hv.word
    obtain ⟨z, hz⟩ := ha x y
    exact mirrors_flat h (Build.maintains_binary hl opcode hx.1 hy.1) (Build.maintains_binary hr opcode hx'.1 hy'.1)
      (Build.makes_binary _ _ _).plain (Build.makes_binary _ _ _).plain (Build.gives_binary hx hy hz) (Build.gives_binary hx' hy' hz)
  | shift opcode _ count v w hv =>
    obtain ⟨d, hd⟩ := ha
    exact mirrors_shiftValue h hd count hv
  | mask opcode _ word v w hv =>
    obtain ⟨x, hx, hy⟩ := hv.word
    obtain ⟨z, hz⟩ := ha x word
    exact mirrors_flat h (maintains_maskValue hl opcode hx.1 word) (maintains_maskValue hr opcode hy.1 word)
      (makes_maskValue _ _ _).plain (makes_maskValue _ _ _).plain (Session.gives_maskValue hl hx hz) (Session.gives_maskValue hr hy hz)
  | multiply _ _ factor v w hv =>
    obtain ⟨x, hx, hy⟩ := hv.word
    exact mirrors_flat h (maintains_withConstant hl _ hx.1 factor) (maintains_withConstant hr _ hy.1 factor)
      (makes_withConstant _ _ _).plain (makes_withConstant _ _ _).plain (Build.gives_withConstant hx (R.extends_apply rfl))
      (Build.gives_withConstant hy (R.extends_apply rfl))
  | scaledSum _ _ _ scale b b' hb i i' hi =>
    obtain ⟨x, hx, hy⟩ := hb.word
    obtain ⟨x', hx', hy'⟩ := hi.word
    exact mirrors_flat h (maintains_scaledSum hl hx.1 hx'.1 scale) (maintains_scaledSum hr hy.1 hy'.1 scale)
      (Combination.scaledSum _ _ _).makes.plain (Combination.scaledSum _ _ _).makes.plain (Session.gives_scaledSum hx hx' scale)
      (Session.gives_scaledSum hy hy' scale)
  | first a v w hv vs ws _ hfirst hfirst' =>
    rw [hfirst, hfirst']
    exact mirrors_pure h hv
  | none a hnone =>
    rw [hnone]
    exact mirrors_throw _ _

def TwinWrites (R : Rules) (σ τ : Assignment) (t u : Table) (p q : Place × ValueId) : Prop :=
  p.1 = q.1 ∧ p.1.Short ∧ Twins R σ τ t u p.2 q.2

theorem extending_resolve (insn : Instruction) (o : Operand) : (resolve insn o).Extending :=
  extending_get fun _ => extending_check _

theorem mirrors_resolve (h : Mirror R σ τ s t) (insn : Instruction) (o : Operand) :
    Mirrors R M σ τ s t (resolve insn o) (resolve insn o) fun _ _ p q => p = q ∧ p.Short := by
  refine mirrors_get fun p q s' t' hs ht hσ hτ => ?_
  obtain ⟨h', g, g', hpq, hp⟩ := mirrors_check h (h.shape.destination insn o) p q s' t' hs ht hσ hτ
  exact ⟨h', g, g', hpq, Session.short_of_destination hp⟩

theorem mirrors_prepare (hR : R.Total) (h : Mirror R σ τ s t) (insn : Instruction) :
    Mirrors R M σ τ s t (prepare insn (.ofInstruction insn)) (prepare insn (.ofInstruction insn)) fun t' u' =>
      List.Forall₂ (TwinWrites R σ τ t' u') := by
  have hmodelled : (Action.ofInstruction insn).Modelled R :=
    Action.modelled_ofInstruction fun opcode _ _ args _ => hR opcode args
  generalize Action.ofInstruction insn = a at hmodelled
  cases a using Action.plan_cases with
  | nothing => exact mirrors_pure h .nil
  | exchange x y =>
    have reading (p q : Place) (v : ValueId) : (do
        let w ← read insn y
        pure [(p, w), (q, v)] : Replay _).Extending := (extending_read insn y).bind fun _ => extending_pure _
    have resolved (p q : Place) : (do
        let v ← read insn x
        let w ← read insn y
        pure [(p, w), (q, v)] : Replay _).Extending := (extending_read insn x).bind fun _ => reading p q _
    have started (p : Place) : (do
        let q ← resolve insn y
        let v ← read insn x
        let w ← read insn y
        pure [(p, w), (q, v)] : Replay _).Extending := (extending_resolve insn y).bind fun _ => resolved p _
    refine (mirrors_resolve h insn x).bind h (extending_resolve insn x) (extending_resolve insn x) started started
      fun p p' s₁ t₁ h₁ _ _ hp => ?_
    refine (mirrors_resolve h₁ insn y).bind h₁ (extending_resolve insn y)
      (extending_resolve insn y) (resolved p) (resolved p') fun q q' s₂ t₂ h₂ _ _ hq => ?_
    refine (mirrors_read h₂ insn x).bind h₂ (extending_read insn x)
      (extending_read insn x) (reading p q) (reading p' q') fun v v' s₃ t₃ h₃ _ _ hv => ?_
    refine (mirrors_read h₃ insn y).bind h₃ (extending_read insn y)
      (extending_read insn y) (fun _ => extending_pure _) (fun _ => extending_pure _) fun w w' s₄ t₄ h₄ g g' hw => ?_
    exact mirrors_pure h₄ (.cons ⟨hp.1, hp.2, hw⟩ (.cons ⟨hq.1, hq.2, hv.grow g g'⟩ .nil))
  | planned a hn hx =>
    rw [prepare_eq insn hn hx]
    have combining (p : Place) (vs : List ValueId) : (do
        let v ← combine a vs
        pure [(p, v)] : Replay _).Extending := (extending_combine a vs).bind fun _ => extending_pure _
    have reading (p : Place) : (do
        let vs ← readSources insn (a.sources insn)
        let v ← combine a vs
        pure [(p, v)] : Replay _).Extending := (extending_readSources insn _).bind fun _ => combining p _
    refine mirrors_get ?_
    refine (mirrors_check h (h.shape.locate insn a)).bind h (extending_check _) (extending_check _) reading reading
      fun p p' s₁ t₁ h₁ _ _ hp => ?_
    refine (mirrors_readSources h₁ insn fun _ _ => Action.slot_short).bind h₁
      (extending_readSources insn _) (extending_readSources insn _) (combining p) (combining p')
      fun vs ws s₂ t₂ h₂ _ _ hvws => ?_
    refine (mirrors_combine h₂ hmodelled hvws).bind h₂
      (extending_combine a vs) (extending_combine a ws) (fun _ => extending_pure _) (fun _ => extending_pure _)
      fun v w s₃ t₃ h₃ _ _ hvw => ?_
    exact mirrors_pure h₃ (.cons ⟨hp.1, Session.short_of_locate hp.2, hvw⟩ .nil)

end Replay

/-! ## Writing -/

namespace BitRange

variable {r : BitRange} {w v : Word}

/-- A number that fits is read back. -/
theorem field_replace (hr : r.InWord) (h : v.toNat < 2 ^ r.width) : r.field (r.replace w v) = v := by
  have hle := hr.1
  have hlt := hr.2
  rw [toNat_lt_two_pow_iff] at h
  refine BitVec.eq_of_getLsbD_eq fun k _ => ?_
  rw [getLsbD_field hr]
  by_cases hk : k < r.width
  · have hcov : r.covers (r.low + k) = true := by
      rw [covers_iff]
      unfold width at hk
      omega
    rw [getLsbD_replace hr _ _ (by unfold width at hk; omega), hcov, Nat.add_sub_cancel_left]
    simp [hk]
  · simp [hk, h k (by omega)]

end BitRange

namespace RegisterView

variable {t t' : Table} {owner value id : Nat} {w v : Word} {view : RegisterView}

/-- A number that fits the view replaces its bits, whichever way it is put in. -/
theorem MergeStep.means (h : MergeStep R σ t owner value w v view id t') (hv : t.Means R σ value v)
    (hfit : v.toNat < 2 ^ view.span.width) : t'.Means R σ id (view.span.replace w v) := by
  cases h with
  | whole hspan =>
    rw [hspan, BitRange.replace_word]
    exact hv
  | masked _ _ _ hmeans _ =>
    rw [← BitRange.merge_eq_replace view.span_inWord hfit]
    exact hmeans
  | split _ _ _ _ _ hmeans _ => exact hmeans

/-- A register into which a number of the right width is put shows it, split or not. -/
theorem MergeStep.shows (h : MergeStep R σ t owner value w v view id t') (hpart : view.span ≠ .word)
    (hv : t.Means R σ value v) (ht' : t'.WellFormed) (hreg' : t'.Regular) (hfit : v.toNat < 2 ^ view.span.width) :
    t'.Means R σ id (view.span.replace w v) ∧
      ∀ range, t'.Shows R σ id range (range.field (view.span.replace w v)) := by
  have hmeans := h.means hv hfit
  refine ⟨hmeans, ?_⟩
  cases h with
  | whole hspan => exact absurd hspan hpart
  | masked _ g _ _ hflat => exact Table.shows_of_not_hybrid hflat hmeans
  | split _ g _ hpiece hknown _ _ =>
    intro range
    by_cases hrange : range = view.span
    · rw [hrange, BitRange.field_replace view.span_inWord hfit]
      exact (Table.shows_piece hpiece).mpr (hv.grow g)
    · refine ht'.shows_known hreg' hmeans fun piece hp => ?_
      exact Option.isSome_of_mem (hknown range piece hp hrange)

end RegisterView

namespace Session

variable {M : AddressRange → Word} {s t s' t' : Session} {v w : ValueId}

def Views (R : Rules) (σ : Assignment) (s : Session) (view : RegisterView) (x : Word) : Prop :=
  ∃ b, s.registers.read view = .ok b ∧ (b s.table).2.Means R σ (b s.table).1 x

/-- All parts of registers are read alike in both sessions, and common cells hold the same word. -/
structure Alike (R : Rules) (σ τ : Assignment) (s t : Session) : Prop where
  views : ∀ view, ∃ x, s.Views R σ view x ∧ t.Views R τ view x
  cells : ∀ range v w, (range, v) ∈ s.memory.cells.entries → (range, w) ∈ t.memory.cells.entries →
    ∃ x, s.table.Means R σ v x ∧ t.table.Means R τ w x

theorem views_iff {view : RegisterView} {owner : ValueId} (ho : s.registers.get? view.owner = some owner) {x : Word} :
    s.Views R σ view x ↔ (view.extract owner s.table).2.Means R σ (view.extract owner s.table).1 x := by
  have hread := RegisterFile.read_eq_ok ho
  constructor
  · rintro ⟨b, hb, hx⟩
    cases hread.symm.trans hb
    exact hx
  · exact fun hx => ⟨_, hread, hx⟩

/-- A part of a register is read as its owner shows it. -/
theorem views_of_shows {view : RegisterView} {owner : ValueId} (ho : s.registers.get? view.owner = some owner)
    (hpart : view.span ≠ .word) {x : Word} (hx : s.table.Shows R σ owner view.span x) : s.Views R σ view x :=
  (views_iff ho).mpr (view.gives_extract_shown hpart hx).post

theorem Views.unique {view : RegisterView} {x y : Word} (hx : s.Views R σ view x) (hy : s.Views R σ view y) : x = y := by
  obtain ⟨b, hb, hx⟩ := hx
  obtain ⟨c, hc, hy⟩ := hy
  cases hb.symm.trans hc
  exact hx.unique hy

theorem Mirror.alike (h : Mirror R σ τ s t) : Alike R σ τ s t := by
  refine ⟨fun view => ?_, fun range v w hv hw => (h.cells range v w hv hw).word⟩
  obtain ⟨v, w, hv, hw, htwins⟩ := h.registers view.owner
  by_cases hpart : view.span = .word
  · obtain ⟨x, hx, hy⟩ := htwins.word
    cases view with
    | full r => exact ⟨x, (views_iff hv).mpr hx, (views_iff hw).mpr hy⟩
    | low16 r | low8 r | high8 r => cases hpart
  · obtain ⟨x, hx, hy⟩ := htwins.shown h.shape.left.wellFormed h.left h.shape.right.wellFormed h.right
      view.span_inWord view.eight_le_width
    exact ⟨x, views_of_shows hv hpart hx, views_of_shows hw hpart hy⟩

/-- Both sessions put twins into the same register. -/
theorem Mirror.set (h : Mirror R σ τ s t) (hc : Continues 0 s t s' t') (hl : s'.table.Regular) (hr : t'.table.Regular)
    (hmem : s'.memory = s.memory ∧ t'.memory = t.memory) {r : Register}
    (hs : s'.registers = s.registers.set r v) (ht : t'.registers = t.registers.set r w)
    (hvw : Twins R σ τ s'.table t'.table v w) : Mirror R σ τ s' t' := by
  refine ⟨hc.shape, hl, hr, fun r' => ?_, fun range a b ha hb => ?_⟩
  · obtain ⟨a, b, ha, hb, htwins⟩ := h.registers r'
    rw [hs, ht, get?_set, get?_set]
    split
    · exact ⟨v, w, rfl, rfl, hvw⟩
    · exact ⟨a, b, ha, hb, htwins.grow hc.left hc.right⟩
  · rw [hmem.1] at ha
    rw [hmem.2] at hb
    exact (h.cells range a b ha hb).grow hc.left hc.right

end Session

/-- Two replays are about to write a value each at the same place. -/
structure Moment where
  left : Session
  right : Session
  place : Place
  value : ValueId
  other : ValueId

namespace Moment

/-- If the value becomes a piece of the register in one session only, its word fits the place. -/
def SplitFits (R : Rules) (σ : Assignment) (m : Moment) : Prop :=
  match m.place with
  | .register view => ∀ a b, m.left.registers.get? view.owner = some a → m.right.registers.get? view.owner = some b →
      m.left.table.splits a m.value view ≠ m.right.table.splits b m.other view →
      ∀ x, m.left.table.Means R σ m.value x → x.toNat < 2 ^ view.bits
  | .memory _ _ => True

def splitFits? (R : Rules) (σ : Assignment) (m : Moment) : Bool :=
  match m.place with
  | .register view =>
    match m.left.registers.get? view.owner, m.right.registers.get? view.owner with
    | some a, some b =>
      m.left.table.splits a m.value view == m.right.table.splits b m.other view || m.left.table.size ≤ m.value ||
        match m.left.table.evalWith R σ m.value with
        | .ok x => x.toNat < 2 ^ view.bits
        | .error _ => true
    | _, _ => true
  | .memory _ _ => true

theorem splitFits?_iff {m : Moment} : m.splitFits? R σ = true ↔ m.SplitFits R σ := by
  unfold splitFits? SplitFits
  split
  · rename_i view _
    split
    · rename_i a b ha hb
      simp only [ha, hb, Bool.or_eq_true, beq_iff_eq, decide_eq_true_eq, Option.some.injEq, or_assoc]
      constructor
      · rintro (hsame | hsize | hfit) _ _ rfl rfl hne x hx
        · exact absurd hsame hne
        · exact absurd hx.1 (Nat.not_lt.mpr hsize)
        · rw [hx.2] at hfit
          simpa using hfit
      · intro h
        by_cases hsame : m.left.table.splits a m.value view = m.right.table.splits b m.other view
        · exact .inl hsame
        · refine .inr ?_
          by_cases hsize : m.left.table.size ≤ m.value
          · exact .inl hsize
          · refine .inr ?_
            split
            · rename_i x hx
              simpa using h a b rfl rfl hsame x ⟨Nat.not_le.mp hsize, hx⟩
            · rfl
    · rename_i hnone
      exact ⟨fun _ a b ha hb => absurd hb (hnone a b ha), fun _ => rfl⟩
  · exact ⟨fun _ => trivial, fun _ => rfl⟩

instance (R : Rules) (σ : Assignment) (m : Moment) : Decidable (m.SplitFits R σ) :=
  decidable_of_iff (m.splitFits? R σ = true) splitFits?_iff

def AlikeAfter (R : Rules) (σ τ : Assignment) (m : Moment) : Prop :=
  Session.Alike R σ τ ((Replay.write m.value m.place).after m.left) ((Replay.write m.other m.place).after m.right)

end Moment

namespace Session

variable {M : AddressRange → Word} {s t s' t' : Session} {v w : ValueId}

/-- What a part of a register shows after a write, if just one of the sessions has split it. -/
theorem lt_of_split_differs {view : RegisterView} (hpart : view.span ≠ .word) {a b id id' : ValueId} {x y y' : Word}
    (hs : s'.registers.get? view.owner = some id) (ht : t'.registers.get? view.owner = some id')
    (hl : view.MergeStep R σ s.table a v y x id s'.table) (hr : view.MergeStep R τ t.table b w y' x id' t'.table)
    (hx : s.table.Means R σ v x) (hne : s.table.splits a v view = true) (hne' : t.table.splits b w view = false)
    {z : Word} (hz : s'.Views R σ view z) (hz' : t'.Views R τ view z) : x.toNat < 2 ^ view.bits := by
  obtain ⟨_, table, _, _, _⟩ := s'
  obtain ⟨_, table', _, _, _⟩ := t'
  cases hl with
  | whole hspan => exact absurd hspan hpart
  | masked hfalse => cases hne.symm.trans hfalse
  | split _ g _ hpiece _ _ _ =>
    have hsplit := views_of_shows hs hpart ((Table.shows_piece hpiece).mpr (hx.grow g))
    cases hr with
    | whole hspan => exact absurd hspan hpart
    | split htrue => cases hne'.symm.trans htrue
    | masked _ g' _ hmeans hflat =>
      have hmask := views_of_shows ht hpart (Table.shows_of_not_hybrid hflat hmeans view.span)
      rw [hsplit.unique hz, hz'.unique hmask]
      exact BitRange.field_lt view.span_inWord _

/-- Twins that are written to a register leave twins there, if a word that only one session keeps
    apart fits. -/
theorem twins_merge {view : RegisterView} {a b id id' : ValueId} {T U T' U' : Table} {x y : Word}
    (hpart : view.span ≠ .word) (hl : view.MergeStep R σ T a v y x id T') (hr : view.MergeStep R τ U b w y x id' U')
    (hx : T.Means R σ v x) (hx' : U.Means R τ w x) (hT : T'.WellFormed) (hTr : T'.Regular) (hU : U'.WellFormed)
    (hUr : U'.Regular) (hfit : T.splits a v view ≠ U.splits b w view → x.toNat < 2 ^ view.bits) :
    Twins R σ τ T' U' id id' := by
  by_cases hlt : x.toNat < 2 ^ view.bits
  · obtain ⟨hmeans, hshows⟩ := hl.shows hpart hx hT hTr hlt
    obtain ⟨hmeans', hshows'⟩ := hr.shows hpart hx' hU hUr hlt
    exact ⟨⟨_, hmeans, hmeans'⟩, fun range _ _ => ⟨_, hshows range, hshows' range⟩⟩
  · have hsame : T.splits a v view = U.splits b w view := by
      by_contra hne
      exact hlt (hfit hne)
    cases hl with
    | whole hspan => exact absurd hspan hpart
    | masked hs _ _ hmeans hflat =>
      cases hr with
      | whole hspan => exact absurd hspan hpart
      | masked _ _ _ hmeans' hflat' => exact .of_flat hmeans hmeans' hflat hflat'
      | split hs' => rw [hs, hs'] at hsame; cases hsame
    | split hs g _ hpiece hknown hmeans _ =>
      cases hr with
      | whole hspan => exact absurd hspan hpart
      | masked hs' => rw [hs, hs'] at hsame; cases hsame
      | split _ g' _ hpiece' hknown' hmeans' _ =>
        refine ⟨⟨_, hmeans, hmeans'⟩, fun range _ _ => ?_⟩
        by_cases hrange : range = view.span
        · rw [hrange]
          exact ⟨x, (Table.shows_piece hpiece).mpr (hx.grow g), (Table.shows_piece hpiece').mpr (hx'.grow g')⟩
        · refine ⟨_, hT.shows_known hTr hmeans fun p hp => ?_, hU.shows_known hUr hmeans' fun p hp => ?_⟩
          · exact Option.isSome_of_mem (hknown range p hp hrange)
          · exact Option.isSome_of_mem (hknown' range p hp hrange)

theorem Mirror.writeRegister (h : Mirror R σ τ s t) {view : RegisterView} (hvw : Twins R σ τ s.table t.table v w)
    (hs : Replay.writeRegister view v s = .ok () s') (ht : Replay.writeRegister view w t = .ok () t') :
    (Moment.SplitFits R σ ⟨s, t, .register view, v, w⟩ → Mirror R σ τ s' t') ∧
      (Alike R σ τ s' t' → Moment.SplitFits R σ ⟨s, t, .register view, v, w⟩) := by
  obtain ⟨hcont, -⟩ := (Replay.lockstep_writeRegister h.shape view hvw.inside).of_ok hs ht
  obtain ⟨a, b, ha, hb, htwins⟩ := h.registers view.owner
  have hl := h.shape.left.wellFormed
  have hr := h.shape.right.wellFormed
  have heq := Replay.writeRegister_ok ha hs
  have heq' := Replay.writeRegister_ok hb ht
  have hregular : s'.table.Regular := by
    rw [heq]
    exact view.regular_merge hl h.left hvw.inside.1 a
  have hregular' : t'.table.Regular := by
    rw [heq']
    exact view.regular_merge hr h.right hvw.inside.2 b
  obtain ⟨y, hy, hy'⟩ := htwins.word
  obtain ⟨x, hx, hx'⟩ := hvw.word
  by_cases hpart : view.span = .word
  · -- a whole register takes the value itself, so no split can differ
    cases view with
    | full r =>
      refine ⟨fun _ => ?_, fun _ a b _ _ hne => absurd rfl hne⟩
      cases hs
      cases ht
      exact h.set hcont h.left h.right ⟨rfl, rfl⟩ rfl rfl hvw
    | low16 r | low8 r | high8 r => cases hpart
  have hstep := view.merge_step hl hy hx
  have hstep' := view.merge_step hr hy' hx'
  have hT : s'.table = (view.merge a v s.table).2 := by rw [heq]
  have hU : t'.table = (view.merge b w t.table).2 := by rw [heq']
  have hregs : s'.registers = s.registers.set view.owner (view.merge a v s.table).1 := by rw [heq]
  have hregs' : t'.registers = t.registers.set view.owner (view.merge b w t.table).1 := by rw [heq']
  rw [← hT] at hstep
  rw [← hU] at hstep'
  constructor
  · intro hfits
    refine h.set hcont hregular hregular' ⟨by rw [heq], by rw [heq']⟩ hregs hregs' ?_
    exact twins_merge hpart hstep hstep' hx hx' hcont.shape.left.wellFormed hregular hcont.shape.right.wellFormed
      hregular' fun hne => hfits a b ha hb hne x hx
  · intro halike a' b' ha' hb' hne x' hx₁
    cases ha.symm.trans ha'
    cases hb.symm.trans hb'
    obtain rfl := hx.unique hx₁
    -- one side shows the value and the other its field, and they show the same
    obtain ⟨z, hz, hz'⟩ := halike.views view
    have hget : s'.registers.get? view.owner = some (view.merge a v s.table).1 := by rw [hregs, get?_set, if_pos rfl]
    have hget' : t'.registers.get? view.owner = some (view.merge b w t.table).1 := by rw [hregs', get?_set, if_pos rfl]
    replace hne : s.table.splits a v view ≠ t.table.splits b w view := hne
    cases hsplit : s.table.splits a v view with
    | true =>
      have hother : t.table.splits b w view = false := by
        rw [hsplit] at hne
        simpa using hne.symm
      exact lt_of_split_differs hpart hget hget' hstep hstep' hx hsplit hother hz hz'
    | false =>
      have hother : t.table.splits b w view = true := by
        rw [hsplit] at hne
        simpa using hne.symm
      exact lt_of_split_differs hpart hget' hget hstep' hstep hx' hother hsplit hz' hz

theorem Mirror.write (h : Mirror R σ τ s t) {place : Place} (hshort : place.Short)
    (hvw : Twins R σ τ s.table t.table v w) (hs : Replay.write v place s = .ok () s')
    (ht : Replay.write w place t = .ok () t') :
    (Moment.SplitFits R σ ⟨s, t, place, v, w⟩ → Mirror R σ τ s' t') ∧
      (Alike R σ τ s' t' → Moment.SplitFits R σ ⟨s, t, place, v, w⟩) := by
  cases place with
  | register view => exact h.writeRegister hvw hs ht
  | memory address bytes =>
    refine ⟨fun _ => ?_, fun _ => trivial⟩
    obtain ⟨hcont, halike⟩ := (Replay.lockstep_writeMemory h.shape address hshort hvw.inside).of_ok hs ht
    cases halike with
    | whole hm hm' => exact h.store hcont h.left h.right ⟨rfl, rfl⟩ hm hm' hvw
    | @within cell a b lane m m' ha hb hlane hm hm' =>
      obtain ⟨y, hy, hy'⟩ := (h.cells cell a b ha hb).word
      obtain ⟨x, hx, hx'⟩ := hvw.word
      have gives : (Memory.writeLane a v lane).Gives R σ s.table _ := Build.gives_merge hy hx hlane
      have gives' : (Memory.writeLane b w lane).Gives R τ t.table _ := Build.gives_merge hy' hx' hlane
      have flat (stored value : ValueId) := (Memory.makes_writeLane stored value lane).plain
      exact h.store hcont ((flat a v).adds.regular h.shape.left.wellFormed h.left)
        ((flat b w).adds.regular h.shape.right.wellFormed h.right) ⟨rfl, rfl⟩ hm hm'
        (.of_flat gives.post gives'.post ((flat a v).isHybrid _) ((flat b w).isHybrid _))

/-! ## Whole runs -/

def writing (s t : Session) : List (Place × ValueId) → List (Place × ValueId) → List Moment
  | (place, v) :: ps, (_, w) :: qs =>
    ⟨s, t, place, v, w⟩ :: writing ((Replay.write v place).after s) ((Replay.write w place).after t) ps qs
  | _, _ => []

def stepping (s t : Session) (insn : Instruction) : List Moment :=
  if s.skip.contains insn.mnemonic then []
  else match Replay.prepare insn (.ofInstruction insn) s, Replay.prepare insn (.ofInstruction insn) t with
    | .ok ps s', .ok qs t' => writing s' t' ps qs
    | _, _ => []

def moments (s t : Session) : List Instruction → List Moment
  | [] => []
  | insn :: rest =>
    stepping s t insn ++ moments ((Replay.step insn).after s) ((Replay.step insn).after t) rest

theorem Mirror.commit (h : Mirror R σ τ s t) {ps qs : List (Place × ValueId)}
    (hpq : List.Forall₂ (Replay.TwinWrites R σ τ s.table t.table) ps qs)
    (hs : Replay.commit ps s = .ok () s') (ht : Replay.commit qs t = .ok () t') :
    ((∀ m ∈ writing s t ps qs, m.AlikeAfter R σ τ) ↔ ∀ m ∈ writing s t ps qs, m.SplitFits R σ) ∧
      ((∀ m ∈ writing s t ps qs, m.SplitFits R σ) → Mirror R σ τ s' t') := by
  induction ps generalizing qs s t with
  | nil =>
    cases hpq
    cases hs
    cases ht
    exact ⟨by simp [writing], fun _ => h⟩
  | cons p ps ih =>
    obtain ⟨place, v⟩ := p
    cases hpq with
    | @cons _ q _ qs hpq hrest =>
      obtain ⟨_, w⟩ := q
      obtain ⟨rfl, hshort, hvw⟩ := hpq
      obtain ⟨_, s₁, hwrite, hcommit⟩ := Replay.bind_ok hs
      obtain ⟨_, t₁, hwrite', hcommit'⟩ := Replay.bind_ok ht
      obtain ⟨hfits, halike⟩ := h.write hshort hvw hwrite hwrite'
      obtain ⟨hcont, -⟩ := (Replay.lockstep_write h.shape hshort hvw.inside).of_ok hwrite hwrite'
      have hrest' : List.Forall₂ (Replay.TwinWrites R σ τ s₁.table t₁.table) ps qs :=
        hrest.imp fun p q hpq => ⟨hpq.1, hpq.2.1, hpq.2.2.grow hcont.left hcont.right⟩
      have hafter : Moment.AlikeAfter R σ τ ⟨s, t, place, v, w⟩ ↔ Alike R σ τ s₁ t₁ := by
        simp only [Moment.AlikeAfter, Replay.after_ok hwrite, Replay.after_ok hwrite']
      have hfirst : Moment.AlikeAfter R σ τ ⟨s, t, place, v, w⟩ ↔ Moment.SplitFits R σ ⟨s, t, place, v, w⟩ :=
        hafter.trans ⟨halike, fun hfit => (hfits hfit).alike⟩
      simp only [writing, Replay.after_ok hwrite, Replay.after_ok hwrite', List.forall_mem_cons]
      refine ⟨?_, fun hall => (ih (hfits hall.1) hrest' hcommit hcommit').2 hall.2⟩
      rw [hfirst]
      exact and_congr_right fun hfit => (ih (hfits hfit) hrest' hcommit hcommit').1

theorem Mirror.count (h : Mirror R σ τ s t) :
    Mirror R σ τ { s with executed := s.executed + 1 } { t with executed := t.executed + 1 } := by
  obtain ⟨⟨hl, hr, hskip, hheld, hcells, hinputs, hexecuted⟩, hregular, hregular', hregs, hwords⟩ := h
  refine ⟨⟨hl.count _, hr.count _, hskip, hheld, hcells, hinputs, ?_⟩, hregular, hregular', hregs, hwords⟩
  show ((s.executed + 1 : Nat) : Int) = ((t.executed + 1 : Nat) : Int) + 0
  omega

theorem Mirror.step (hR : R.Total) (h : Mirror R σ τ s t) {insn : Instruction} (hσ : s'.Supplies M σ)
    (hτ : t'.Supplies M τ) (hs : Replay.step insn s = .ok () s') (ht : Replay.step insn t = .ok () t') :
    ((∀ m ∈ stepping s t insn, m.AlikeAfter R σ τ) ↔ ∀ m ∈ stepping s t insn, m.SplitFits R σ) ∧
      ((∀ m ∈ stepping s t insn, m.SplitFits R σ) → Mirror R σ τ s' t') := by
  unfold stepping
  cases hskip : s.skip.contains insn.mnemonic with
  | true =>
    refine ⟨by simp, fun _ => ?_⟩
    have hsame : s' = s := by
      replace hs := Replay.get_bind_ok hs
      rw [if_pos hskip] at hs
      cases hs
      rfl
    have hsame' : t' = t := by
      replace ht := Replay.get_bind_ok ht
      rw [if_pos (h.shape.skip ▸ hskip)] at ht
      cases ht
      rfl
    rw [hsame, hsame']
    exact h
  | false =>
    obtain ⟨ps, s₁, s₂, hprepare, hcommit, rfl⟩ := step_ok hskip hs
    obtain ⟨qs, t₁, t₂, hprepare', hcommit', rfl⟩ := step_ok (h.shape.skip ▸ hskip) ht
    rw [if_neg Bool.false_ne_true, hprepare, hprepare']
    obtain ⟨hcont, -⟩ := (Replay.lockstep_prepare h.shape insn).of_ok hprepare hprepare'
    have hext := Replay.extending_commit ps s₁ () s₂ hcont.shape.left.toTidy hcommit
    have hext' := Replay.extending_commit qs t₁ () t₂ hcont.shape.right.toTidy hcommit'
    have hσ₂ : s₂.Supplies M σ := hσ
    have hτ₂ : t₂.Supplies M τ := hτ
    obtain ⟨hmirror, -, -, htwins⟩ := Replay.mirrors_prepare hR h insn ps qs s₁ t₁ hprepare hprepare'
      (hσ₂.of_extends hext) (hτ₂.of_extends hext')
    obtain ⟨hiff, hafter⟩ := hmirror.commit htwins hcommit hcommit'
    exact ⟨hiff, fun hfits => (hafter hfits).count⟩

theorem Mirror.run (hR : R.Total) (h : Mirror R σ τ s t) {trace : List Instruction} (hσ : s'.Supplies M σ)
    (hτ : t'.Supplies M τ) (hs : Replay.run trace s = .ok () s') (ht : Replay.run trace t = .ok () t') :
    ((∀ m ∈ moments s t trace, m.AlikeAfter R σ τ) ↔ ∀ m ∈ moments s t trace, m.SplitFits R σ) ∧
      ((∀ m ∈ moments s t trace, m.SplitFits R σ) → Mirror R σ τ s' t') := by
  induction trace generalizing s t with
  | nil =>
    cases hs
    cases ht
    exact ⟨by simp [moments], fun _ => h⟩
  | cons insn rest ih =>
    obtain ⟨s₁, hstep, hrest⟩ := Replay.run_cons_ok.mp hs
    obtain ⟨t₁, hstep', hrest'⟩ := Replay.run_cons_ok.mp ht
    obtain ⟨hcont, -⟩ := (Replay.lockstep_step h.shape insn).of_ok hstep hstep'
    have hext := Replay.extending_run rest s₁ () s' hcont.shape.left.toTidy hrest
    have hext' := Replay.extending_run rest t₁ () t' hcont.shape.right.toTidy hrest'
    obtain ⟨hiff, hafter⟩ := h.step hR (hσ.of_extends hext) (hτ.of_extends hext') hstep hstep'
    simp only [moments, Replay.after_ok hstep, Replay.after_ok hstep', List.forall_mem_append]
    refine ⟨?_, fun hfits => (ih (hafter hfits.1) hrest hrest').2 hfits.2⟩
    rw [hiff]
    exact and_congr_right fun hfits => (ih (hafter hfits) hrest hrest').1

/-! ## From symbols and from known words -/

theorem isHybrid_of_no_pieces {T : Table} (h : ∀ v ∈ T.values.toList, v.pieces? = none) (id : ValueId) :
    T.isHybrid id = false := by
  rw [Table.isHybrid, Table.pieces?]
  cases hv : T.get? id with
  | none => rfl
  | some v =>
    rw [Option.bind_some, h v (Array.mem_toList_iff.mpr (Array.mem_of_getElem? hv))]
    rfl

theorem regular_of_not_hybrid {T : Table} (h : ∀ id, T.isHybrid id = false) : T.Regular := by
  intro id pieces hp
  have hnone := h id
  rw [Table.isHybrid, hp] at hnone
  cases hnone

theorem isHybrid_seeded (skip : SkipSet) (id : ValueId) : (seeded skip).table.isHybrid id = false := by
  have hvalues : (seeded skip).table.values.toList = List.replicate 8 ⟨32, .symbol, true, none⟩ := rfl
  refine isHybrid_of_no_pieces (fun v hv => ?_) id
  rw [hvalues] at hv
  rw [List.eq_of_mem_replicate hv]
  rfl

/-- Known words, one for each register. -/
theorem values_ofSnapshot (skip : SkipSet) (words : Snapshot) :
    (ofSnapshot skip words).table.values.toList = Register.all.map fun r =>
      ⟨32, .constant ⟨words.content r, .lowBits 32⟩, false, some (Bits.value ⟨words.content r, .lowBits 32⟩)⟩ := rfl

theorem isHybrid_ofSnapshot (skip : SkipSet) (words : Snapshot) (id : ValueId) :
    (ofSnapshot skip words).table.isHybrid id = false := by
  refine isHybrid_of_no_pieces (fun v hv => ?_) id
  rw [values_ofSnapshot] at hv
  obtain ⟨r, -, rfl⟩ := List.mem_map.mp hv
  rfl

theorem held_ofSnapshot (skip : SkipSet) (words : Snapshot) (r : Register) :
    ∃ id, (ofSnapshot skip words).registers.get? r = some id ∧
      (ofSnapshot skip words).table.Means R τ id (words.content r) := by
  have hslots : (ofSnapshot skip words).registers.slots =
      #v[some 0, some 1, some 2, some 3, some 4, some 5, some 6, some 7] := rfl
  have hall : Register.all[(r.index : Nat)]? = some r := by cases r <;> rfl
  have hvalue : (ofSnapshot skip words).table.get? r.index = some ⟨32, .constant ⟨words.content r, .lowBits 32⟩, false,
      some (Bits.value ⟨words.content r, .lowBits 32⟩)⟩ := by
    rw [Table.get?, ← Array.getElem?_toList, values_ofSnapshot, List.getElem?_map, hall]
    rfl
  refine ⟨r.index, ?_, ?_⟩
  · rw [RegisterFile.get?, hslots]
    cases r <;> rfl
  · have hmeans : (ofSnapshot skip words).table.Means R τ r.index _ := Table.means_constant hvalue rfl
    rwa [Bits.value_word] at hmeans

theorem entry_ofSnapshot (skip : SkipSet) (words : Snapshot) : (ofSnapshot skip words).Entry := by
  refine ⟨fun id v hv => ?_, rfl, fun r => ?_⟩
  · have hin : v ∈ (ofSnapshot skip words).table.values.toList :=
      Array.mem_toList_iff.mpr (Array.mem_of_getElem? hv)
    rw [values_ofSnapshot] at hin
    obtain ⟨r, -, rfl⟩ := List.mem_map.mp hin
    exact ⟨rfl, rfl⟩
  · obtain ⟨id, hid, hmeans⟩ := held_ofSnapshot (R := .standard) (τ := fun _ => 0) skip words r
    exact ⟨id, hid, hmeans.1⟩

theorem mirror_entry (skip : SkipSet) (words : Snapshot)
    (hσ : ∀ e ∈ (seeded skip).registers.inputs.entries, σ e.1 = words.content e.2) :
    Mirror R σ τ (seeded skip) (ofSnapshot skip words) := by
  have hseeds := seeds_seeded R σ skip
  have hshape : SameShape 0 (seeded skip) (ofSnapshot skip words) :=
    (entry_seeded skip).sameShape (entry_ofSnapshot skip words) rfl
  refine ⟨hshape, regular_of_not_hybrid (isHybrid_seeded skip), regular_of_not_hybrid (isHybrid_ofSnapshot skip words),
    fun r => ?_, fun range v w hv => ?_⟩
  · obtain ⟨id, hid, hin, hmeans⟩ := hseeds.held r (by cases r <;> decide)
    obtain ⟨id', hid', hmeans'⟩ := held_ofSnapshot (R := R) (τ := τ) skip words r
    rw [hσ _ hin] at hmeans
    exact ⟨id, id', hid, hid', .of_flat hmeans hmeans' (isHybrid_seeded skip id) (isHybrid_ofSnapshot skip words id')⟩
  · rw [hseeds.memory] at hv
    cases hv

/-- A trace is run from symbols and from known words. With the symbols bound to these words, and
    the bytes read from memory to the words that are chosen for them, the sessions are alike after
    every write exactly if each word that only one of them keeps apart in a register fits there.
    Then every register ends with the same word, if its values in both sessions have one. -/
theorem a_run_commutes_with_binding_while_splits_fit (R : Rules) (hR : R.Total) (skip : SkipSet) (words : Snapshot)
    (M : AddressRange → Word) (σ τ : Assignment) (trace : List Instruction) (s t : Session)
    (hs : Replay.run trace (seeded skip) = .ok () s) (ht : Replay.run trace (ofSnapshot skip words) = .ok () t)
    (hentry : ∀ e ∈ s.registers.inputs.entries, σ e.1 = words.content e.2)
    (hσ : s.Supplies M σ) (hτ : t.Supplies M τ) :
    ((∀ m ∈ moments (seeded skip) (ofSnapshot skip words) trace, m.AlikeAfter R σ τ) ↔
      ∀ m ∈ moments (seeded skip) (ofSnapshot skip words) trace, m.SplitFits R σ) ∧
    ((∀ m ∈ moments (seeded skip) (ofSnapshot skip words) trace, m.SplitFits R σ) →
      ∀ r v w x y, s.registers.get? r = some v → t.registers.get? r = some w →
        s.table.eval σ v = .ok x → t.table.eval τ w = .ok y → x = y) := by
  have hext := Replay.extending_run trace (seeded skip) () s (tidy_seeded skip) hs
  rw [hext.registerInputs] at hentry
  obtain ⟨hiff, hmirror⟩ := (mirror_entry (R := R) (τ := τ) skip words hentry).run hR hσ hτ hs ht
  refine ⟨hiff, fun hfits r v w x y hv hw hx hy => ?_⟩
  obtain ⟨v', w', hv', hw', htwins⟩ := (hmirror hfits).registers r
  cases hv.symm.trans hv'
  cases hw.symm.trans hw'
  obtain ⟨z, hz, hz'⟩ := htwins.word
  have hleft := Table.evalWith_of_eval R hx
  have hright := Table.evalWith_of_eval R hy
  rw [hz.2] at hleft
  rw [hz'.2] at hright
  exact (Except.ok.inj hleft).symm.trans (Except.ok.inj hright)

def addedByte : List Instruction := [
  { address := 0x1000, mnemonic := "add", operands := [.register "ah" 8, .memory { form := .base .ebx, bits := 8 }],
    readAddress := some 0x100 }]

def movedByte : List Instruction := [
  { address := 0x1000, mnemonic := "mov", operands := [.register "ah" 8, .memory { form := .base .ebx, bits := 8 }],
    readAddress := some 0x100 },
  { address := 0x1002, mnemonic := "shr", operands := [.register "eax" 32, .immediate 8] },
  { address := 0x1005, mnemonic := "xor", operands := [.register "cl" 8, .register "al" 8] }]

def boundWords : Snapshot := #v[0xff00, 0, 0, 0, 0, 0, 0, 0]

def boundSymbols : Assignment := fun id => if id = 0 then 0xff00 else if id < 8 then 0 else 1

/-- If the sum carries out of the byte, a known register drops the carry, and a symbolic one takes
    it in. A byte that is moved there fits, and both runs agree. -/
theorem a_carry_out_of_a_byte_depends_on_what_is_known :
    ((¬ ∀ m ∈ moments (seeded ⟨.empty⟩) (ofSnapshot ⟨.empty⟩ boundWords) addedByte,
        m.AlikeAfter .total boundSymbols fun _ => 1) ∧
      ∃ v w, ((Replay.run addedByte).after (seeded ⟨.empty⟩)).registers.get? .eax = some v ∧
        ((Replay.run addedByte).after (ofSnapshot ⟨.empty⟩ boundWords)).registers.get? .eax = some w ∧
        ((Replay.run addedByte).after (seeded ⟨.empty⟩)).table.eval boundSymbols v = .ok 0x10000 ∧
        ((Replay.run addedByte).after (ofSnapshot ⟨.empty⟩ boundWords)).table.eval (fun _ => 1) w = .ok 0) ∧
    ∀ r v w x y, ((Replay.run movedByte).after (seeded ⟨.empty⟩)).registers.get? r = some v →
      ((Replay.run movedByte).after (ofSnapshot ⟨.empty⟩ boundWords)).registers.get? r = some w →
      ((Replay.run movedByte).after (seeded ⟨.empty⟩)).table.eval boundSymbols v = .ok x →
      ((Replay.run movedByte).after (ofSnapshot ⟨.empty⟩ boundWords)).table.eval (fun _ => 1) w = .ok y → x = y := by
  have total : Rules.total.Total := fun opcode args => ⟨_, rfl⟩
  have commutes (trace : List Instruction)
      (hs : (Replay.run trace).fault? (seeded ⟨.empty⟩) = none)
      (ht : (Replay.run trace).fault? (ofSnapshot ⟨.empty⟩ boundWords) = none) :=
    a_run_commutes_with_binding_while_splits_fit .total total ⟨.empty⟩ boundWords (fun _ => 1) boundSymbols (fun _ => 1)
      trace _ _ (Replay.ok_after_of_fault? hs) (Replay.ok_after_of_fault? ht)
  have hadded := commutes addedByte (by decide +kernel) (by decide +kernel) (by decide +kernel)
    (show ∀ e ∈ _, _ by decide +kernel) fun _ _ => rfl
  have hmoved := commutes movedByte (by decide +kernel) (by decide +kernel) (by decide +kernel)
    (show ∀ e ∈ _, _ by decide +kernel) fun _ _ => rfl
  refine ⟨⟨?_, ?_⟩, hmoved.2 (by decide +kernel)⟩
  · rw [hadded.1]
    decide +kernel
  · refine ⟨18, 16, ?_, ?_, ?_, ?_⟩ <;> decide +kernel

end Session

end TraceReplay
