/-
  TraceReplay.Proofs.Replay.SplitBytes — a part of a register is read as a field of its word, up to
  the bytes that were split off.

  A part of a register is read as the piece of a hybrid word, if there is one at its range, and
  otherwise as the field of the word. A piece is given as it is, so the two agree in the bits of the
  range only. What is wider than a byte is always the field. A piece at a whole byte that is not
  known (`Table.IsByte`) was put there by a write that split a known word around it: reading, and
  combining what was read, make no new ones (`Replay.KeepsBytes`), since a shift of a hybrid word
  moves them as they are, and nothing but a split makes another (`isByte_write`).

  Proved, of every session after any history (`parts_are_fields_iff_split_bytes_fit`):
  - a part of a register whose word is known under an assignment can be read, and its number is the
    field of the word modulo the width; if the part is not a byte, it is the field;
  - all parts are the fields after every single write of the history exactly if every word that was
    split off fits its byte, and then they are the fields at its end.
-/

import TraceReplay.Proofs.Replay.Alignment

namespace TraceReplay

variable {R : Rules} {σ : Assignment}

/-! ## Bytes of hybrid words -/

namespace Table

variable {t t' : Table} {owner piece : ValueId} {range : BitRange} {w : Word}

/-- Not known, and the piece of a hybrid word at a whole byte. -/
def IsByte (t : Table) (piece : ValueId) : Prop :=
  ∃ id range, t.piece? id range = some piece ∧ range.width = 8 ∧ t.constant? piece = none

theorem WellFormed.lt_of_isByte (ht : t.WellFormed) (h : t.IsByte piece) : piece < t.size := by
  obtain ⟨id, range, hp, -, -⟩ := h
  exact RegisterView.piece?_lt ht hp

/-- A byte of a later table is one already, or a piece of a new word. -/
theorem WellFormed.isByte_or_new (ht : t.WellFormed) (g : t.Grows t') (h : t'.IsByte piece) :
    t.IsByte piece ∨ ∃ id range, t.size ≤ id ∧ t'.piece? id range = some piece ∧ range.width = 8 ∧
      t'.constant? piece = none := by
  obtain ⟨id, range, hp, h8, hc⟩ := h
  by_cases hid : id < t.size
  · rw [piece?, g.pieces? hid] at hp
    rw [g.constant? (RegisterView.piece?_lt ht hp)] at hc
    exact .inl ⟨id, range, hp, h8, hc⟩
  · exact .inr ⟨id, range, Nat.le_of_not_lt hid, hp, h8, hc⟩

theorem isHybrid_of_piece? (h : t.piece? owner range = some piece) : t.isHybrid owner = true := by
  obtain ⟨pieces, hp, -⟩ := piece?_eq_some_iff.mp h
  rw [isHybrid, hp]
  rfl

/-- Where no new word is hybrid, there is no new byte. -/
theorem WellFormed.isByte_of_plain (ht : t.WellFormed) (hnew : t.Adds Node.Plain t') (h : t'.IsByte piece) :
    t.IsByte piece := by
  obtain h | ⟨id, range, hid, hp, -, -⟩ := ht.isByte_or_new hnew.grows h
  · exact h
  · cases (hnew.isHybrid hid).symm.trans (isHybrid_of_piece? hp)

def BytesFit (σ : Assignment) (t : Table) : Prop :=
  ∀ piece x, t.IsByte piece → t.eval σ piece = .ok x → x.toNat < 2 ^ 8

/-- They still are if no byte is added. -/
theorem BytesFit.mono (h : t.BytesFit σ) (ht : t.WellFormed) (g : t.Grows t')
    (hkeeps : ∀ piece, t'.IsByte piece → t.IsByte piece) : t'.BytesFit σ := by
  intro piece x hbyte hx
  have hlt := ht.lt_of_isByte (hkeeps piece hbyte)
  have hmeans : t'.Means .standard σ piece x := ⟨g.lt hlt, hx⟩
  exact h piece x (hkeeps piece hbyte) (hmeans.of_grows g hlt).2

/-- A word shows its field at a range, or a byte with the bits of the field. -/
theorem WellFormed.shows_field_or_byte (ht : t.WellFormed) (hreg : t.Regular) (hw : t.Means R σ owner w)
    (h8 : 8 ≤ range.width) : t.Shows R σ owner range (range.field w) ∨
      range.width = 8 ∧ ∃ piece x, t.IsByte piece ∧ t.Means R σ piece x ∧ t.Shows R σ owner range x ∧
        x.toNat % 2 ^ range.width = (range.field w).toNat := by
  by_cases hunknown : ∃ piece, t.piece? owner range = some piece ∧ t.constant? piece = none
  · obtain ⟨piece, hp, hc⟩ := hunknown
    obtain ⟨pieces, hpieces, he⟩ := piece?_eq_some_iff.mp hp
    have hpiece := hreg owner pieces hpieces _ he
    rw [RegularPiece, hc] at hpiece
    have hwidth : range.width = 8 := Nat.le_antisymm hpiece.1 h8
    obtain ⟨x, hx, hbits⟩ := ht.hasBits hpieces hw he
    refine .inr ⟨hwidth, piece, x, ⟨owner, range, hp, hwidth, hc⟩, hx, (shows_piece hp).mpr hx, ?_⟩
    exact BitRange.mod_eq_field (ht.inWord hpieces he) hbits
  · refine .inl (ht.shows_known hreg hw fun piece hp => ?_)
    by_contra hnone
    exact hunknown ⟨piece, hp, by simpa using hnone⟩

end Table

namespace Build

variable {t : Table} {piece : ValueId}

/-- A shift moves the bytes of a word as they are. -/
theorem isByte_shiftHybrid (ht : t.WellFormed) (hreg : t.Regular) {id : ValueId} {pieces : Pieces}
    (hp : t.pieces? id = some pieces) {d : Direction} {opcode : Opcode} (hd : Direction.ofOpcode? opcode = some d)
    (count : Word) (h : ((shiftHybrid id opcode count).run t).2.IsByte piece) : t.IsByte piece := by
  obtain ⟨v, hv, -⟩ := Table.pieces?_eq_some_iff.mp hp
  obtain ⟨w, hw⟩ := ht.exists_means (R := .total) (σ := fun _ => 0) (fun _ _ => ⟨_, rfl⟩) (Table.lt_of_get? hv)
  have hshift := pieces_shiftHybrid ht hreg hp hw hd count
  obtain ⟨id', pieces', -, hnew, hp', hpieces⟩ := hshift.post
  obtain h | ⟨id₀, range, hid₀, hpiece, h8, hc⟩ := ht.isByte_or_new hshift.grows h
  · exact h
  · have hlast := newest_shiftHybrid hp hd count hid₀ (Table.isHybrid_of_piece? hpiece)
    obtain rfl : id₀ = id' := Nat.succ.inj (hlast.trans hnew.symm)
    obtain ⟨pieces₀, hp₀, he⟩ := Table.piece?_eq_some_iff.mp hpiece
    cases hp₀.symm.trans hp'
    obtain ⟨source, hsource, h8'⟩ : ∃ source, (source, piece) ∈ pieces.entries ∧ source.width = 8 := by
      cases hpieces with
      | kept _ hsame => exact ⟨range, hsame ▸ he, h8⟩
      | moved _ hmoved _ =>
        obtain ⟨source, hsource, h8', -⟩ := (hmoved _ he).exists_source ht hreg hp h8 hc
        exact ⟨source, hsource, h8'⟩
    rw [hshift.grows.constant? (ht.piece_lt hp hsource)] at hc
    exact ⟨id, source, Table.piece?_eq_some_iff.mpr ⟨pieces, hp, hsource⟩, h8', hc⟩

end Build

namespace RegisterView

variable {t : Table} {owner value piece : ValueId}

/-- A write makes no byte, unless it splits a known word around its value. -/
theorem isByte_merge (ht : t.WellFormed) (view : RegisterView) (h : (view.merge owner value t).2.IsByte piece) :
    t.IsByte piece ∨ t.splits owner value view = true ∧ piece = value := by
  obtain ⟨b, hb, hrun⟩ | ⟨hsplits, -, word, hrun⟩ := view.merge_plain_or_split t owner value
  · rw [hrun] at h
    exact .inl (ht.isByte_of_plain (hb t) h)
  · rw [hrun] at h
    obtain h | ⟨id, range, hid, hpiece, h8, hc⟩ := ht.isByte_or_new (adds_splitAround word value t).grows h
    · exact .inl h
    · refine .inr ⟨hsplits, ?_⟩
      obtain rfl := eq_of_isHybrid_splitAround hid (Table.isHybrid_of_piece? hpiece)
      by_cases hrange : range = ⟨8, 15⟩
      · rw [hrange, piece?_splitAround] at hpiece
        exact (Option.some.inj hpiece).symm
      · rw [constant?_splitAround word value t hpiece hrange] at hc
        cases hc

end RegisterView

/-! ## Instructions and their bytes -/

namespace Replay

variable {α β : Type} {s s' : Session} {piece : ValueId}

def KeepsBytes (s : Session) (x : Replay α) : Prop := ∀ piece, (x.after s).table.IsByte piece → s.table.IsByte piece

theorem Plain.keepsBytes {x : Replay α} (hx : x.Plain) (hs : s.table.WellFormed) : KeepsBytes s x :=
  fun _ h => hs.isByte_of_plain (hx s) h

theorem KeepsBytes.bind {x : Replay α} {f : α → Replay β} (hx : KeepsBytes s x)
    (hf : ∀ a s', x s = .ok a s' → KeepsBytes s' (f a)) : KeepsBytes s (x >>= f) := by
  intro piece h
  have hfirst := hx piece
  cases hrun : x s with
  | error fault s₁ =>
    rw [after_error hrun] at hfirst
    rw [after_bind_error hrun] at h
    exact hfirst h
  | ok a s₁ =>
    rw [after_ok hrun] at hfirst
    rw [after_bind_ok hrun] at h
    exact hfirst (hf a s₁ hrun piece h)

theorem keepsBytes_combine (h : s.Aligned) {a : Action}
    (ha : ∀ opcode target count, a = .shift opcode target count → ∃ d, Direction.ofOpcode? opcode = some d)
    (vs : List ValueId) : KeepsBytes s (combine a vs) := by
  have plain {b : Build ValueId} (hb : b.Adds Node.Plain) : KeepsBytes s (build b) := (plain_build hb).keepsBytes h.wellFormed
  cases a, vs using combine_cases with
  | built a vs b hrun hb =>
    rw [hrun]
    exact plain hb.makes.adds.plain
  | shift opcode target count v =>
    obtain ⟨d, hd⟩ := ha opcode target count rfl
    show KeepsBytes s (if s.table.isHybrid v then attempt _ else build _ : Replay ValueId)
    split
    · rename_i hhybrid
      obtain ⟨pieces, hp⟩ := Option.isSome_iff_exists.mp hhybrid
      intro piece hpiece
      rw [after_attempt] at hpiece
      exact Build.isByte_shiftHybrid h.wellFormed h.regular hp hd count hpiece
    · exact plain (makes_withConstant _ _ _).adds.plain
  | first a v vs hrun =>
    rw [hrun]
    exact fun _ hp => hp
  | none a hrun =>
    rw [hrun]
    exact fun _ hp => hp

/-- Up to its writes, an instruction makes no byte. -/
theorem keepsBytes_prepare (h : s.Aligned) (insn : Instruction) :
    KeepsBytes s (prepare insn (.ofInstruction insn)) := by
  have hdirected := Action.exists_direction insn
  generalize Action.ofInstruction insn = a at hdirected
  cases a using Action.plan_cases with
  | nothing => exact fun _ hp => hp
  | exchange x y => exact (plain_exchange insn x y).keepsBytes h.wellFormed
  | planned a hn hx =>
    rw [prepare_eq insn hn hx]
    have hplace : KeepsBytes s (check (s.locate insn a)) := (plain_check _).keepsBytes h.wellFormed
    show KeepsBytes s (check (s.locate insn a) >>= _)
    refine hplace.bind fun place s₁ hrun => ?_
    obtain ⟨-, rfl⟩ := check_ok hrun
    refine ((plain_readSources insn _).keepsBytes h.wellFormed).bind fun vs s₂ hread => ?_
    have h₂ : s₂.Aligned := after_ok hread ▸ (aligns_readSources h insn fun _ _ hin => Action.slot_short hin).aligned
    exact (keepsBytes_combine h₂ hdirected vs).bind fun _ _ _ _ hp => hp

/-- A write makes no byte, unless it splits a known word around its value. -/
theorem isByte_write (h : s.Aligned) {v : ValueId} {place : Place} {u : Unit} (hwrite : write v place s = .ok u s')
    (hp : s'.table.IsByte piece) : s.table.IsByte piece ∨ piece = v ∧ ∃ view owner, place = .register view ∧
      s.registers.get? view.owner = some owner ∧ s.table.splits owner v view = true := by
  cases place with
  | register view =>
    obtain ⟨_, _, hplan, -⟩ := bind_ok (get_bind_ok hwrite)
    obtain ⟨b, hb, -⟩ := plan_ok hplan
    rcases full_or_owner hb with ⟨r, rfl⟩ | ⟨owner, ho⟩
    · cases hwrite
      exact .inl hp
    · rw [writeRegister_ok ho hwrite] at hp
      obtain hp | ⟨hsplits, hpiece⟩ := view.isByte_merge h.wellFormed hp
      · exact .inl hp
      · exact .inr ⟨hpiece, view, owner, rfl, ho, hsplits⟩
  | memory address bytes =>
    have hplain : s.table.Adds Node.Plain s'.table := by
      obtain ⟨-, access, -, hstep⟩ := writeMemory_ok h.separated hwrite
      obtain ⟨skip, table, registers, memory, executed⟩ := s'
      cases hstep with
      | whole => exact plain_pure () s
      | within => exact ((Memory.makes_writeLane _ _ _).adds s.table).plain
    exact .inl (h.wellFormed.isByte_of_plain hplain hp)

end Replay

/-! ## Reading parts of registers -/

theorem RegisterFile.view_name (view : RegisterView) : RegisterFile.view view.name = .ok view := by
  cases view with
  | full r | low16 r | low8 r | high8 r => cases r <;> rfl

namespace Session

variable {s s' : Session} {name : String} {view : RegisterView} {id : ValueId} {w : Word}

theorem readNamed_eq_ok (hname : RegisterFile.view name = .ok view) (hid : s.registers.get? view.owner = some id) :
    Replay.readNamed name s =
      .ok (view.extract id s.table).1 { s with table := (view.extract id s.table).2 } := by
  have hview : Replay.check (RegisterFile.view name) s = .ok view s := by
    rw [hname]
    rfl
  rw [Replay.readNamed, bind_run hview]
  show Replay.plan (s.registers.read view) s = _
  rw [RegisterFile.read_eq_ok hid]
  rfl

/-- A part of a register whose word is known can be read. It is the field of the word modulo the
    width, and it is the field unless it is a byte of a hybrid word. -/
theorem Aligned.read (h : s.Aligned) (hname : RegisterFile.view name = .ok view)
    (hid : s.registers.get? view.owner = some id) (hw : s.table.eval σ id = .ok w) :
    ∃ v s' x, Replay.readNamed name s = .ok v s' ∧ s'.table.eval σ v = .ok x ∧
      x.toNat % 2 ^ view.bits = (w.toNat >>> view.span.low) % 2 ^ view.bits ∧
      (x = view.span.field w ∨ view.bits = 8 ∧ ∃ piece, s.table.IsByte piece ∧ s.table.eval σ piece = .ok x) := by
  have hmeans : s.table.Means .standard σ id w := ⟨h.registers_lt view.owner id hid, hw⟩
  have hread := readNamed_eq_ok hname hid
  have hfield := BitRange.toNat_field view.span_inWord w
  by_cases hpart : view.span = .word
  · have hgives : (view.extract id).Gives .standard σ s.table (view.span.field w) := by
      cases view with
      | full r => exact Build.ensures_pure ((BitRange.field_word w).symm ▸ hmeans)
      | low16 r | low8 r | high8 r => cases hpart
    exact ⟨_, _, _, hread, hgives.post.2, by rw [hfield]; exact Nat.mod_mod _ _, .inl rfl⟩
  · obtain hshows | ⟨h8, piece, x, hbyte, hx, hshows, hmod⟩ :=
      h.wellFormed.shows_field_or_byte h.regular hmeans view.eight_le_width
    · have hgives := view.gives_extract_shown hpart hshows
      exact ⟨_, _, _, hread, hgives.post.2, by rw [hfield]; exact Nat.mod_mod _ _, .inl rfl⟩
    · have hgives := view.gives_extract_shown hpart hshows
      exact ⟨_, _, x, hread, hgives.post.2, hmod.trans hfield, .inr ⟨h8, piece, hbyte, hx.2⟩⟩

def ReadsFields (σ : Assignment) (s : Session) : Prop :=
  ∀ name view id w, RegisterFile.view name = .ok view → s.registers.get? view.owner = some id →
    s.table.eval σ id = .ok w → ∃ v s' x, Replay.readNamed name s = .ok v s' ∧ s'.table.eval σ v = .ok x ∧
      x.toNat = (w.toNat >>> view.span.low) % 2 ^ view.bits

theorem Aligned.readsFields (hs : s.Aligned) (h : s.table.BytesFit σ) : s.ReadsFields σ := by
  intro name view id w hname hid hw
  obtain ⟨v, s', x, hread, hx, hmod, hfield⟩ := hs.read hname hid hw
  refine ⟨v, s', x, hread, hx, ?_⟩
  have hlt : x.toNat < 2 ^ view.bits := by
    obtain rfl | ⟨h8, piece, hbyte, hpiece⟩ := hfield
    · exact BitRange.field_lt view.span_inWord w
    · rw [h8]
      exact h piece x hbyte hpiece
  rw [← hmod, Nat.mod_eq_of_lt hlt]

/-! ## The writes of a history -/

structure Write where
  before : Session
  place : Place
  value : ValueId
  after : Session

/-- If the value was split off as a byte of a known word, its word fits the byte. -/
def Write.fits (σ : Assignment) (m : Write) : Bool :=
  match m.place with
  | .register view =>
    match m.before.registers.get? view.owner, m.before.table.eval σ m.value with
    | some owner, .ok x => !m.before.table.splits owner m.value view || x.toNat < 2 ^ view.bits
    | _, _ => true
  | .memory _ _ => true

theorem Write.fits_iff {m : Write} : m.fits σ = true ↔ ∀ view owner x, m.place = .register view →
    m.before.registers.get? view.owner = some owner → m.before.table.splits owner m.value view = true →
    m.before.table.eval σ m.value = .ok x → x.toNat < 2 ^ view.bits := by
  obtain ⟨before, place, value, after⟩ := m
  cases place with
  | memory address bytes => simp [fits]
  | register view =>
    simp only [fits]
    split
    · rename_i owner x howner hx
      constructor
      · intro h view' owner' x' hplace howner' hsplits hx'
        cases hplace
        cases howner.symm.trans howner'
        cases hx.symm.trans hx'
        simpa [hsplits] using h
      · intro h
        cases hsplits : before.table.splits owner value view with
        | false => rfl
        | true => simpa using h view owner x rfl howner hsplits hx
    · rename_i hnone
      refine ⟨fun _ view' owner x hplace howner _ hx => ?_, fun _ => rfl⟩
      cases hplace
      exact absurd hx (hnone owner x howner)

def commits (s : Session) : List (Place × ValueId) → List Write
  | [] => []
  | (place, v) :: rest =>
    match Replay.write v place s with
    | .ok _ s' => ⟨s, place, v, s'⟩ :: commits s' rest
    | .error _ _ => []

def Event.writes (s : Session) : Event → List Write
  | step insn =>
    if s.skip.contains insn.mnemonic then []
    else match Replay.prepare insn (.ofInstruction insn) s with
      | .ok ws s' => s'.commits ws
      | .error _ _ => []
  | look _ => []

def writes (s : Session) : List Event → List Write
  | [] => []
  | e :: events => e.writes s ++ (e.after s).writes events

variable {v : ValueId} {place : Place} {u : Unit}

/-- A word that is split off and fits leaves bytes that fit. -/
theorem bytesFit_write (hs : s.Aligned) (h : s.table.BytesFit σ) (hwrite : Replay.write v place s = .ok u s')
    (g : s.table.Grows s'.table) (hv : v < s.table.size) (hfits : Write.fits σ ⟨s, place, v, s'⟩ = true) :
    s'.table.BytesFit σ := by
  intro piece x hbyte hx
  have heval (hlt : piece < s.table.size) : s.table.eval σ piece = .ok x := by
    have hmeans : s'.table.Means .standard σ piece x := ⟨g.lt hlt, hx⟩
    exact (hmeans.of_grows g hlt).2
  obtain hold | ⟨rfl, view, owner, rfl, howner, hsplits⟩ := Replay.isByte_write hs hwrite hbyte
  · exact h piece x hold (heval (hs.wellFormed.lt_of_isByte hold))
  · have hlt := Write.fits_iff.mp hfits view owner x rfl howner hsplits (heval hv)
    cases view with
    | full r | low16 r | low8 r => cases hsplits
    | high8 r => exact hlt

/-- A word that is split off is read back as it is, so it fits if the field is read. -/
theorem fits_of_readsFields (hs : s.Aligned) (hwrite : Replay.write v place s = .ok u s') (hv : v < s.table.size)
    (h : s'.ReadsFields σ) : Write.fits σ ⟨s, place, v, s'⟩ = true := by
  refine Write.fits_iff.mpr ?_
  intro view owner x hplace howner hsplits hx
  obtain rfl : place = .register view := hplace
  obtain ⟨hpart, word, hword⟩ : view.span ≠ .word ∧ ∃ word, s.table.concrete? owner = some word := by
    cases view with
    | full r | low16 r | low8 r => cases hsplits
    | high8 r => exact ⟨nofun, Option.isSome_iff_exists.mp (Bool.and_eq_true_iff.mp hsplits).1⟩
  have hmeans : s.table.Means .standard σ v x := ⟨hv, hx⟩
  have hstep := RegisterView.merge_step hs.wellFormed (RegisterView.means_of_concrete? hs.wellFormed hword) hmeans view
  have hafter := Replay.writeRegister_ok howner hwrite
  have hid : s'.registers.get? view.owner = some (view.merge owner v s.table).1 := by
    rw [hafter, get?_set, if_pos rfl]
  have htable : (view.merge owner v s.table).2 = s'.table := by rw [hafter]
  generalize (view.merge owner v s.table).1 = id at hid hstep
  generalize (view.merge owner v s.table).2 = t' at htable hstep
  cases hstep with
  | whole hspan => exact absurd hspan hpart
  | masked hnot => cases hsplits.symm.trans hnot
  | split _ g _ hpiece _ hreplaced _ =>
    rw [htable] at g hpiece hreplaced
    obtain ⟨v', s'', y, hread, hy, hfield⟩ := h view.name view id _ (RegisterFile.view_name view) hid hreplaced.2
    rw [readNamed_eq_ok (RegisterFile.view_name view) hid, RegisterView.extract_of_piece? hpiece hpart] at hread
    cases hread
    rw [Except.ok.inj ((hmeans.grow g).2.symm.trans hy), hfield]
    exact Nat.mod_lt _ (Nat.two_pow_pos _)

/-! ## Histories -/

/-- After each of the writes the parts of registers are fields exactly if all of them fit. Then the
    bytes of the last table fit. -/
structure FieldsWhileFit (σ : Assignment) (ms : List Write) (t : Table) : Prop where
  iff : (∀ m ∈ ms, m.after.ReadsFields σ) ↔ ∀ m ∈ ms, m.fits σ = true
  bytesFit : (∀ m ∈ ms, m.fits σ = true) → t.BytesFit σ

theorem FieldsWhileFit.nil {t : Table} (h : t.BytesFit σ) : FieldsWhileFit σ [] t := ⟨by simp, fun _ => h⟩

theorem FieldsWhileFit.append {ms ms' : List Write} {t t' : Table} (h : FieldsWhileFit σ ms t)
    (h' : t.BytesFit σ → FieldsWhileFit σ ms' t') : FieldsWhileFit σ (ms ++ ms') t' := by
  constructor
  · rw [List.forall_mem_append, List.forall_mem_append, h.iff]
    exact and_congr_right fun hfits => (h' (h.bytesFit hfits)).iff
  · intro hfits
    obtain ⟨hfirst, hrest⟩ := List.forall_mem_append.mp hfits
    exact (h' (h.bytesFit hfirst)).bytesFit hrest

theorem fieldsWhileFit_write (hs : s.Aligned) (h : s.table.BytesFit σ) (hwrite : Replay.write v place s = .ok u s')
    (hv : v < s.table.size) (g : s.table.Grows s'.table) (hs' : s'.Aligned) :
    FieldsWhileFit σ [⟨s, place, v, s'⟩] s'.table := by
  have hbytes := bytesFit_write hs h hwrite g hv
  constructor
  · rw [List.forall_mem_singleton, List.forall_mem_singleton]
    exact ⟨fits_of_readsFields hs hwrite hv, fun hfits => hs'.readsFields (hbytes hfits)⟩
  · intro hfits
    exact hbytes (hfits _ (List.mem_singleton.mpr rfl))

theorem fieldsWhileFit_commits (hs : s.Aligned) (h : s.table.BytesFit σ) {ws : List (Place × ValueId)}
    (hready : List.Forall₂ (Replay.Ready s s) ws ws) :
    FieldsWhileFit σ (s.commits ws) ((Replay.commit ws).after s).table := by
  induction ws generalizing s with
  | nil => exact .nil h
  | cons w ws ih =>
    obtain ⟨place, v⟩ := w
    obtain ⟨⟨-, hshort, hv⟩, hrest⟩ := List.forall₂_cons.mp hready
    have haligns := Replay.aligns_write hs hshort hv
    have haligned := haligns.aligned
    have g := haligns.grows
    rw [commits, Replay.commit]
    cases hwrite : Replay.write v place s with
    | error fault s₁ =>
      rw [Replay.after_bind_error hwrite, (write_error hwrite).2]
      exact .nil h
    | ok u s₁ =>
      rw [Replay.after_ok hwrite] at haligned g
      rw [Replay.after_bind_ok hwrite]
      refine (fieldsWhileFit_write hs h hwrite hv.1 g haligned).append fun hfit => ?_
      exact ih haligned hfit (hrest.imp fun p q hr => ⟨hr.1, hr.2.1, g.lt hr.2.2.1, g.lt hr.2.2.2⟩)

/-- An instruction that is not passed over prepares its writes and makes them; to count it changes no
    value. -/
theorem table_after_step {insn : Instruction} (hskip : s.skip.contains insn.mnemonic = false) :
    ((Replay.step insn).after s).table =
      ((Replay.prepare insn (.ofInstruction insn) >>= Replay.commit).after s).table := by
  rw [← Replay.perform_eq_commit, Replay.after, step_performed hskip, ← Replay.after]
  cases hrun : Replay.perform insn (.ofInstruction insn) s with
  | error fault s₁ => rw [Replay.after_bind_error hrun, Replay.after_error hrun]
  | ok u s₁ =>
    rw [Replay.after_bind_ok hrun, Replay.after_ok hrun]
    rfl

theorem fieldsWhileFit_event (hs : s.Aligned) (h : s.table.BytesFit σ) (e : Event) :
    FieldsWhileFit σ (e.writes s) (e.after s).table := by
  cases e with
  | look name =>
    have hplain := Replay.plain_readNamed name
    exact .nil (h.mono hs.wellFormed (hplain s).grows (hplain.keepsBytes hs.wellFormed))
  | step insn =>
    rw [Event.writes, Event.after]
    cases hskip : s.skip.contains insn.mnemonic with
    | true =>
      rw [Replay.after_ok (step_skipped hskip)]
      exact .nil h
    | false =>
      have hprepare := Replay.aligns_prepare hs insn
      have hprepared := h.mono hs.wellFormed hprepare.grows (Replay.keepsBytes_prepare hs insn)
      have haligned := hprepare.aligned
      rw [table_after_step hskip, if_neg Bool.false_ne_true]
      cases hrun : Replay.prepare insn (.ofInstruction insn) s with
      | error fault s₁ =>
        rw [Replay.after_error hrun] at hprepared
        rw [Replay.after_bind_error hrun]
        exact .nil hprepared
      | ok ws s₁ =>
        rw [Replay.after_ok hrun] at hprepared haligned
        rw [Replay.after_bind_ok hrun]
        exact fieldsWhileFit_commits haligned hprepared (hprepare.post ws s₁ hrun)

theorem fieldsWhileFit_after (hs : s.Aligned) (h : s.table.BytesFit σ) (events : List Event) :
    FieldsWhileFit σ (s.writes events) (s.after events).table := by
  induction events generalizing s with
  | nil => exact .nil h
  | cons e events ih => exact (fieldsWhileFit_event hs h e).append fun hfit => ih (hs.event e) hfit

theorem isHybrid_start (skip : SkipSet) (start : Start) (id : ValueId) :
    (start.session skip).table.isHybrid id = false := by
  refine start.of_seed (P := fun s => s.table.isHybrid id = false) (fun contents => ?_) ?_ fun s r hs => ?_
  · exact isHybrid_ofSnapshot skip contents id
  · exact Table.isHybrid_of_size_le (Nat.zero_le _)
  · have hnew := (Build.makes_symbol 32).adds s.table
    by_cases hid : id < s.table.size
    · exact (congrArg Option.isSome (hnew.grows.pieces? hid)).trans hs
    · exact hnew.isHybrid (Nat.le_of_not_lt hid)

/-- A session begins without hybrid words. -/
theorem bytesFit_start (skip : SkipSet) (start : Start) : (start.session skip).table.BytesFit σ := by
  intro piece x hbyte
  obtain ⟨id, range, hp, -, -⟩ := hbyte
  cases (isHybrid_start skip start id).symm.trans (Table.isHybrid_of_piece? hp)

/-- The parts of registers after any history. A part whose register has a word is read as the field
    of that word modulo its width, and if it is not a byte, as the field itself. All parts are read
    as the fields after every write of the history exactly if each word that was split off as a byte
    fits, and then they are at its end. -/
theorem parts_are_fields_iff_split_bytes_fit (skip : SkipSet) (start : Start) (events : List Event)
    (σ : Assignment) :
    let s₀ := start.session skip
    let s := s₀.after events
    (∀ name view id w, RegisterFile.view name = .ok view → s.registers.get? view.owner = some id →
      s.table.eval σ id = .ok w → ∃ v s' x, Replay.readNamed name s = .ok v s' ∧ s'.table.eval σ v = .ok x ∧
        x.toNat % 2 ^ view.bits = (w.toNat >>> view.span.low) % 2 ^ view.bits ∧
        (view.bits ≠ 8 → x.toNat = (w.toNat >>> view.span.low) % 2 ^ view.bits)) ∧
    ((∀ m ∈ s₀.writes events, m.after.ReadsFields σ) ↔ ∀ m ∈ s₀.writes events, m.fits σ = true) ∧
    ((∀ m ∈ s₀.writes events, m.fits σ = true) → s.ReadsFields σ) := by
  intro s₀ s
  have hs : s.Aligned := aligned_after skip start events
  have hhistory : FieldsWhileFit σ (s₀.writes events) s.table :=
    fieldsWhileFit_after (aligned_after skip start []) (bytesFit_start skip start) events
  refine ⟨fun name view id w hname hid hw => ?_, hhistory.iff, fun hfits => hs.readsFields (hhistory.bytesFit hfits)⟩
  obtain ⟨v, s', x, hread, hx, hmod, hfield⟩ := hs.read hname hid hw
  refine ⟨v, s', x, hread, hx, hmod, fun h8 => ?_⟩
  obtain rfl | ⟨hbits, -⟩ := hfield
  · exact BitRange.toNat_field view.span_inWord w
  · exact absurd hbits h8

def byteAdded : List Event := [
  .step { address := 0x1000, mnemonic := "mov", operands := [.register "eax" 32, .immediate 0xff00] },
  .step { address := 0x1005, mnemonic := "add", operands := [.register "ah" 8, .register "bl" 8] }]

/-- Without a carry all parts are fields. With one, the byte that is split off has nine bits and is
    read as such, though the field of the register is 0. -/
theorem a_carry_is_read_from_a_split_byte :
    let s₀ := (Start.symbols Register.all).session ⟨.empty⟩
    let s := s₀.after byteAdded
    s.registers.get? .eax = some 18 ∧ s.ReadsFields (fun _ => 0) ∧ s.table.eval (fun _ => 1) 18 = .ok 0 ∧
      (∃ v s', Replay.readNamed "ah" s = .ok v s' ∧ s'.table.eval (fun _ => 1) v = .ok 0x100) ∧
      ¬ ∀ m ∈ s₀.writes byteAdded, m.after.ReadsFields fun _ => 1 := by
  intro s₀ s
  have heax : s.registers.get? .eax = some 18 := by decide +kernel
  have heval : s.table.eval (fun _ => 1) 18 = .ok 0 := by decide +kernel
  have hfits : ∀ m ∈ s₀.writes byteAdded, m.fits (fun _ => 0) = true := by
    rw [← List.all_eq_true]
    decide +kernel
  have hunfit : ¬ ∀ m ∈ s₀.writes byteAdded, m.fits (fun _ => 1) = true := by
    rw [← List.all_eq_true]
    decide +kernel
  have hclean := parts_are_fields_iff_split_bytes_fit ⟨.empty⟩ (.symbols Register.all) byteAdded fun _ => 0
  have hcarry := parts_are_fields_iff_split_bytes_fit ⟨.empty⟩ (.symbols Register.all) byteAdded fun _ => 1
  have hview : RegisterFile.view "ah" = .ok (.high8 .a) := rfl
  refine ⟨heax, hclean.2.2 hfits, heval, ⟨_, _, readNamed_eq_ok hview heax, ?_⟩, fun h => hunfit (hcarry.2.1.mp h)⟩
  decide +kernel

end Session

end TraceReplay
