/-
  TraceReplay.Proofs.RegisterWrites — a part of a register that is written can be read back.

  A view is written in one of three ways (`MergeStep`), and read as a piece of the register or as a
  field of its word. If the number fits the view, all ways come to the same: its bits replace those
  of the view (`MergeStep.means`) and are read back (`MergeStep.reads_back`). Proved, of every
  register file over every table that constructions build (`a_written_view_is_read_back`): whatever
  kind of value the register held, it has the old word with the bits of the view cleared and the
  number put there, the view reads as the number, and the other registers hold what they held.
-/

import TraceReplay.Proofs.Replay.Binding

namespace TraceReplay

variable {R : Rules} {σ : Assignment}

/-! ## Views -/

namespace RegisterView

variable {t t' : Table} {owner value id : Nat} {w v : Word} {view : RegisterView}

/-- A number that fits is shown as the piece that it has become, or as the field that it has gone to. -/
theorem MergeStep.shows_number (h : MergeStep R σ t owner value w v view id t') (hpart : view.span ≠ .word)
    (hv : t.Means R σ value v) (hfit : v.toNat < 2 ^ view.span.width) : t'.Shows R σ id view.span v := by
  have hmeans := h.means hv hfit
  cases h with
  | whole hspan => exact absurd hspan hpart
  | masked _ _ _ _ hflat =>
    have hshows := Table.shows_of_not_hybrid hflat hmeans view.span
    rwa [BitRange.field_replace view.span_inWord hfit] at hshows
  | split _ g _ hpiece _ _ _ => exact (Table.shows_piece hpiece).mpr (hv.grow g)

theorem MergeStep.reads_back (h : MergeStep R σ t owner value w v view id t') (hv : t.Means R σ value v)
    (hfit : v.toNat < 2 ^ view.span.width) : (view.extract id).Gives R σ t' v := by
  by_cases hpart : view.span = .word
  · cases view with
    | full r =>
      have hmeans := h.means hv hfit
      rw [hpart, BitRange.replace_word] at hmeans
      exact Build.ensures_pure hmeans
    | low16 r | low8 r | high8 r => cases hpart
  · exact view.gives_extract_shown hpart (h.shows_number hpart hv hfit)

end RegisterView

/-! ## Register files -/

namespace RegisterFile

/-- Any view of a register that holds a value is written by its name and read again, where the
    value written has a word that fits the view. The register then has its old word with the bits
    of the view replaced, the view reads as the word written, and no other register is touched. -/
theorem a_written_view_is_read_back (cs : List Construction) (h : Table.empty.Admits cs) (regs : RegisterFile)
    (name : String) (view : RegisterView) (hname : RegisterFile.view name = .ok view) (owner value : ValueId)
    (howner : regs.get? view.owner = some owner) (ho : owner < (Table.empty.construct cs).size)
    (hv : value < (Table.empty.construct cs).size) (σ : Assignment) (w v : Word)
    (hw : (Table.empty.construct cs).eval σ owner = .ok w) (hword : (Table.empty.construct cs).eval σ value = .ok v)
    (hfit : v.toNat < 2 ^ view.bits) :
    ∃ write, (do regs.write (← RegisterFile.view name) value) = .ok write ∧
      let (regs', t') := write (Table.empty.construct cs)
      (∃ owner', regs'.get? view.owner = some owner' ∧
        t'.eval σ owner' = .ok (w &&& ~~~view.span.mask ||| v <<< view.span.low)) ∧
      (∃ read, (do regs'.read (← RegisterFile.view name)) = .ok read ∧ (read t').2.eval σ (read t').1 = .ok v) ∧
      ∀ r ≠ view.owner, regs'.get? r = regs.get? r := by
  have ht := Table.construct_wellFormed Table.wellFormed_empty h
  generalize Table.empty.construct cs = t at *
  have hold : t.Means .standard σ owner w := ⟨ho, hw⟩
  have hmeans : t.Means .standard σ value v := ⟨hv, hword⟩
  have hstep := RegisterView.merge_step ht hold hmeans view
  have hself : (regs.set view.owner (view.merge owner value t).1).get? view.owner =
      some (view.merge owner value t).1 := by
    rw [Session.get?_set, if_pos rfl]
  rw [hname]
  refine ⟨_, write_eq_ok howner value, ⟨_, hself, ?_⟩, ⟨_, read_eq_ok hself, ?_⟩, fun r hr => ?_⟩
  · change (view.merge owner value t).2.eval σ _ = .ok (view.span.merge w v)
    rw [BitRange.merge_eq_replace view.span_inWord hfit]
    exact (hstep.means hmeans hfit).2
  · exact (hstep.reads_back hmeans hfit).post.2
  · rw [Session.get?_set, if_neg hr]

/-- A known word, an unknown byte, and a word whose bits 4 to 11 are that byte. -/
def byteOwners : List Construction :=
  [.constant 0x11223344, .symbol 8, .bits ⟨0x11223344, ⟨0, 3⟩⟩, .bits ⟨0x11223344, ⟨12, 31⟩⟩,
    .hybrid (.ofList [(⟨0, 3⟩, 2), (⟨4, 11⟩, 1), (⟨12, 31⟩, 3)])]

/-- The unknown byte splits the known word in `eax`. The word in `ebx` has no piece at bits 8 to 15, so
    the byte is put there under a mask. It is read back from both. -/
theorem an_unknown_byte_is_read_back :
    let regs := (empty.set .eax 0).set .ebx 4
    let t := Table.empty.construct byteOwners
    let σ : Assignment := fun _ => 0xab
    t.eval σ 4 = .ok 0x11223ab4 ∧
    (∃ write, (do regs.write (← RegisterFile.view "ah") 1) = .ok write ∧
      (∃ owner, (write t).1.get? .eax = some owner ∧ (write t).2.eval σ owner = .ok 0x1122ab44) ∧
      (∃ read, (do (write t).1.read (← RegisterFile.view "ah")) = .ok read ∧
        (read (write t).2).2.eval σ (read (write t).2).1 = .ok 0xab) ∧
      (write t).1.get? .ebx = some 4) ∧
    (∃ write, (do regs.write (← RegisterFile.view "bh") 1) = .ok write ∧
      (∃ owner, (write t).1.get? .ebx = some owner ∧ (write t).2.eval σ owner = .ok 0x1122abb4) ∧
      (∃ read, (do (write t).1.read (← RegisterFile.view "bh")) = .ok read ∧
        (read (write t).2).2.eval σ (read (write t).2).1 = .ok 0xab) ∧
      (write t).1.get? .eax = some 0) := by
  intro regs t σ
  have hadmits : Table.empty.Admits byteOwners :=
    ⟨by decide, by decide, by decide, by decide, by decide, trivial⟩
  have heval : t.eval σ 4 = .ok 0x11223ab4 := by decide +kernel
  obtain ⟨write, hwrite, howner, hread, hothers⟩ := a_written_view_is_read_back byteOwners hadmits regs "ah"
    (.high8 .a) rfl 0 1 rfl (by decide +kernel) (by decide +kernel) σ 0x11223344 0xab (by decide +kernel)
    (by decide +kernel) (by decide)
  obtain ⟨write', hwrite', howner', hread', hothers'⟩ := a_written_view_is_read_back byteOwners hadmits regs "bh"
    (.high8 .b) rfl 4 1 rfl (by decide +kernel) (by decide +kernel) σ 0x11223ab4 0xab heval
    (by decide +kernel) (by decide)
  exact ⟨heval, ⟨write, hwrite, howner, hread, hothers .ebx (by decide)⟩,
    write', hwrite', howner', hread', hothers' .eax (by decide)⟩

end RegisterFile

end TraceReplay
