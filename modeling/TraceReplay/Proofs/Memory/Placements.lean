/-
  TraceReplay.Proofs.Memory.Placements — where an access lies, told by bytes.

  Placing an access compares the ends of ranges, and takes the first cell in the map that will do.
  What a placement means is said here of bytes (`Placement.Locates`): which cells share one with the
  access, and which of the two has all bytes of the other. In a memory whose cells are apart at most
  one placement is true of an access (`Locates.eq_of_encloses` and the lemmas after it), and the one
  that is found is true (`Separated.locates_classify`).

  Proved, over every history that starts with an empty memory
  (`a_placement_is_found_exactly_if_it_is_true`): a placement is found if and only if it is true, and
  an access within a cell meets no other.
-/

import TraceReplay.Proofs.Memory.Histories

namespace TraceReplay

/-! ## Ranges as sets of bytes -/

namespace AddressRange

def Shares (r s : AddressRange) : Prop := ∃ a, r.Has a ∧ s.Has a

def Encloses (r s : AddressRange) : Prop := ∀ a, s.Has a → r.Has a

def Crosses (r s : AddressRange) : Prop := r.Shares s ∧ ¬ r.Encloses s ∧ ¬ s.Encloses r

variable {r s : AddressRange}

theorem encloses_iff (hs : s.first ≤ s.last) : r.Encloses s ↔ r.contains s = true := by
  refine ⟨fun h => ?_, fun h a => has_of_contains h⟩
  have hfirst := h s.first (has_first hs)
  have hlast := h s.last ⟨hs, BitVec.le_refl _⟩
  exact contains_iff.mpr ⟨hfirst.1, hlast.2⟩

theorem encloses_self (r : AddressRange) : r.Encloses r := fun _ ha => ha

theorem Encloses.shares (h : r.Encloses s) (hs : s.first ≤ s.last) : r.Shares s :=
  ⟨s.first, h _ (has_first hs), has_first hs⟩

/-- Ranges with the same bytes are the same, unless they are empty. -/
theorem Encloses.antisymm (h : r.Encloses s) (h' : s.Encloses r) (hr : r.first ≤ r.last)
    (hs : s.first ≤ s.last) : r = s := by
  obtain ⟨hfirst, hlast⟩ := contains_iff.mp ((encloses_iff hs).mp h)
  obtain ⟨hfirst', hlast'⟩ := contains_iff.mp ((encloses_iff hr).mp h')
  have hf : r.first = s.first := BitVec.le_antisymm hfirst hfirst'
  have hl : r.last = s.last := BitVec.le_antisymm hlast' hlast
  cases r
  cases s
  simp_all

end AddressRange

/-! ## Placements -/

def Memory.Stores (m : Memory) (r : AddressRange) : Prop := ∃ v, (r, v) ∈ m.cells.entries

/-- What the placement of an access says about the bytes of the cells. -/
def Placement.Locates (m : Memory) (access : AddressRange) : Placement → Prop
  | exact v => (access, v) ∈ m.cells.entries
  | fresh => ∀ r, m.Stores r → ¬ r.Shares access
  | within cell v => (cell, v) ∈ m.cells.entries ∧ cell.Encloses access ∧ cell ≠ access
  | covering first rest =>
    ¬ m.Stores access ∧ (∀ r, m.Stores r → r.Shares access → access.Encloses r) ∧
      (∀ r, r ∈ first :: rest ↔ m.Stores r ∧ r.Shares access) ∧
      (first :: rest).Pairwise fun r s => r.first < s.first
  | straddling cell =>
    (m.Stores cell ∧ cell.Crosses access) ∧
      ∀ r, m.Stores r → r.Crosses access → cell.first ≤ r.first

namespace Memory

variable {m : Memory} {access : AddressRange}

namespace Separated

variable (hm : m.Separated)

include hm

theorem eq_of_shares {r s : AddressRange} (hr : m.Stores r) (hs : m.Stores s) (h : r.Shares s) : r = s := by
  obtain ⟨v, hr⟩ := hr
  obtain ⟨w, hs⟩ := hs
  obtain ⟨a, ha, ha'⟩ := h
  exact hm.disjoint _ hr _ hs a ha ha'

/-- If a cell has all bytes of an access, the access meets no other. -/
theorem eq_of_encloses {cell r : AddressRange} (hcell : m.Stores cell) (h : cell.Encloses access)
    (hr : m.Stores r) (hshares : r.Shares access) : r = cell := by
  obtain ⟨a, ha, haccess⟩ := hshares
  exact hm.eq_of_shares hr hcell ⟨a, ha, h a haccess⟩

theorem eq_of_first_eq {r s : AddressRange} (hr : m.Stores r) (hs : m.Stores s) (h : r.first = s.first) :
    r = s := by
  obtain ⟨v, hv⟩ := id hr
  obtain ⟨w, hw⟩ := id hs
  have hhas : r.Has r.first := AddressRange.has_first (hm.first_le_last _ hv)
  have hhas' : s.Has s.first := AddressRange.has_first (hm.first_le_last _ hw)
  exact hm.eq_of_shares hr hs ⟨r.first, hhas, h ▸ hhas'⟩

theorem first_lt {e e' : AddressRange × ValueId} (he : e ∈ m.cells.entries) (he' : e' ∈ m.cells.entries)
    (h : compare e.1 e'.1 = .lt) : e.1.first < e'.1.first := by
  refine BitVec.lt_of_le_ne (AddressRange.first_le_of_compare_lt h) fun hfirst => ?_
  exact SortedMap.ne_of_compare_lt h (hm.eq_of_first_eq ⟨e.2, he⟩ ⟨e'.2, he'⟩ hfirst)

theorem shares_iff (haccess : access.first ≤ access.last) {e : AddressRange × ValueId}
    (he : e ∈ m.cells.entries) : e.1.Shares access ↔ e.1.intersects access = true :=
  (AddressRange.intersects_iff (hm.first_le_last e he) haccess).symm

theorem mem_touched_keys (haccess : access.first ≤ access.last) {r : AddressRange} :
    r ∈ (m.touched access).map (·.1) ↔ m.Stores r ∧ r.Shares access := by
  rw [List.mem_map]
  constructor
  · rintro ⟨e, he, rfl⟩
    obtain ⟨hin, hmeets⟩ := mem_touched.mp he
    exact ⟨⟨e.2, hin⟩, (hm.shares_iff haccess hin).mpr hmeets⟩
  · rintro ⟨⟨v, hin⟩, hshares⟩
    exact ⟨(r, v), mem_touched.mpr ⟨hin, (hm.shares_iff haccess hin).mp hshares⟩, rfl⟩

theorem pairwise_touched_keys : ((m.touched access).map (·.1)).Pairwise fun r s => r.first < s.first := by
  refine List.pairwise_map.mpr (List.Pairwise.imp_of_mem (fun he he' h => ?_) (m.pairwise_touched access))
  exact hm.first_lt (mem_touched.mp he).1 (mem_touched.mp he').1 h

/-! ## The placement that is found is true -/

theorem locates_of_describes (haccess : access.first ≤ access.last) {p : Placement} (h : p.Describes m access) :
    p.Locates m access := by
  -- a cell that shares a byte with the access is enclosed if the ends of its range are
  have henclosed {e : AddressRange × ValueId} (he : e ∈ m.cells.entries) :
      access.contains e.1 = true ↔ access.Encloses e.1 :=
    (AddressRange.encloses_iff (hm.first_le_last e he)).symm
  cases p with
  | exact v => exact h
  | fresh =>
    intro r ⟨v, hr⟩ hshares
    cases (h _ hr).symm.trans ((hm.shares_iff haccess hr).mp hshares)
  | within cell v =>
    obtain ⟨hin, hcontains, hne⟩ := h
    exact ⟨hin, (AddressRange.encloses_iff haccess).mpr hcontains, hne⟩
  | covering first rest =>
    obtain ⟨hnone, hkeys, habsorbs⟩ := h
    refine ⟨fun ⟨v, hin⟩ => hnone v hin, fun r ⟨v, hr⟩ hshares => ?_, fun r => ?_, ?_⟩
    · exact (henclosed hr).mp (habsorbs _ hr ((hm.shares_iff haccess hr).mp hshares))
    · rw [hkeys]
      exact hm.mem_touched_keys haccess
    · rw [hkeys]
      exact hm.pairwise_touched_keys
  | straddling cell =>
    obtain ⟨⟨v, hin⟩, hmeets, hout, hcrosses, hlowest⟩ := h
    have hshares : cell.Shares access := (hm.shares_iff haccess hin).mpr hmeets
    refine ⟨⟨⟨v, hin⟩, hshares, ?_, ?_⟩, fun r ⟨w, hr⟩ hr' => ?_⟩
    · rw [AddressRange.encloses_iff haccess, hout]
      exact Bool.false_ne_true
    · rw [← henclosed hin, hcrosses]
      exact Bool.false_ne_true
    · refine hlowest _ hr ((hm.shares_iff haccess hr).mp hr'.1) ?_
      rw [← Bool.not_eq_true, henclosed hr]
      exact hr'.2.2

theorem locates_classify (haccess : access.first ≤ access.last) : (m.classify access).Locates m access :=
  hm.locates_of_describes haccess (m.classify_describes access)

end Separated

end Memory

/-! ## At most one placement is true -/

namespace Placement.Locates

variable {m : Memory} {access : AddressRange} {p : Placement} (hm : m.Separated)
  (haccess : access.first ≤ access.last) (h : p.Locates m access)

include haccess h

theorem shares (hne : p ≠ .fresh) : ∃ r, m.Stores r ∧ r.Shares access := by
  cases p with
  | exact v => exact ⟨access, ⟨v, h⟩, access.encloses_self.shares haccess⟩
  | fresh => exact absurd rfl hne
  | within cell v => exact ⟨cell, ⟨v, h.1⟩, h.2.1.shares haccess⟩
  | covering first rest => exact ⟨first, (h.2.2.1 first).mp List.mem_cons_self⟩
  | straddling cell => exact ⟨cell, h.1.1, h.1.2.1⟩

theorem eq_fresh (hfresh : ∀ r, m.Stores r → ¬ r.Shares access) : p = .fresh := by
  by_contra hne
  obtain ⟨r, hr, hshares⟩ := h.shares haccess hne
  exact hfresh r hr hshares

include hm

/-- A cell with all bytes of the access decides where that lies. -/
theorem eq_of_encloses {cell : AddressRange} {v : ValueId} (hin : (cell, v) ∈ m.cells.entries)
    (hcell : cell.Encloses access) : p = if cell = access then .exact v else .within cell v := by
  have honly {r : AddressRange} := hm.eq_of_encloses (r := r) ⟨v, hin⟩ hcell
  have hshares := hcell.shares haccess
  cases p with
  | exact w =>
    have heq : access = cell := honly ⟨w, h⟩ (access.encloses_self.shares haccess)
    rw [if_pos heq.symm, m.cells.value_unique h (heq ▸ hin)]
  | fresh => exact absurd hshares (h cell ⟨v, hin⟩)
  | within other w =>
    obtain ⟨hother, hencloses, hne⟩ := h
    obtain rfl := honly ⟨w, hother⟩ (hencloses.shares haccess)
    rw [if_neg hne, m.cells.value_unique hother hin]
  | covering first rest =>
    have heq := hcell.antisymm (h.2.1 cell ⟨v, hin⟩ hshares) (hm.first_le_last _ hin) haccess
    exact absurd ⟨v, heq ▸ hin⟩ h.1
  | straddling other =>
    obtain rfl := honly h.1.1 h.1.2.1
    exact absurd hcell h.1.2.2.1

omit haccess in
theorem eq_straddling {cell : AddressRange} (hcell : (straddling cell).Locates m access) : p = .straddling cell := by
  obtain ⟨⟨hin, hshares, hout, hcrosses⟩, hlowest⟩ := hcell
  cases p with
  | exact v => exact absurd (hm.eq_of_encloses ⟨v, h⟩ access.encloses_self hin hshares ▸ access.encloses_self) hout
  | fresh => exact absurd hshares (h cell hin)
  | within other v => exact absurd (hm.eq_of_encloses ⟨v, h.1⟩ h.2.1 hin hshares ▸ h.2.1) hout
  | covering first rest => exact absurd (h.2.1 cell hin hshares) hcrosses
  | straddling other =>
    -- both are the lowest of the crossing cells, so they start at one address
    obtain ⟨⟨hother, hcross⟩, hlowest'⟩ := h
    have hfirst : other.first = cell.first :=
      BitVec.le_antisymm (hlowest' cell hin ⟨hshares, hout, hcrosses⟩) (hlowest other hother hcross)
    rw [hm.eq_of_first_eq hother hin hfirst]

theorem eq_covering {first : AddressRange} {rest : List AddressRange}
    (hcovers : (covering first rest).Locates m access) : p = .covering first rest := by
  obtain ⟨hnone, hencloses, hmem, hascending⟩ := id hcovers
  cases p with
  | exact v => exact absurd ⟨v, h⟩ hnone
  | fresh =>
    obtain ⟨hin, hshares⟩ := (hmem first).mp List.mem_cons_self
    exact absurd hshares (h first hin)
  | within cell v =>
    have heq := h.2.1.antisymm (hencloses cell ⟨v, h.1⟩ (h.2.1.shares haccess)) (hm.first_le_last _ h.1) haccess
    exact absurd heq h.2.2
  | straddling cell => exact absurd (hencloses cell h.1.1 h.1.2.1) h.1.2.2.2
  | covering first' rest' =>
    obtain ⟨-, -, hmem', hascending'⟩ := h
    have hirrefl : Std.Irrefl fun r s : AddressRange => r.first < s.first := ⟨fun r => BitVec.lt_irrefl r.first⟩
    obtain ⟨rfl, rfl⟩ := List.cons.inj
      (hascending'.eq_of_mem_iff hascending fun r => (hmem' r).trans (hmem r).symm)
    rfl

theorem unique {q : Placement} (hq : q.Locates m access) : p = q := by
  cases q with
  | exact v => rw [h.eq_of_encloses hm haccess hq access.encloses_self, if_pos rfl]
  | fresh => exact h.eq_fresh haccess hq
  | within cell v => rw [h.eq_of_encloses hm haccess hq.1 hq.2.1, if_neg hq.2.2]
  | covering first rest => exact h.eq_covering hm haccess hq
  | straddling cell => exact h.eq_straddling hm hq

end Placement.Locates

/-! ## Whole histories -/

namespace Store

/-- Whatever calls were made on an empty memory, an access is placed exactly as its bytes and those
    of the cells lie, and if it is placed within a cell it meets no other. -/
theorem a_placement_is_found_exactly_if_it_is_true (t : Table) (calls : List Call) (access : AddressRange)
    (haccess : access.first ≤ access.last) :
    let m := (run ⟨t, .empty⟩ calls).memory
    (∀ p, m.classify access = p ↔ p.Locates m access) ∧
    ∀ cell v, m.classify access = .within cell v → ∀ r, m.Stores r → r.Shares access → r = cell := by
  intro m
  have hm : m.Separated := (run_inv (inv_empty t) calls).separated
  have hfound := hm.locates_classify haccess
  refine ⟨fun p => ⟨fun h => h ▸ hfound, fun h => hfound.unique hm haccess h⟩, fun cell v h r hr hshares => ?_⟩
  rw [h] at hfound
  exact hm.eq_of_encloses ⟨v, hfound.1⟩ hfound.2.1 hr hshares

def placedCalls : List Call := [.write 0x108 4 0, .write 0x100 4 1, .write 0x104 1 2, .read 0x107 1]

/-- The access crosses both words and contains the byte between them. The lower word is named, though
    it was written later, and no cell that crosses the access starts below it. -/
theorem an_access_over_two_borders_straddles_the_lower_cell :
    let m := (run ⟨.empty, .empty⟩ placedCalls).memory
    m.classify ⟨0x102, 0x109⟩ = .straddling ⟨0x100, 0x103⟩ ∧
    (∀ r, m.Stores r → r.Crosses ⟨0x102, 0x109⟩ → 0x100 ≤ r.first) ∧
    m.classify ⟨0x104, 0x107⟩ = .covering ⟨0x104, 0x104⟩ [⟨0x107, 0x107⟩] ∧
    (∀ r, m.Stores r ∧ r.Shares ⟨0x104, 0x107⟩ ↔ r ∈ [⟨0x104, 0x104⟩, ⟨0x107, 0x107⟩]) := by
  intro m
  have hcrosses : m.classify ⟨0x102, 0x109⟩ = .straddling ⟨0x100, 0x103⟩ := by decide +kernel
  have hcovers : m.classify ⟨0x104, 0x107⟩ = .covering ⟨0x104, 0x104⟩ [⟨0x107, 0x107⟩] := by decide +kernel
  obtain ⟨hplaced, -⟩ := a_placement_is_found_exactly_if_it_is_true .empty placedCalls ⟨0x102, 0x109⟩ (by decide)
  obtain ⟨hplaced', -⟩ := a_placement_is_found_exactly_if_it_is_true .empty placedCalls ⟨0x104, 0x107⟩ (by decide)
  exact ⟨hcrosses, ((hplaced _).mp hcrosses).2, hcovers, fun r => (((hplaced' _).mp hcovers).2.2.1 r).symm⟩

end Store

end TraceReplay
