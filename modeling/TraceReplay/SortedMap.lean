/-
  TraceReplay.SortedMap — finite maps as lists of entries in ascending key order.

  Input symbols are listed by id, memory cells by address and the pieces of a word by bit
  position, so the order of the keys is part of what a map means here: a map is its
  ascending list of entries, and maps with the same entries are equal. Every operation
  keeps the keys ascending (`insertEntry_ascending`), so a key occurs at most once.
-/

namespace TraceReplay

structure SortedMap (κ ν : Type) [Ord κ] where
  entries : List (κ × ν)
  ascending : entries.Pairwise (fun a b => compare a.1 b.1 = .lt)
  deriving DecidableEq

namespace SortedMap

variable {κ ν : Type} [Ord κ]

/-- Put an entry at its place, replacing the value of a key that is already there. -/
def insertEntry (k : κ) (v : ν) : List (κ × ν) → List (κ × ν)
  | [] => [(k, v)]
  | e :: rest =>
    match compare k e.1 with
    | .lt => (k, v) :: e :: rest
    | .eq => (e.1, v) :: rest
    | .gt => e :: insertEntry k v rest

theorem key_of_mem_insertEntry {k : κ} {v : ν} {l : List (κ × ν)} {a : κ × ν}
    (h : a ∈ insertEntry k v l) : a.1 = k ∨ ∃ b ∈ l, b.1 = a.1 := by
  induction l with
  | nil => simp only [insertEntry, List.mem_singleton] at h; exact .inl (by rw [h])
  | cons e rest ih =>
    rw [insertEntry] at h
    split at h
    · rcases List.mem_cons.mp h with rfl | h
      · exact .inl rfl
      · exact .inr ⟨a, h, rfl⟩
    · rcases List.mem_cons.mp h with rfl | h
      · exact .inr ⟨e, by simp, rfl⟩
      · exact .inr ⟨a, by simp [h], rfl⟩
    · rcases List.mem_cons.mp h with rfl | h
      · exact .inr ⟨a, by simp, rfl⟩
      · rcases ih h with h | ⟨b, hb, e⟩
        · exact .inl h
        · exact .inr ⟨b, by simp [hb], e⟩

theorem insertEntry_ascending [Std.TransOrd κ] (k : κ) (v : ν) {l : List (κ × ν)}
    (h : l.Pairwise (fun a b => compare a.1 b.1 = .lt)) :
    (insertEntry k v l).Pairwise (fun a b => compare a.1 b.1 = .lt) := by
  induction l with
  | nil => simp [insertEntry]
  | cons e rest ih =>
    have tail := (List.pairwise_cons.mp h).2
    have head := (List.pairwise_cons.mp h).1
    rw [insertEntry]
    split
    · rename_i lt
      refine List.pairwise_cons.mpr ⟨fun a ha => ?_, h⟩
      rcases List.mem_cons.mp ha with rfl | ha
      · exact lt
      · exact Std.TransCmp.lt_trans lt (head a ha)
    · exact List.pairwise_cons.mpr ⟨fun a ha => head a ha, tail⟩
    · rename_i gt
      refine List.pairwise_cons.mpr ⟨fun a ha => ?_, ih tail⟩
      rcases key_of_mem_insertEntry ha with eq | ⟨b, hb, eq⟩
      · rw [eq]; exact Std.OrientedCmp.lt_of_gt gt
      · rw [← eq]; exact head b hb

def empty : SortedMap κ ν := ⟨[], .nil⟩

instance : Inhabited (SortedMap κ ν) := ⟨empty⟩

def insert [Std.TransOrd κ] (m : SortedMap κ ν) (k : κ) (v : ν) : SortedMap κ ν :=
  ⟨insertEntry k v m.entries, insertEntry_ascending k v m.ascending⟩

def erase (m : SortedMap κ ν) (k : κ) : SortedMap κ ν :=
  ⟨m.entries.filter (fun e => compare k e.1 != .eq), m.ascending.filter _⟩

def get? (m : SortedMap κ ν) (k : κ) : Option ν :=
  (m.entries.find? (fun e => compare k e.1 == .eq)).map (·.2)

def contains (m : SortedMap κ ν) (k : κ) : Bool := (m.get? k).isSome

def keys (m : SortedMap κ ν) : List κ := m.entries.map (·.1)

def values (m : SortedMap κ ν) : List ν := m.entries.map (·.2)

def isEmpty (m : SortedMap κ ν) : Bool := m.entries.isEmpty

/-- Later entries replace earlier ones with the same key. -/
def insertMany [Std.TransOrd κ] (m : SortedMap κ ν) (l : List (κ × ν)) : SortedMap κ ν :=
  l.foldl (fun m e => m.insert e.1 e.2) m

def ofList [Std.TransOrd κ] (l : List (κ × ν)) : SortedMap κ ν := empty.insertMany l

end SortedMap

end TraceReplay
