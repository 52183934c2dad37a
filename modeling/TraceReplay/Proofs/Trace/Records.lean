/-
  TraceReplay.Proofs.Trace.Records — a record is read from exactly its spellings.

  Numbers, texts and displacements are written in one way. A register has two spellings, a
  structure many, and what contains one has as many (`SpelledBy`): a record is written with its
  fields in any order or by position, with or without the fields that have their default, and so
  is everything inside of it. Each reader accepts the spellings of a value and nothing else
  (`instruction?_eq_some`), and the text of a spelling is read back as well
  (`a_record_is_read_from_exactly_its_spellings`).
-/

import Mathlib.Data.List.Forall2
import TraceReplay.Proofs.JsonText
import TraceReplay.Proofs.Trace.Spellings

namespace TraceReplay

/-! ## Data that is written in one way -/

namespace Json

variable {α : Type} {read : Json → Option α} {write : α → Json} {j : Json}

theorem toText?_eq_some {s : String} : j.toText? = some s ↔ j = ofText s := by
  cases j <;> simp [toText?, ofText]

theorem toNat?_eq_some {n : Nat} : j.toNat? = some n ↔ j = ofNat n := by
  cases j with
  | number m => cases m <;> simp [toNat?, ofNat]
  | _ => simp [toNat?, ofNat]

theorem toWord?_eq_some {w : Word} : j.toWord? = some w ↔ j = ofWord w := by
  rw [toWord?, Option.bind_eq_some_iff]
  constructor
  · rintro ⟨n, hn, hw⟩
    rw [Word.ofNat?] at hw
    split at hw
    · rename_i hlt
      cases hw
      rw [toNat?_eq_some.mp hn, ofWord, BitVec.toNat_ofNat, Nat.mod_eq_of_lt hlt]
    · cases hw
  · rintro rfl
    refine ⟨w.toNat, rfl, ?_⟩
    rw [Word.ofNat?, if_pos w.isLt, BitVec.ofNat_toNat, BitVec.setWidth_eq]

@[simp] theorem toText?_ofText (s : String) : (ofText s).toText? = some s := rfl

@[simp] theorem toWord?_ofWord (w : Word) : (ofWord w).toWord? = some w := toWord?_eq_some.mpr rfl

/-- Where no value is written as `null`, an absent one is. -/
theorem toOption?_eq_some (hread : ∀ j a, read j = some a ↔ j = write a) (hnull : ∀ a, write a ≠ null)
    {a : Option α} : j.toOption? read = some a ↔ j = ofOption write a := by
  have hnone : read null = none :=
    Option.eq_none_iff_forall_ne_some.mpr fun a ha => hnull a ((hread null a).mp ha).symm
  cases a with
  | none => cases j <;> simp [toOption?, ofOption]
  | some a =>
    rw [ofOption, ← hread]
    cases j <;> simp [toOption?, hnone]

theorem mapM_eq_some {items : List Json} {as : List α} :
    items.mapM read = some as ↔ List.Forall₂ (fun a item => read item = some a) as items := by
  induction items generalizing as with
  | nil => simp [eq_comm]
  | cons item items ih =>
    simp only [List.mapM_cons, Option.bind_eq_bind, Option.bind_eq_some_iff, Option.pure_def, Option.some.injEq, ih,
      List.forall₂_cons_right_iff]
    constructor
    · rintro ⟨a, ha, rest, hrest, rfl⟩
      exact ⟨a, rest, ha, hrest, rfl⟩
    · rintro ⟨a, rest, ha, hrest, rfl⟩
      exact ⟨a, ha, rest, hrest, rfl⟩

theorem toList?_eq_some {as : List α} :
    j.toList? read = some as ↔ ∃ items, j = array items ∧ List.Forall₂ (fun a item => read item = some a) as items := by
  cases j <;> simp [toList?, mapM_eq_some]

/-- Where items are written in one way only, so are lists of them. -/
theorem toList?_eq_some_ofList (hread : ∀ j a, read j = some a ↔ j = write a) {as : List α} :
    j.toList? read = some as ↔ j = ofList write as := by
  have hitems {items : List Json} :
      List.Forall₂ (fun a item => read item = some a) as items ↔ items = as.map write := by
    simp only [hread]
    constructor
    · intro h
      induction h with
      | nil => rfl
      | cons hitem _ ih => rw [List.map_cons, hitem, ih]
    · rintro rfl
      exact List.forall₂_map_right_iff.mpr (List.forall₂_same.mpr fun _ _ => rfl)
  rw [toList?_eq_some]
  simp only [hitems, exists_eq_right, ofList]

end Json

theorem Register.ofName?_name (r : Register) : Register.ofName? r.name = some r := by
  cases r <;> rfl

theorem Register.ofName?_eq_some {name : String} {r : Register} : Register.ofName? name = some r ↔ name = r.name := by
  constructor
  · intro h
    have hfound := List.find?_some h
    exact (eq_of_beq hfound).symm
  · rintro rfl
    exact r.ofName?_name

/-! ## Spellings -/

open Record (Layout Spelling)

inductive Register.SpelledBy (r : Register) : Json → Prop
  | name : r.SpelledBy (Record.ofRegister r)
  | alternative : r.SpelledBy (Record.ofAlternative r.name .null)

inductive AddressForm.SpelledBy (layout : Layout) : AddressForm → Json → Prop
  | absolute {address payload} : Spelling layout [("address", Json.ofWord address)] [] payload →
      SpelledBy layout (.absolute address) (Record.ofAlternative "absolute" payload)
  | base {b base payload} : Register.SpelledBy b base → Spelling layout [("base", base)] [] payload →
      SpelledBy layout (.base b) (Record.ofAlternative "base" payload)
  | scaled {i index scale payload} : Register.SpelledBy i index →
      Spelling layout [("index", index), ("scale", Json.ofWord scale)] [] payload →
      SpelledBy layout (.scaled i scale) (Record.ofAlternative "scaled" payload)
  | baseDisp {b base disp payload} : Register.SpelledBy b base →
      Spelling layout [("base", base), ("disp", Record.ofDisplacement disp)] [] payload →
      SpelledBy layout (.baseDisp b disp) (Record.ofAlternative "base_disp" payload)
  | baseIndex {b base i index scale payload} : Register.SpelledBy b base → Register.SpelledBy i index →
      Spelling layout [("base", base), ("index", index), ("scale", Json.ofWord scale)] [] payload →
      SpelledBy layout (.baseIndex b i scale) (Record.ofAlternative "base_index" payload)
  | scaledDisp {i index scale disp payload} : Register.SpelledBy i index →
      Spelling layout [("index", index), ("scale", Json.ofWord scale),
        ("disp", Record.ofDisplacement disp)] [] payload →
      SpelledBy layout (.scaledDisp i scale disp) (Record.ofAlternative "scaled_disp" payload)
  | full {b base i index scale disp payload} : Register.SpelledBy b base → Register.SpelledBy i index →
      Spelling layout [("base", base), ("index", index), ("scale", Json.ofWord scale),
        ("disp", Record.ofDisplacement disp)] [] payload →
      SpelledBy layout (.full b i scale disp) (Record.ofAlternative "full" payload)

def MemoryOperand.SpelledBy (layout : Layout) (m : MemoryOperand) (j : Json) : Prop :=
  ∃ form, m.form.SpelledBy layout form ∧ Spelling .positional
    [("form", form), ("segment", Json.ofOption Json.ofText m.segment), ("bits", Json.ofWord m.bits)]
    (if m.segment = none then ["segment"] else []) j

inductive Operand.SpelledBy (layout : Layout) : Operand → Json → Prop
  | immediate {value} : SpelledBy layout (.immediate value) (Record.ofAlternative "immediate" (Json.ofWord value))
  | register {name bits payload} : Spelling layout [("name", Json.ofText name), ("bits", Json.ofWord bits)] [] payload →
      SpelledBy layout (.register name bits) (Record.ofAlternative "register" payload)
  | memory {m value} : MemoryOperand.SpelledBy layout m value →
      SpelledBy layout (.memory m) (Record.ofAlternative "memory" value)

namespace Instruction

def fields (insn : Instruction) (operands : List Json) : List (String × Json) :=
  [("id", Json.ofNat insn.id.toNat), ("address", Json.ofWord insn.address), ("mnemonic", Json.ofText insn.mnemonic),
    ("operands", .array operands), ("context", Record.ofSnapshot insn.context),
    ("read_address", Json.ofOption Json.ofWord insn.readAddress),
    ("write_address", Json.ofOption Json.ofWord insn.writeAddress)]

def defaults (insn : Instruction) : List String :=
  (if insn.id = 0 then ["id"] else []) ++ (if insn.operands = [] then ["operands"] else []) ++
  (if insn.context = Snapshot.zero then ["context"] else []) ++
  (if insn.readAddress = none then ["read_address"] else []) ++
  (if insn.writeAddress = none then ["write_address"] else [])

def SpelledBy (layout : Layout) (insn : Instruction) (j : Json) : Prop :=
  ∃ operands, List.Forall₂ (Operand.SpelledBy layout) insn.operands operands ∧
    Spelling .positional (insn.fields operands) insn.defaults j

end Instruction

/-! ## Readers -/

namespace Record

variable {layout : Layout} {j : Json}

theorem alternative?_eq_some {name : String} {value : Json} :
    alternative? j = some (name, value) ↔ j = ofAlternative name value := by
  constructor
  · intro h
    unfold alternative? at h
    split at h
    · cases h
      rfl
    · cases h
  · rintro rfl
    rfl

theorem register?_eq_some {r : Register} : register? j = some r ↔ r.SpelledBy j := by
  constructor
  · intro h
    unfold register? at h
    split at h
    · obtain ⟨name, rfl, hname⟩ := Option.bind_eq_some_iff.mp h
      rw [Register.ofName?_eq_some.mp hname]
      exact .name
    · rw [Register.ofName?_eq_some.mp h]
      exact .alternative
    · cases h
  · intro h
    cases h <;> exact Register.ofName?_eq_some.mpr rfl

theorem displacement?_eq_some {d : Displacement} : displacement? j = some d ↔ j = ofDisplacement d := by
  constructor
  · intro h
    obtain ⟨⟨key, value⟩, halternative, h⟩ := Option.bind_eq_some_iff.mp h
    rw [alternative?_eq_some.mp halternative]
    split at h
    · rename_i heq
      cases heq
      obtain ⟨w, hw, rfl⟩ := Option.map_eq_some_iff.mp h
      rw [Json.toWord?_eq_some.mp hw]
      rfl
    · rename_i heq
      cases heq
      obtain ⟨w, hw, rfl⟩ := Option.map_eq_some_iff.mp h
      rw [Json.toWord?_eq_some.mp hw]
      rfl
    · cases h
  · rintro rfl
    cases d with
    | plus w => exact congrArg (Option.map Displacement.plus) (Json.toWord?_eq_some.mpr rfl)
    | minus w => exact congrArg (Option.map Displacement.minus) (Json.toWord?_eq_some.mpr rfl)

@[simp] theorem displacement?_ofDisplacement (d : Displacement) : displacement? (ofDisplacement d) = some d :=
  displacement?_eq_some.mpr rfl

theorem required_eq_some {α : Type} {fields : List (String × Json)} {name : String} {read : Json → Option α} {a : α} :
    required fields name read = some a ↔ ∃ j, fields.lookup name = some j ∧ read j = some a :=
  Option.bind_eq_some_iff

/-- A structure without defaults is read from its spellings only. -/
theorem spelling_iff_lookup {fields : List (String × Json)} (hunique : (fields.map (·.1)).Nodup) :
    Spelling layout fields [] j ↔
      ∃ found, payload? layout (fields.map (·.1)) j = some found ∧ ∀ f ∈ fields, found.lookup f.1 = some f.2 := by
  simp only [spelling_iff hunique, Finds, List.not_mem_nil, false_and, or_false]

theorem addressForm?_eq_some {form : AddressForm} : addressForm? layout j = some form ↔ form.SpelledBy layout j := by
  constructor
  · intro h
    obtain ⟨⟨key, payload⟩, halternative, h⟩ := Option.bind_eq_some_iff.mp h
    rw [alternative?_eq_some.mp halternative]
    split at h
    case h_8 => cases h
    all_goals
      rename_i heq
      cases heq
      simp only [Option.bind_eq_bind, Option.bind_eq_some_iff, required_eq_some, Json.toWord?_eq_some,
        register?_eq_some, displacement?_eq_some, Option.pure_def, Option.some.injEq] at h
    · obtain ⟨found, hfound, address, ⟨_, h₁, rfl⟩, rfl⟩ := h
      exact .absolute ((spelling_iff_lookup (by simp)).mpr ⟨found, hfound, by simp [h₁]⟩)
    · obtain ⟨found, hfound, b, ⟨_, h₁, hb⟩, rfl⟩ := h
      exact .base hb ((spelling_iff_lookup (by simp)).mpr ⟨found, hfound, by simp [h₁]⟩)
    · obtain ⟨found, hfound, i, ⟨_, h₁, hi⟩, scale, ⟨_, h₂, rfl⟩, rfl⟩ := h
      exact .scaled hi ((spelling_iff_lookup (by simp)).mpr ⟨found, hfound, by simp [h₁, h₂]⟩)
    · obtain ⟨found, hfound, b, ⟨_, h₁, hb⟩, disp, ⟨_, h₂, rfl⟩, rfl⟩ := h
      exact .baseDisp hb ((spelling_iff_lookup (by simp)).mpr ⟨found, hfound, by simp [h₁, h₂]⟩)
    · obtain ⟨found, hfound, b, ⟨_, h₁, hb⟩, i, ⟨_, h₂, hi⟩, scale, ⟨_, h₃, rfl⟩, rfl⟩ := h
      exact .baseIndex hb hi ((spelling_iff_lookup (by simp)).mpr ⟨found, hfound, by simp [h₁, h₂, h₃]⟩)
    · obtain ⟨found, hfound, i, ⟨_, h₁, hi⟩, scale, ⟨_, h₂, rfl⟩, disp, ⟨_, h₃, rfl⟩, rfl⟩ := h
      exact .scaledDisp hi ((spelling_iff_lookup (by simp)).mpr ⟨found, hfound, by simp [h₁, h₂, h₃]⟩)
    · obtain ⟨found, hfound, b, ⟨_, h₁, hb⟩, i, ⟨_, h₂, hi⟩, scale, ⟨_, h₃, rfl⟩, disp, ⟨_, h₄, rfl⟩, rfl⟩ := h
      exact .full hb hi ((spelling_iff_lookup (by simp)).mpr ⟨found, hfound, by simp [h₁, h₂, h₃, h₄]⟩)
  · intro h
    cases h
    all_goals
      rename_i h
      obtain ⟨found, hfound, hlookup⟩ := (spelling_iff_lookup (by simp)).mp h
      simp_all [addressForm?, alternative?, ofAlternative, Json.ofFields, required, ← register?_eq_some]

theorem defaulted_eq_some {α : Type} {fields : List (String × Json)} {name : String} {default : α}
    {read : Json → Option α} {a : α} : defaulted fields name default read = some a ↔
      (∃ j, fields.lookup name = some j ∧ read j = some a) ∨ a = default ∧ fields.lookup name = none := by
  unfold defaulted
  cases fields.lookup name <;> simp [eq_comm]

theorem memoryOperand?_eq_some {m : MemoryOperand} : memoryOperand? layout j = some m ↔ m.SpelledBy layout j := by
  have hsegment {j : Json} {s : Option String} : j.toOption? Json.toText? = some s ↔ j = Json.ofOption Json.ofText s :=
    Json.toOption?_eq_some (fun _ _ => Json.toText?_eq_some) fun _ => Json.noConfusion
  simp only [memoryOperand?, fields?_eq_payload?, Option.bind_eq_bind, Option.bind_eq_some_iff, required_eq_some,
    defaulted_eq_some, addressForm?_eq_some, hsegment, Json.toWord?_eq_some, Option.pure_def, Option.some.injEq,
    exists_eq_right]
  constructor
  · rintro ⟨found, hfound, form, ⟨written, h₁, hform⟩, segment, h₂, bits, h₃, rfl⟩
    refine ⟨written, hform, (spelling_iff (by simp)).mpr ⟨found, hfound, ?_⟩⟩
    simpa [Finds, -List.lookup_eq_none_iff, h₁, h₃] using h₂
  · rintro ⟨written, hform, h⟩
    obtain ⟨found, hfound, hfinds⟩ := (spelling_iff (by simp)).mp h
    have h₁ : found.lookup "form" = some written := by simpa using hfinds ("form", written) (by simp)
    have h₃ : found.lookup "bits" = some (Json.ofWord m.bits) := by simpa using hfinds ("bits", _) (by simp)
    have h₂ := hfinds ("segment", _) (List.mem_cons_of_mem _ List.mem_cons_self)
    refine ⟨found, hfound, m.form, ⟨written, h₁, hform⟩, m.segment, h₂.imp_right (And.imp_left fun h => ?_), m.bits, h₃,
      rfl⟩
    simpa using h

theorem operand?_eq_some {o : Operand} : operand? layout j = some o ↔ o.SpelledBy layout j := by
  constructor
  · intro h
    obtain ⟨⟨key, payload⟩, halternative, h⟩ := Option.bind_eq_some_iff.mp h
    rw [alternative?_eq_some.mp halternative]
    split at h
    case h_4 => cases h
    all_goals
      rename_i heq
      cases heq
    · obtain ⟨w, hw, rfl⟩ := Option.map_eq_some_iff.mp h
      rw [Json.toWord?_eq_some.mp hw]
      exact .immediate
    · simp only [Option.bind_eq_bind, Option.bind_eq_some_iff, required_eq_some, Json.toText?_eq_some,
        Json.toWord?_eq_some, Option.pure_def, Option.some.injEq] at h
      obtain ⟨found, hfound, name, ⟨_, h₁, rfl⟩, bits, ⟨_, h₂, rfl⟩, rfl⟩ := h
      exact .register ((spelling_iff_lookup (by simp)).mpr ⟨found, hfound, by simp [h₁, h₂]⟩)
    · obtain ⟨m, hm, rfl⟩ := Option.map_eq_some_iff.mp h
      exact .memory (memoryOperand?_eq_some.mp hm)
  · intro h
    cases h with
    | @immediate value => exact congrArg (Option.map Operand.immediate) (Json.toWord?_ofWord value)
    | register h =>
      obtain ⟨found, hfound, hlookup⟩ := (spelling_iff_lookup (by simp)).mp h
      simp_all [operand?, alternative?, ofAlternative, Json.ofFields, required]
    | memory h => exact congrArg (Option.map Operand.memory) (memoryOperand?_eq_some.mpr h)

theorem snapshot?_eq_some {s : Snapshot} : snapshot? j = some s ↔ j = ofSnapshot s := by
  simp only [snapshot?, Option.bind_eq_bind, Option.bind_eq_some_iff,
    Json.toList?_eq_some_ofList fun _ _ => Json.toWord?_eq_some]
  constructor
  · rintro ⟨words, rfl, h⟩
    split at h
    · cases h
      rfl
    · cases h
  · rintro rfl
    exact ⟨s.toList, rfl, dif_pos s.size_toArray⟩

theorem serial?_eq_some {n : BitVec 64} : serial? j = some n ↔ j = Json.ofNat n.toNat := by
  simp only [serial?, Option.bind_eq_some_iff, Json.toNat?_eq_some]
  constructor
  · rintro ⟨k, rfl, h⟩
    split at h
    · rename_i hlt
      cases h
      rw [BitVec.toNat_ofNat, Nat.mod_eq_of_lt hlt]
    · cases h
  · rintro rfl
    exact ⟨_, rfl, by rw [if_pos n.isLt, BitVec.ofNat_toNat, BitVec.setWidth_eq]⟩

theorem finds_fields {insn : Instruction} {operands : List Json} {found : List (String × Json)} :
    Finds (insn.fields operands) insn.defaults found ↔
      (found.lookup "id" = some (Json.ofNat insn.id.toNat) ∨ insn.id = 0 ∧ found.lookup "id" = none) ∧
      found.lookup "address" = some (Json.ofWord insn.address) ∧
      found.lookup "mnemonic" = some (Json.ofText insn.mnemonic) ∧
      (found.lookup "operands" = some (.array operands) ∨ insn.operands = [] ∧ found.lookup "operands" = none) ∧
      (found.lookup "context" = some (ofSnapshot insn.context) ∨
        insn.context = Snapshot.zero ∧ found.lookup "context" = none) ∧
      (found.lookup "read_address" = some (Json.ofOption Json.ofWord insn.readAddress) ∨
        insn.readAddress = none ∧ found.lookup "read_address" = none) ∧
      (found.lookup "write_address" = some (Json.ofOption Json.ofWord insn.writeAddress) ∨
        insn.writeAddress = none ∧ found.lookup "write_address" = none) := by
  simp [Finds, Instruction.fields, Instruction.defaults, -List.lookup_eq_none_iff]

/-- A record is read from its spellings and from nothing else. -/
theorem instruction?_eq_some {insn : Instruction} : instruction? layout j = some insn ↔ insn.SpelledBy layout j := by
  have haddress {j : Json} {a : Option Word} : j.toOption? Json.toWord? = some a ↔ j = Json.ofOption Json.ofWord a :=
    Json.toOption?_eq_some (fun _ _ => Json.toWord?_eq_some) fun _ => Json.noConfusion
  simp only [instruction?, fields?_eq_payload?, Option.bind_eq_bind, Option.bind_eq_some_iff, required_eq_some,
    defaulted_eq_some, serial?_eq_some, Json.toWord?_eq_some, Json.toText?_eq_some, Json.toList?_eq_some,
    operand?_eq_some, snapshot?_eq_some, haddress, Option.pure_def, Option.some.injEq, exists_eq_right]
  constructor
  · rintro ⟨found, hfound, id, h₁, address, h₂, mnemonic, h₃, operands, h₄, context, h₅, read, h₆, write, h₇, rfl⟩
    have hoperands : ∃ written, List.Forall₂ (Operand.SpelledBy layout) operands written ∧
        (found.lookup "operands" = some (.array written) ∨ operands = [] ∧ found.lookup "operands" = none) := by
      rcases h₄ with ⟨_, hlookup, written, rfl, hwritten⟩ | ⟨rfl, hlookup⟩
      · exact ⟨written, hwritten, .inl hlookup⟩
      · exact ⟨[], .nil, .inr ⟨rfl, hlookup⟩⟩
    obtain ⟨written, hwritten, h₄⟩ := hoperands
    refine ⟨written, hwritten, (spelling_iff (by simp [Instruction.fields])).mpr ⟨found, hfound, ?_⟩⟩
    exact finds_fields.mpr ⟨h₁, h₂, h₃, h₄, h₅, h₆, h₇⟩
  · rintro ⟨written, hwritten, h⟩
    obtain ⟨found, hfound, hfinds⟩ := (spelling_iff (by simp [Instruction.fields])).mp h
    obtain ⟨h₁, h₂, h₃, h₄, h₅, h₆, h₇⟩ := finds_fields.mp hfinds
    exact ⟨found, hfound, _, h₁, _, h₂, _, h₃, _, h₄.imp_left fun h => ⟨_, h, written, rfl, hwritten⟩, _, h₅, _, h₆,
      _, h₇, rfl⟩

/-! ## What is written -/

theorem spelledBy_ofAddressForm (layout : Layout) (form : AddressForm) :
    form.SpelledBy layout (ofAddressForm form) := by
  cases form with
  | absolute => exact .absolute (spelling_ofFields ..)
  | base => exact .base .name (spelling_ofFields ..)
  | scaled => exact .scaled .name (spelling_ofFields ..)
  | baseDisp => exact .baseDisp .name (spelling_ofFields ..)
  | baseIndex => exact .baseIndex .name .name (spelling_ofFields ..)
  | scaledDisp => exact .scaledDisp .name (spelling_ofFields ..)
  | full => exact .full .name .name (spelling_ofFields ..)

theorem spelledBy_ofOperand (layout : Layout) (o : Operand) : o.SpelledBy layout (ofOperand o) := by
  cases o with
  | immediate => exact .immediate
  | register => exact .register (spelling_ofFields ..)
  | memory m => exact .memory ⟨_, spelledBy_ofAddressForm layout m.form, spelling_ofFields ..⟩

/-- Writing every field in order is one of the spellings. -/
theorem spelledBy_ofInstruction (layout : Layout) (insn : Instruction) :
    insn.SpelledBy layout (ofInstruction insn) := by
  refine ⟨insn.operands.map ofOperand, ?_, spelling_ofFields ..⟩
  exact List.forall₂_map_right_iff.mpr (List.forall₂_same.mpr fun o _ => spelledBy_ofOperand layout o)

@[simp] theorem legible_ofRegister (r : Register) : (ofRegister r).Legible := Json.legible_ofText r.name

@[simp] theorem legible_ofDisplacement (d : Displacement) : (ofDisplacement d).Legible := by
  cases d <;> exact Json.legible_ofFields (by simp)

@[simp] theorem legible_ofAddressForm (form : AddressForm) : (ofAddressForm form).Legible := by
  cases form <;>
  · refine Json.legible_ofFields (List.forall_mem_singleton.mpr ?_)
    exact Json.legible_ofFields (by simp)

@[simp] theorem legible_ofOperand (o : Operand) : (ofOperand o).Legible := by
  cases o with
  | immediate => exact Json.legible_ofFields (by simp)
  | register =>
    refine Json.legible_ofFields (List.forall_mem_singleton.mpr ?_)
    exact Json.legible_ofFields (by simp)
  | memory m =>
    refine Json.legible_ofFields (List.forall_mem_singleton.mpr ?_)
    exact Json.legible_ofFields (by simp)

theorem legible_ofInstruction (insn : Instruction) : (ofInstruction insn).Legible :=
  Json.legible_ofFields (by simp [ofSnapshot])

/-- However a record is written, by name in any order or by position, with or without fields that
have their default, beside whatever other members, it is read back; and nothing else is read as it. -/
theorem a_record_is_read_from_exactly_its_spellings (layout : Layout) (insn : Instruction) :
    instruction? layout (ofInstruction insn) = some insn ∧
    (Json.parse? (ofInstruction insn).render).bind (instruction? layout) = some insn ∧
    ∀ j, (instruction? layout j = some insn ↔ insn.SpelledBy layout j) ∧
      (insn.SpelledBy layout j → j.Legible → (Json.parse? j.render).bind (instruction? layout) = some insn) := by
  have hwritten : instruction? layout (ofInstruction insn) = some insn :=
    instruction?_eq_some.mpr (spelledBy_ofInstruction layout insn)
  refine ⟨hwritten, ?_, fun j => ⟨instruction?_eq_some, fun h hlegible => ?_⟩⟩
  · rw [Json.parse?_render (legible_ofInstruction insn), Option.bind_some, hwritten]
  · rw [Json.parse?_render hlegible, Option.bind_some, instruction?_eq_some.mpr h]

/-- A load whose fields stand in another order, without their defaults and beside a note. -/
theorem a_shuffled_record_is_read :
    let operand := ofAlternative "memory"
      (Json.ofFields [("bits", Json.ofWord 32), ("form", ofAddressForm (.base .esi))])
    let j := Json.ofFields [("note", .null), ("operands", .array [operand]), ("mnemonic", Json.ofText "dec"),
      ("address", Json.ofWord 0x401000)]
    let insn : Instruction :=
      { address := 0x401000, mnemonic := "dec"
        operands := [.memory { form := .base .esi, segment := none, bits := 32 }] }
    insn.SpelledBy .named j ∧ (Json.parse? j.render).bind (instruction? .named) = some insn := by
  intro operand j insn
  obtain ⟨-, -, h⟩ := a_record_is_read_from_exactly_its_spellings .named insn
  have hspelled : insn.SpelledBy .named j := (h j).1.mp (by decide +kernel)
  have hoperand : operand.Legible :=
    Json.legible_ofFields (List.forall_mem_singleton.mpr (Json.legible_ofFields (by simp)))
  have hlegible : j.Legible := Json.legible_ofFields (by simp [Json.Legible.null, Json.Legible.array, hoperand])
  exact ⟨hspelled, (h j).2 hspelled hlegible⟩

end Record

end TraceReplay
