/-
  TraceReplay.Trace.Record — the JSON form of trace records.

  A structure is an object with named fields, or an array of the same fields in order whose
  missing end takes the defaults. In an object a known field stands at most once and
  unknown fields are ignored. An alternative (an operand, an address form, a displacement)
  is an object with exactly one member, whose name says which alternative it is. The fields
  of an operand's or address form's alternative are always named in a single record; in a
  trace text they may also be given by position (`Layout`).

  Reading checks shapes and number ranges only: names, widths, scales and the number of
  operands may be anything. Writing gives every field, defaults included.
-/

import TraceReplay.Json.Reader
import TraceReplay.Trace.Instruction

namespace TraceReplay

namespace Record

/-- How the fields of an alternative may be written. -/
inductive Layout where
  | named
  | positional
  deriving DecidableEq, Repr

/-! ## Structures and alternatives -/

/-- The named fields of an object, unknown ones left out. -/
def namedFields? (names : List String) (members : List (Option String × Json)) :
    Option (List (String × Json)) := do
  let named ← members.mapM fun m => m.1.map (·, m.2)
  let known := named.filter fun f => names.contains f.1
  if (known.map (·.1)).Nodup then some known else none

def positionalFields? (names : List String) (items : List Json) : Option (List (String × Json)) :=
  if items.length ≤ names.length then some (names.zip items) else none

def fields? (names : List String) : Json → Option (List (String × Json))
  | .object members => namedFields? names members
  | .array items => positionalFields? names items
  | _ => none

def payload? (layout : Layout) (names : List String) : Json → Option (List (String × Json))
  | .object members => namedFields? names members
  | .array items =>
    match layout with
    | .named => none
    | .positional => positionalFields? names items
  | _ => none

def alternative? : Json → Option (String × Json)
  | .object [(some name, value)] => some (name, value)
  | _ => none

def required {α : Type} (fields : List (String × Json)) (name : String)
    (read : Json → Option α) : Option α :=
  (fields.lookup name).bind read

def defaulted {α : Type} (fields : List (String × Json)) (name : String) (default : α)
    (read : Json → Option α) : Option α :=
  match fields.lookup name with
  | none => some default
  | some j => read j

/-! ## Reading -/

/-- A register is its name, or an object whose one member has that name and holds `null`. -/
def register? : Json → Option Register
  | .string text => text.bind Register.ofName?
  | .object [(some name, .null)] => Register.ofName? name
  | _ => none

def displacement? (j : Json) : Option Displacement := do
  match ← alternative? j with
  | ("plus", v) => v.toWord?.map .plus
  | ("minus", v) => v.toWord?.map .minus
  | _ => none

def addressForm? (layout : Layout) (j : Json) : Option AddressForm := do
  match ← alternative? j with
  | ("absolute", v) =>
    let f ← payload? layout ["address"] v
    return .absolute (← required f "address" Json.toWord?)
  | ("base", v) =>
    let f ← payload? layout ["base"] v
    return .base (← required f "base" register?)
  | ("scaled", v) =>
    let f ← payload? layout ["index", "scale"] v
    return .scaled (← required f "index" register?) (← required f "scale" Json.toWord?)
  | ("base_disp", v) =>
    let f ← payload? layout ["base", "disp"] v
    return .baseDisp (← required f "base" register?) (← required f "disp" displacement?)
  | ("base_index", v) =>
    let f ← payload? layout ["base", "index", "scale"] v
    return .baseIndex (← required f "base" register?) (← required f "index" register?)
      (← required f "scale" Json.toWord?)
  | ("scaled_disp", v) =>
    let f ← payload? layout ["index", "scale", "disp"] v
    return .scaledDisp (← required f "index" register?) (← required f "scale" Json.toWord?)
      (← required f "disp" displacement?)
  | ("full", v) =>
    let f ← payload? layout ["base", "index", "scale", "disp"] v
    return .full (← required f "base" register?) (← required f "index" register?)
      (← required f "scale" Json.toWord?) (← required f "disp" displacement?)
  | _ => none

def memoryOperand? (layout : Layout) (j : Json) : Option MemoryOperand := do
  let f ← fields? ["form", "segment", "bits"] j
  return {
    form := ← required f "form" (addressForm? layout)
    segment := ← defaulted f "segment" none (Json.toOption? Json.toText?)
    bits := ← required f "bits" Json.toWord? }

def operand? (layout : Layout) (j : Json) : Option Operand := do
  match ← alternative? j with
  | ("immediate", v) => v.toWord?.map .immediate
  | ("register", v) =>
    let f ← payload? layout ["name", "bits"] v
    return .register (← required f "name" Json.toText?) (← required f "bits" Json.toWord?)
  | ("memory", v) => (memoryOperand? layout v).map .memory
  | _ => none

def snapshot? (j : Json) : Option Snapshot := do
  let words ← j.toList? Json.toWord?
  if h : words.length = 8 then some ⟨words.toArray, by simpa using h⟩ else none

/-- The serial number of a record has 64 bits. -/
def serial? (j : Json) : Option (BitVec 64) :=
  j.toNat?.bind fun n => if n < 0x10000000000000000 then some (BitVec.ofNat 64 n) else none

def instruction? (layout : Layout) (j : Json) : Option Instruction := do
  let f ← fields?
    ["id", "address", "mnemonic", "operands", "context", "read_address", "write_address"] j
  return {
    id := ← defaulted f "id" 0 serial?
    address := ← required f "address" Json.toWord?
    mnemonic := ← required f "mnemonic" Json.toText?
    operands := ← defaulted f "operands" [] (Json.toList? (operand? layout))
    context := ← defaulted f "context" Snapshot.zero snapshot?
    readAddress := ← defaulted f "read_address" none (Json.toOption? Json.toWord?)
    writeAddress := ← defaulted f "write_address" none (Json.toOption? Json.toWord?) }

/-- The records of a trace text, numbered by their position. -/
def trace? (text : String) : Option (List Instruction) := do
  let records ← (← Json.parse? text).toList? (instruction? .positional)
  return records.zipIdx.map fun (insn, i) => { insn with id := BitVec.ofNat 64 i }

/-! ## Writing -/

def ofAlternative (name : String) (value : Json) : Json := Json.ofFields [(name, value)]

def ofRegister (r : Register) : Json := Json.ofText r.name

def ofDisplacement : Displacement → Json
  | .plus w => ofAlternative "plus" (Json.ofWord w)
  | .minus w => ofAlternative "minus" (Json.ofWord w)

def ofAddressForm : AddressForm → Json
  | .absolute address =>
    ofAlternative "absolute" (Json.ofFields [("address", Json.ofWord address)])
  | .base b => ofAlternative "base" (Json.ofFields [("base", ofRegister b)])
  | .scaled i scale =>
    ofAlternative "scaled" (Json.ofFields [("index", ofRegister i), ("scale", Json.ofWord scale)])
  | .baseDisp b disp =>
    ofAlternative "base_disp"
      (Json.ofFields [("base", ofRegister b), ("disp", ofDisplacement disp)])
  | .baseIndex b i scale =>
    ofAlternative "base_index"
      (Json.ofFields [("base", ofRegister b), ("index", ofRegister i), ("scale", Json.ofWord scale)])
  | .scaledDisp i scale disp =>
    ofAlternative "scaled_disp"
      (Json.ofFields [("index", ofRegister i), ("scale", Json.ofWord scale),
        ("disp", ofDisplacement disp)])
  | .full b i scale disp =>
    ofAlternative "full"
      (Json.ofFields [("base", ofRegister b), ("index", ofRegister i), ("scale", Json.ofWord scale),
        ("disp", ofDisplacement disp)])

def ofMemoryOperand (m : MemoryOperand) : Json :=
  Json.ofFields [("form", ofAddressForm m.form), ("segment", Json.ofOption Json.ofText m.segment),
    ("bits", Json.ofWord m.bits)]

def ofOperand : Operand → Json
  | .immediate value => ofAlternative "immediate" (Json.ofWord value)
  | .register name bits =>
    ofAlternative "register" (Json.ofFields [("name", Json.ofText name), ("bits", Json.ofWord bits)])
  | .memory m => ofAlternative "memory" (ofMemoryOperand m)

def ofSnapshot (s : Snapshot) : Json := Json.ofList Json.ofWord s.toList

def ofInstruction (insn : Instruction) : Json :=
  Json.ofFields [
    ("id", Json.ofNat insn.id.toNat),
    ("address", Json.ofWord insn.address),
    ("mnemonic", Json.ofText insn.mnemonic),
    ("operands", Json.ofList ofOperand insn.operands),
    ("context", ofSnapshot insn.context),
    ("read_address", Json.ofOption Json.ofWord insn.readAddress),
    ("write_address", Json.ofOption Json.ofWord insn.writeAddress)]

end Record

end TraceReplay
