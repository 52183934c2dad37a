/-
  TraceReplay.Proofs.JsonText — a written value is read back.

  Writing escapes characters one by one, and each is read back from its escape
  (`literalText?_escaped`). A text is cut into tokens from left to right: what ends behind
  punctuation or a quote leaves nothing pending (`Settled`), a name or a number is settled by
  whatever comes next (`Reads`). The tokens of a value hand it to the innermost unfinished
  array or object, whatever encloses it (`Yields`). So a value whose numbers can be read is read
  back from its text (`parse?_render`).
-/

import Mathlib.Data.List.Basic
import TraceReplay.Json.Printer
import TraceReplay.Json.Reader
import TraceReplay.Proofs.Digits

namespace TraceReplay.Json

/-! ## String literals -/

def unitOf (c : Char) : TextUnit :=
  if c.toNat < 0x20 then .unit c.toNat else .char c

theorem toList_escapeChar (c : Char) : (escapeChar c).toList =
    if c = '"' then ['\\', '"'] else if c = '\\' then ['\\', '\\']
    else if c.toNat < 0x20 then '\\' :: 'u' :: (Word.hex8 (BitVec.ofNat 32 c.toNat)).toList.drop 4 else [c] := by
  unfold escapeChar
  split_ifs <;> simp

/-- The four digits of a control character's escape. -/
theorem hex8_drop_control {n : Nat} (h : n < 0x20) :
    ∃ a b c d, (Word.hex8 (BitVec.ofNat 32 n)).toList.drop 4 = [a, b, c, d] ∧
      Word.ofDigits? 16 Word.hexDigit? [a, b, c, d] = some n := by
  have hn : (BitVec.ofNat 32 n).toNat = n := by rw [BitVec.toNat_ofNat, Nat.mod_eq_of_lt (by omega)]
  have hshort : (Nat.toDigits 16 n).length ≤ 4 := (Nat.length_toDigits_le_iff (by decide) (by decide)).mpr (by omega)
  have hdrop : (Word.hex8 (BitVec.ofNat 32 n)).toList.drop 4 =
      List.replicate (4 - (Nat.toDigits 16 n).length) '0' ++ Nat.toDigits 16 n := by
    rw [Word.toList_hex8, hn, List.drop_append_of_le_length (by rw [List.length_replicate]; omega), List.drop_replicate,
      show 8 - (Nat.toDigits 16 n).length - 4 = 4 - (Nat.toDigits 16 n).length by omega]
  have hlength : ((Word.hex8 (BitVec.ofNat 32 n)).toList.drop 4).length = 4 := by
    rw [List.length_drop, Word.length_hex8]
  obtain ⟨a, b, c, d, hdigits⟩ := List.length_eq_four.mp hlength
  refine ⟨a, b, c, d, hdigits, ?_⟩
  rw [← hdigits, hdrop, Word.ofDigits?_zeros rfl, Word.ofDigits?_hex]

theorem textUnits?_escapeChar (c : Char) (rest : List Char) :
    textUnits? ((escapeChar c).toList ++ rest) = (textUnits? rest).map (unitOf c :: ·) := by
  rw [toList_escapeChar]
  split_ifs with hquote hbackslash hcontrol
  · subst hquote
    simp [textUnits?, shortEscape?, unitOf, Option.map_eq_bind]
  · subst hbackslash
    simp [textUnits?, shortEscape?, unitOf, Option.map_eq_bind]
  · obtain ⟨_, _, _, _, hdigits, hvalue⟩ := hex8_drop_control hcontrol
    rw [hdigits]
    simp [textUnits?, hvalue, unitOf, hcontrol, Option.map_eq_bind]
  · simp [textUnits?, unitOf, hbackslash, hcontrol, Option.map_eq_bind]

/-- No escape that writing uses names a surrogate. -/
theorem joinUnits?_unitOf (c : Char) (units : List TextUnit) :
    joinUnits? (unitOf c :: units) = (joinUnits? units).map (c :: ·) := by
  unfold unitOf
  split
  · rename_i h
    have hhigh : isHighSurrogate c.toNat = false := by simp [isHighSurrogate]; omega
    have hlow : isLowSurrogate c.toNat = false := by simp [isLowSurrogate]; omega
    rcases units with _ | ⟨_ | _, units⟩ <;> simp [joinUnits?, hhigh, hlow, Char.ofNat_toNat]
  · rw [joinUnits?]

theorem literalText?_escaped (s : String) :
    literalText? (s.toList.flatMap fun c => (escapeChar c).toList) = some (some s) := by
  have hunits : ∀ cs : List Char, textUnits? (cs.flatMap fun c => (escapeChar c).toList) = some (cs.map unitOf) := by
    intro cs
    induction cs with
    | nil => rfl
    | cons c cs ih => rw [List.flatMap_cons, textUnits?_escapeChar, ih]; rfl
  have hjoin : ∀ cs : List Char, joinUnits? (cs.map unitOf) = some cs := by
    intro cs
    induction cs with
    | nil => rfl
    | cons c cs ih => rw [List.map_cons, joinUnits?_unitOf, ih]; rfl
  rw [literalText?, hunits, Option.map_some, hjoin, Option.map_some, String.ofList_toList]

/-! ## Tokens -/

namespace Lexer

/-- The characters give the tokens and leave nothing pending. -/
def Settled (cs : List Char) (tokens : List Token) : Prop :=
  ∀ before, cs.foldlM step ⟨.blank, before⟩ = some ⟨.blank, tokens.reverse ++ before⟩

/-- The characters give the tokens once what is pending is settled. -/
def Reads (cs : List Char) (tokens : List Token) : Prop :=
  ∀ before, (cs.foldlM step ⟨.blank, before⟩).bind settle = some ⟨.blank, tokens.reverse ++ before⟩

variable {cs ds : List Char} {tokens more : List Token}

theorem Settled.reads (h : Settled cs tokens) : Reads cs tokens := by
  intro before
  rw [h before]
  rfl

theorem settled_nil : Settled [] [] := fun _ => rfl

theorem Settled.append_reads (h : Settled cs tokens) (h' : Reads ds more) : Reads (cs ++ ds) (tokens ++ more) := by
  intro before
  rw [List.foldlM_append, h before, Option.bind_eq_bind, Option.bind_some, h', List.reverse_append, List.append_assoc]

/-- Punctuation settles what is pending. -/
theorem Reads.punctuation {c : Char} {t : Token} (h : Reads cs tokens) (hc : punctuation? c = some t) :
    Settled (cs ++ [c]) (tokens ++ [t]) := by
  intro before
  obtain ⟨s, hs, hsettle⟩ := Option.bind_eq_some_iff.mp (h before)
  have hblank : isBlank c = false := by
    unfold punctuation? at hc
    split at hc <;> first | rfl | cases hc
  have hquote : c ≠ '"' := by
    rintro rfl
    cases hc
  have hstep : s.step c = s.settle.map fun s => { s with tokens := t :: s.tokens } := by
    cases hpending : s.pending with
    | quoted => simp [settle, hpending] at hsettle
    | blank => simp [step, hpending, hblank, hquote, hc]
    | bare => simp [step, hpending, hblank, hquote, hc]
  rw [List.foldlM_append, hs, Option.bind_eq_bind, Option.bind_some, List.foldlM_cons, hstep, hsettle]
  simp

/-! ### Strings -/

theorem foldlM_escapeChar (c : Char) (seen : List Char) (before : List Token) :
    (escapeChar c).toList.foldlM step ⟨.quoted seen false, before⟩ =
      some ⟨.quoted ((escapeChar c).toList.reverse ++ seen) false, before⟩ := by
  rw [toList_escapeChar]
  split_ifs with hquote hbackslash hcontrol
  · rfl
  · rfl
  · obtain ⟨a, b, c', d, hdigits, -⟩ := hex8_drop_control hcontrol
    have hplain {x : Char} (hx : x ∈ [a, b, c', d]) : x ≠ '"' ∧ x ≠ '\\' := by
      have halnum := Word.isAlphanum_hex8 (List.mem_of_mem_drop (hdigits ▸ hx))
      constructor <;> (rintro rfl; cases halnum)
    simp [hdigits, step, hplain]
  · simp [step, hquote, hbackslash]

theorem foldlM_escaped (cs seen : List Char) (before : List Token) :
    (cs.flatMap fun c => (escapeChar c).toList).foldlM step ⟨.quoted seen false, before⟩ =
      some ⟨.quoted ((cs.flatMap fun c => (escapeChar c).toList).reverse ++ seen) false, before⟩ := by
  induction cs generalizing seen with
  | nil => rfl
  | cons c cs ih =>
    rw [List.flatMap_cons, List.foldlM_append, foldlM_escapeChar, Option.bind_eq_bind, Option.bind_some, ih,
      List.reverse_append, List.append_assoc]

theorem toList_quote (s : String) :
    (quote (some s)).toList = '"' :: s.toList.flatMap (fun c => (escapeChar c).toList) ++ ['"'] := by
  have hfold : ∀ (cs : List Char) (written : String),
      (cs.foldl (fun written c => written ++ escapeChar c) written).toList =
        written.toList ++ cs.flatMap fun c => (escapeChar c).toList := by
    intro cs
    induction cs with
    | nil => simp
    | cons c cs ih =>
      intro written
      rw [List.foldl_cons, ih, String.toList_append, List.append_assoc, List.flatMap_cons]
  rw [quote, String.toList_append, hfold]
  rfl

theorem settled_quote (text : Option String) : Settled (quote text).toList [.text text] := by
  intro before
  cases text with
  | none => rfl
  | some s =>
    rw [toList_quote, List.cons_append, List.foldlM_cons]
    have hopen : step ⟨.blank, before⟩ '"' = some ⟨.quoted [] false, before⟩ := rfl
    rw [hopen, Option.bind_eq_bind, Option.bind_some, List.foldlM_append, foldlM_escaped, Option.bind_eq_bind,
      Option.bind_some, List.append_nil]
    have hclose : step ⟨.quoted (s.toList.flatMap fun c => (escapeChar c).toList).reverse false, before⟩ '"' =
        some ⟨.blank, .text (some s) :: before⟩ := by
      simp [step, literalText?_escaped]
    rw [List.foldlM_cons, hclose]
    rfl

/-! ### Names and numbers -/

def IsPlain (c : Char) : Prop := isBlank c = false ∧ c ≠ '"' ∧ punctuation? c = none

theorem foldlM_plain {seen : List Char} (h : ∀ c ∈ cs, IsPlain c) (before : List Token) :
    cs.foldlM step ⟨.bare seen, before⟩ = some ⟨.bare (cs.reverse ++ seen), before⟩ := by
  induction cs generalizing seen with
  | nil => rfl
  | cons c cs ih =>
    obtain ⟨hblank, hquote, hpunctuation⟩ := h c List.mem_cons_self
    have hstep : step ⟨.bare seen, before⟩ c = some ⟨.bare (c :: seen), before⟩ := by
      simp [step, hblank, hquote, hpunctuation]
    rw [List.foldlM_cons, hstep, Option.bind_eq_bind, Option.bind_some, ih fun d hd => h d (List.mem_cons_of_mem c hd),
      List.reverse_cons, List.append_assoc, List.singleton_append]

theorem reads_bare {v : Json} (hnil : cs ≠ []) (h : ∀ c ∈ cs, IsPlain c) (hv : bareWord? cs = some v) :
    Reads cs [.scalar v] := by
  intro before
  cases cs with
  | nil => exact absurd rfl hnil
  | cons c cs =>
    obtain ⟨hblank, hquote, hpunctuation⟩ := h c List.mem_cons_self
    have hstep : step ⟨.blank, before⟩ c = some ⟨.bare [c], before⟩ := by
      simp [step, hblank, hquote, hpunctuation]
    rw [List.foldlM_cons, hstep, Option.bind_eq_bind, Option.bind_some,
      foldlM_plain fun d hd => h d (List.mem_cons_of_mem c hd)]
    simp [settle, hv]

theorem isPlain_of_isAlphanum {c : Char} (h : c.isAlphanum = true) : IsPlain c := by
  have hne {d : Char} (hd : d.isAlphanum = false) : c ≠ d := by
    rintro rfl
    exact absurd (h.symm.trans hd) (by decide)
  refine ⟨?_, hne rfl, ?_⟩
  · simp [isBlank, hne (d := ' ') rfl, hne (d := '\t') rfl, hne (d := '\n') rfl, hne (d := '\r') rfl]
  · unfold punctuation?
    split <;> first | rfl | cases h

theorem isPlain_of_isDigit {c : Char} (h : c.isDigit = true) : IsPlain c :=
  isPlain_of_isAlphanum (by rw [Char.isAlphanum, h, Bool.or_true])

/-- One of the three names is a bare word. -/
theorem reads_name {v : Json} (hnil : cs ≠ []) (h : cs.all Char.isAlphanum = true) (hv : bareWord? cs = some v) :
    Reads cs [.scalar v] :=
  reads_bare hnil (fun c hc => isPlain_of_isAlphanum (List.all_eq_true.mp h c hc)) hv

def Drops (cs rest : List Char) : Prop := ∃ taken, cs = taken ++ rest ∧ ∀ c ∈ taken, IsPlain c

theorem Drops.refl (cs : List Char) : Drops cs cs := ⟨[], rfl, by simp⟩

theorem Drops.trans {rest : List Char} (h : Drops cs ds) (h' : Drops ds rest) : Drops cs rest := by
  obtain ⟨taken, rfl, htaken⟩ := h
  obtain ⟨taken', rfl, htaken'⟩ := h'
  refine ⟨taken ++ taken', by rw [List.append_assoc], fun c hc => ?_⟩
  exact (List.mem_append.mp hc).elim (htaken c) (htaken' c)

theorem drops_cons {c : Char} (hc : IsPlain c) (cs : List Char) : Drops (c :: cs) cs :=
  ⟨[c], rfl, fun _ h => List.mem_singleton.mp h ▸ hc⟩

theorem drops_digits (h : dropDigits? cs = some ds) : Drops cs ds := by
  unfold dropDigits? at h
  split at h
  · split at h
    · cases h
      refine ⟨_, (List.takeWhile_append_dropWhile).symm, fun c hc => isPlain_of_isDigit ?_⟩
      exact List.mem_takeWhile_imp hc
    · cases h
  · cases h

theorem drops_integer (h : dropInteger? cs = some ds) : Drops cs ds := by
  unfold dropInteger? at h
  split at h
  · cases h
    exact drops_cons (isPlain_of_isDigit rfl) _
  · exact drops_digits h

theorem drops_fraction (h : dropFraction? cs = some ds) : Drops cs ds := by
  unfold dropFraction? at h
  split at h
  · exact (drops_cons ⟨rfl, by decide, rfl⟩ _).trans (drops_digits h)
  · cases h
    exact .refl cs

theorem drops_sign (cs : List Char) : Drops cs (dropSign cs) := by
  unfold dropSign
  split
  · exact drops_cons ⟨rfl, by decide, rfl⟩ _
  · exact drops_cons ⟨rfl, by decide, rfl⟩ _
  · exact .refl cs

theorem drops_exponent (h : dropExponent? cs = some ds) : Drops cs ds := by
  unfold dropExponent? at h
  split at h
  · exact (drops_cons ⟨rfl, by decide, rfl⟩ _).trans ((drops_sign _).trans (drops_digits h))
  · exact (drops_cons ⟨rfl, by decide, rfl⟩ _).trans ((drops_sign _).trans (drops_digits h))
  · cases h
    exact .refl cs

/-- A number is one bare word. -/
theorem isPlain_of_isNumber (h : isNumber cs = true) : ∀ c ∈ cs, IsPlain c := by
  have hdrops : Drops cs [] := by
    obtain ⟨r, hinteger, h⟩ := Option.bind_eq_some_iff.mp (eq_of_beq h)
    obtain ⟨r', hfraction, hexponent⟩ := Option.bind_eq_some_iff.mp h
    have hmagnitude := (drops_integer hinteger).trans ((drops_fraction hfraction).trans (drops_exponent hexponent))
    split at hmagnitude
    · exact (drops_cons ⟨rfl, by decide, rfl⟩ _).trans hmagnitude
    · exact hmagnitude
  obtain ⟨taken, rfl, htaken⟩ := hdrops
  rwa [List.append_nil]

theorem reads_number {n : Number} (h : Number.ofChars? n.text.toList = some n) :
    Reads n.text.toList [.scalar (.number n)] := by
  have hnumber : isNumber n.text.toList = true := by
    by_contra hnot
    rw [Number.ofChars?, if_neg hnot] at h
    cases h
  have hname {name : List Char} (hname : isNumber name = false) : n.text.toList ≠ name := by
    rintro heq
    exact absurd (heq ▸ hnumber) (by simp [hname])
  refine reads_bare (hname rfl) (isPlain_of_isNumber hnumber) ?_
  rw [bareWord?, if_neg (hname rfl), if_neg (hname rfl), if_neg (hname rfl), h]
  rfl

end Lexer

/-- A natural number is zero or does not start with a zero. -/
theorem toDigits_head {n : Nat} (h : 0 < n) : ∃ d ds, Nat.toDigits 10 n = d :: ds ∧ d ≠ '0' := by
  induction n using Nat.strongRecOn with
  | ind n ih =>
    rw [Nat.toDigits_eq_if (by decide)]
    split
    · rename_i hlt
      refine ⟨n.digitChar, [], rfl, ?_⟩
      interval_cases n <;> decide
    · rename_i hge
      obtain ⟨d, ds, hdigits, hd⟩ := ih (n / 10) (by omega) (by omega)
      exact ⟨d, _, by rw [hdigits]; rfl, hd⟩

theorem isNumber_toDigits (n : Nat) : isNumber (Nat.toDigits 10 n) = true := by
  have hdigit {c : Char} (hc : c ∈ Nat.toDigits 10 n) : c.isDigit = true :=
    Nat.isDigit_of_mem_toDigits (by decide) (by decide) hc
  rcases Nat.eq_zero_or_pos n with rfl | hpos
  · rfl
  · obtain ⟨d, ds, hdigits, hd⟩ := toDigits_head hpos
    rw [hdigits] at hdigit ⊢
    have hminus : d ≠ '-' := by
      rintro rfl
      cases hdigit List.mem_cons_self
    have hdrop : (d :: ds).dropWhile Char.isDigit = [] := List.dropWhile_eq_nil_iff.mpr fun c hc => hdigit hc
    simp [isNumber, hminus, dropInteger?, hd, dropDigits?, hdigit List.mem_cons_self, hdrop, dropFraction?,
      dropExponent?]

theorem ofChars?_natural (n : Nat) : Number.ofChars? (Number.natural n).text.toList = some (.natural n) := by
  have htext : (Number.natural n).text.toList = Nat.toDigits 10 n := by simp [Number.text]
  rw [htext, Number.ofChars?, if_pos (isNumber_toDigits n), Word.ofDigits?_decimal]

/-! ## Values -/

inductive Legible : Json → Prop
  | null : Legible null
  | bool (b : Bool) : Legible (bool b)
  | number {n : Number} : Number.ofChars? n.text.toList = some n → Legible (number n)
  | string (text : Option String) : Legible (string text)
  | array {items : List Json} : (∀ item ∈ items, Legible item) → Legible (array items)
  | object {members : List (Option String × Json)} : (∀ m ∈ members, Legible m.2) → Legible (object members)

@[simp] theorem legible_ofNat (n : Nat) : (ofNat n).Legible := .number (ofChars?_natural n)

@[simp] theorem legible_ofWord (w : Word) : (ofWord w).Legible := legible_ofNat w.toNat

@[simp] theorem legible_ofText (s : String) : (ofText s).Legible := .string (some s)

@[simp] theorem legible_ofOption {α : Type} {write : α → Json} (h : ∀ a, (write a).Legible) (a : Option α) :
    (ofOption write a).Legible := by
  cases a with
  | none => exact .null
  | some a => exact h a

@[simp] theorem legible_ofList {α : Type} {write : α → Json} (h : ∀ a, (write a).Legible) (as : List α) :
    (ofList write as).Legible := by
  refine .array fun item hitem => ?_
  obtain ⟨a, -, rfl⟩ := List.mem_map.mp hitem
  exact h a

theorem legible_ofFields {fields : List (String × Json)} (h : ∀ f ∈ fields, f.2.Legible) :
    (ofFields fields).Legible := by
  refine .object fun m hm => ?_
  obtain ⟨f, hf, rfl⟩ := List.mem_map.mp hm
  exact h f hf

/-- The tokens hand the value over, whatever it stands in. -/
def Yields (tokens : List Token) (j : Json) : Prop :=
  ∀ stack, tokens.foldlM Machine.step ⟨stack, .value⟩ = Machine.complete j stack

/-- The tokens of a value do not start with a closing bracket. -/
theorem Yields.firstItem {tokens : List Token} {j : Json} (h : Yields tokens j) (stack : List Frame) :
    tokens.foldlM Machine.step ⟨stack, .firstItem⟩ = Machine.complete j stack := by
  have hempty := h []
  cases tokens with
  | nil => cases hempty
  | cons t tokens =>
    have hstep : Machine.step ⟨stack, .firstItem⟩ t = Machine.step ⟨stack, .value⟩ t := by
      cases t with
      | closeBracket => cases hempty
      | _ => rcases stack with _ | ⟨_ | _ | _, _⟩ <;> rfl
    rw [← h stack, List.foldlM_cons, List.foldlM_cons, hstep]

/-- The tokens take the innermost unfinished array or object to one that has more in it. -/
def Extends (expected : List Expected) (frame : Frame) (tokens : List Token) (frame' : Frame) : Prop :=
  ∀ stack, ∀ e ∈ expected, tokens.foldlM Machine.step ⟨frame :: stack, e⟩ = some ⟨frame' :: stack, .separator⟩

section Extends

variable {expected : List Expected} {e : Expected} {f g k : Frame} {tokens more : List Token} {j : Json}

theorem Extends.comma (h : Extends expected f tokens g) (he : e ∈ expected)
    (hcomma : ∀ stack, Machine.step ⟨g :: stack, .separator⟩ .comma = some ⟨g :: stack, e⟩)
    (h' : Extends expected g more k) : Extends expected f (tokens ++ .comma :: more) k := by
  intro stack e' he'
  rw [List.foldlM_append, h stack e' he', Option.bind_eq_bind, Option.bind_some, List.foldlM_cons, hcomma]
  exact h' stack e he

theorem Extends.enclose {first last : Token} (h : Extends expected f tokens g) (he : e ∈ expected)
    (hfirst : ∀ stack, Machine.start stack first = some ⟨f :: stack, e⟩)
    (hlast : ∀ stack, Machine.step ⟨g :: stack, .separator⟩ last = Machine.complete j stack) :
    Yields (first :: tokens ++ [last]) j := by
  intro stack
  have hstep : Machine.step ⟨stack, .value⟩ first = some ⟨f :: stack, e⟩ := hfirst stack
  rw [List.cons_append, List.foldlM_cons, hstep, Option.bind_eq_bind, Option.bind_some, List.foldlM_append,
    h stack e he, Option.bind_eq_bind, Option.bind_some, List.foldlM_cons, hlast]
  simp

end Extends

def YieldsItems (tokens : List Token) (items : List Json) : Prop :=
  ∀ done, Extends [.value, .firstItem] (.array done) tokens (.array (items.reverse ++ done))

def YieldsMembers (tokens : List Token) (members : List (Option String × Json)) : Prop :=
  ∀ done, Extends [.key, .firstKey] (.object done) tokens (.object (members.reverse ++ done))

theorem Yields.singleton {tokens : List Token} {item : Json} (h : Yields tokens item) : YieldsItems tokens [item] := by
  intro done stack e he
  rcases List.mem_pair.mp he with rfl | rfl
  · exact h _
  · exact h.firstItem _

theorem YieldsItems.append {tokens more : List Token} {items others : List Json} (h : YieldsItems tokens items)
    (h' : YieldsItems more others) : YieldsItems (tokens ++ .comma :: more) (items ++ others) := by
  intro done
  rw [List.reverse_append, List.append_assoc]
  exact (h done).comma List.mem_cons_self (fun _ => rfl) (h' _)

theorem YieldsItems.array {tokens : List Token} {items : List Json} (h : YieldsItems tokens items) :
    Yields (.openBracket :: tokens ++ [.closeBracket]) (.array items) := by
  refine (h []).enclose (List.mem_cons_of_mem _ List.mem_cons_self) (fun _ => rfl) fun stack => ?_
  rw [List.append_nil, Machine.step, List.reverse_reverse]

theorem Yields.member {tokens : List Token} {value : Json} (key : Option String) (h : Yields tokens value) :
    YieldsMembers (.text key :: .colon :: tokens) [(key, value)] := by
  intro done stack e he
  have hkey : Machine.step ⟨.object done :: stack, e⟩ (.text key) = some ⟨.member done key :: stack, .colon⟩ := by
    rcases List.mem_pair.mp he with rfl | rfl <;> rfl
  rw [List.foldlM_cons, hkey]
  exact h _

theorem YieldsMembers.append {tokens more : List Token} {members others : List (Option String × Json)}
    (h : YieldsMembers tokens members) (h' : YieldsMembers more others) :
    YieldsMembers (tokens ++ .comma :: more) (members ++ others) := by
  intro done
  rw [List.reverse_append, List.append_assoc]
  exact (h done).comma List.mem_cons_self (fun _ => rfl) (h' _)

theorem YieldsMembers.object {tokens : List Token} {members : List (Option String × Json)}
    (h : YieldsMembers tokens members) : Yields (.openBrace :: tokens ++ [.closeBrace]) (.object members) := by
  refine (h []).enclose (List.mem_cons_of_mem _ List.mem_cons_self) (fun _ => rfl) fun stack => ?_
  rw [List.append_nil, Machine.step, List.reverse_reverse]

/-! ## The text of a value -/

theorem renderItemsAfter_cons_cons (written : String) (item next : Json) (rest : List Json) :
    renderItemsAfter written (item :: next :: rest) =
      renderItemsAfter (renderAfter written item ++ ",") (next :: rest) := rfl

theorem renderMembersAfter_cons_cons (written : String) (key : Option String) (value : Json)
    (next : Option String × Json) (rest : List (Option String × Json)) :
    renderMembersAfter written ((key, value) :: next :: rest) =
      renderMembersAfter (renderAfter (written ++ quote key ++ ":") value ++ ",") (next :: rest) := rfl

mutual

theorem renderAfter_append (v w : String) : (j : Json) → renderAfter (v ++ w) j = v ++ renderAfter w j
  | .null => String.append_assoc
  | .bool true => String.append_assoc
  | .bool false => String.append_assoc
  | .number _ => String.append_assoc
  | .string _ => String.append_assoc
  | .array items => by
    rw [renderAfter, renderAfter, String.append_assoc, renderItemsAfter_append v _ items, String.append_assoc]
  | .object members => by
    rw [renderAfter, renderAfter, String.append_assoc, renderMembersAfter_append v _ members, String.append_assoc]

theorem renderItemsAfter_append (v w : String) :
    (items : List Json) → renderItemsAfter (v ++ w) items = v ++ renderItemsAfter w items
  | [] => rfl
  | [item] => renderAfter_append v w item
  | item :: next :: rest => by
    rw [renderItemsAfter_cons_cons, renderItemsAfter_cons_cons, renderAfter_append v w item, String.append_assoc,
      renderItemsAfter_append v _ (next :: rest)]

theorem renderMembersAfter_append (v w : String) : (members : List (Option String × Json)) →
    renderMembersAfter (v ++ w) members = v ++ renderMembersAfter w members
  | [] => rfl
  | [(key, value)] => by
    rw [renderMembersAfter, renderMembersAfter, String.append_assoc, String.append_assoc,
      renderAfter_append v _ value, String.append_assoc]
  | (key, value) :: next :: rest => by
    rw [renderMembersAfter_cons_cons, renderMembersAfter_cons_cons, String.append_assoc, String.append_assoc,
      renderAfter_append v _ value, String.append_assoc, renderMembersAfter_append v _ (next :: rest),
      String.append_assoc]

end

theorem renderAfter_eq (written : String) (j : Json) : renderAfter written j = written ++ j.render := by
  rw [render, ← renderAfter_append, String.append_empty]

def renderItems (items : List Json) : String := renderItemsAfter "" items

def renderMembers (members : List (Option String × Json)) : String := renderMembersAfter "" members

theorem render_array (items : List Json) : (array items).render = "[" ++ renderItems items ++ "]" := by
  rw [renderItems, ← renderItemsAfter_append, String.append_empty]
  rfl

theorem render_object (members : List (Option String × Json)) :
    (object members).render = "\x7b" ++ renderMembers members ++ "\x7d" := by
  rw [renderMembers, ← renderMembersAfter_append, String.append_empty]
  rfl

theorem renderItems_cons_cons (item next : Json) (rest : List Json) :
    renderItems (item :: next :: rest) = item.render ++ "," ++ renderItems (next :: rest) := by
  rw [renderItems, renderItems, renderItemsAfter_cons_cons, ← renderItemsAfter_append, String.append_empty]
  rfl

theorem renderMembers_singleton (key : Option String) (value : Json) :
    renderMembers [(key, value)] = quote key ++ ":" ++ value.render := by
  rw [renderMembers, renderMembersAfter, renderAfter_eq, String.empty_append]

theorem renderMembers_cons_cons (key : Option String) (value : Json) (next : Option String × Json)
    (rest : List (Option String × Json)) : renderMembers ((key, value) :: next :: rest) =
      renderMembers [(key, value)] ++ "," ++ renderMembers (next :: rest) := by
  rw [renderMembers, renderMembers, renderMembers, renderMembersAfter_cons_cons, ← renderMembersAfter_append,
    String.append_empty]
  rfl

/-! ## Reading the text of a value -/

open Lexer

def Spelled (j : Json) : Prop := ∃ tokens, Reads j.render.toList tokens ∧ Yields tokens j

theorem Lexer.reads_cons {c : Char} {t : Token} {cs : List Char} {tokens : List Token} (hc : punctuation? c = some t)
    (h : Reads cs tokens) : Reads (c :: cs) (t :: tokens) :=
  (settled_nil.reads.punctuation hc).append_reads h

theorem reads_items {items : List Json} (hnil : items ≠ []) (h : ∀ item ∈ items, Spelled item) :
    ∃ tokens, Reads (renderItems items).toList tokens ∧ YieldsItems tokens items := by
  induction items with
  | nil => exact absurd rfl hnil
  | cons item rest ih =>
    obtain ⟨tokens, hreads, hyields⟩ := h item List.mem_cons_self
    cases rest with
    | nil => exact ⟨tokens, hreads, hyields.singleton⟩
    | cons next rest =>
      obtain ⟨more, hmore, hitems⟩ := ih (List.cons_ne_nil _ _) fun i hi => h i (List.mem_cons_of_mem _ hi)
      refine ⟨_, ?_, hyields.singleton.append hitems⟩
      rw [renderItems_cons_cons, String.toList_append, String.toList_append, List.append_cons]
      exact (hreads.punctuation rfl).append_reads hmore

theorem reads_member {value : Json} (key : Option String) (h : Spelled value) :
    ∃ tokens, Reads (renderMembers [(key, value)]).toList tokens ∧ YieldsMembers tokens [(key, value)] := by
  obtain ⟨tokens, hreads, hyields⟩ := h
  refine ⟨_, ?_, hyields.member key⟩
  rw [renderMembers_singleton, String.toList_append, String.toList_append]
  exact ((settled_quote key).reads.punctuation rfl).append_reads hreads

theorem reads_members {members : List (Option String × Json)} (hnil : members ≠ []) (h : ∀ m ∈ members, Spelled m.2) :
    ∃ tokens, Reads (renderMembers members).toList tokens ∧ YieldsMembers tokens members := by
  induction members with
  | nil => exact absurd rfl hnil
  | cons m rest ih =>
    obtain ⟨key, value⟩ := m
    obtain ⟨tokens, hreads, hyields⟩ := reads_member key (h _ List.mem_cons_self)
    cases rest with
    | nil => exact ⟨tokens, hreads, hyields⟩
    | cons next rest =>
      obtain ⟨more, hmore, hmembers⟩ := ih (List.cons_ne_nil _ _) fun i hi => h i (List.mem_cons_of_mem _ hi)
      refine ⟨_, ?_, hyields.append hmembers⟩
      rw [renderMembers_cons_cons, String.toList_append, String.toList_append, List.append_cons]
      exact (hreads.punctuation rfl).append_reads hmore

theorem yields_scalar (v : Json) : Yields [.scalar v] v := fun stack => by
  simp [List.foldlM_cons, Machine.step, Machine.start]

theorem yields_text (text : Option String) : Yields [.text text] (.string text) := fun stack => by
  simp [List.foldlM_cons, Machine.step, Machine.start]

theorem Legible.spelled {j : Json} (h : j.Legible) : j.Spelled := by
  induction h with
  | null => exact ⟨_, @reads_name ['n', 'u', 'l', 'l'] _ (by simp) rfl rfl, yields_scalar _⟩
  | bool b =>
    cases b with
    | true => exact ⟨_, @reads_name ['t', 'r', 'u', 'e'] _ (by simp) rfl rfl, yields_scalar _⟩
    | false => exact ⟨_, @reads_name ['f', 'a', 'l', 's', 'e'] _ (by simp) rfl rfl, yields_scalar _⟩
  | number h => exact ⟨_, reads_number h, yields_scalar _⟩
  | string text => exact ⟨_, (settled_quote text).reads, yields_text text⟩
  | @array items _ ih =>
    unfold Spelled
    rw [render_array, String.toList_append, String.toList_append]
    by_cases hnil : items = []
    · subst hnil
      exact ⟨_, (Reads.punctuation (reads_cons rfl settled_nil.reads) rfl).reads, fun _ => by simp; rfl⟩
    · obtain ⟨tokens, hreads, hyields⟩ := reads_items hnil ih
      exact ⟨_, ((reads_cons rfl hreads).punctuation rfl).reads, hyields.array⟩
  | @object members _ ih =>
    unfold Spelled
    rw [render_object, String.toList_append, String.toList_append]
    by_cases hnil : members = []
    · subst hnil
      exact ⟨_, (Reads.punctuation (reads_cons rfl settled_nil.reads) rfl).reads, fun _ => by simp; rfl⟩
    · obtain ⟨tokens, hreads, hyields⟩ := reads_members hnil ih
      exact ⟨_, ((reads_cons rfl hreads).punctuation rfl).reads, hyields.object⟩

/-- A value is read back from its text. -/
theorem parse?_render {j : Json} (h : j.Legible) : parse? j.render = some j := by
  obtain ⟨tokens, hreads, hyields⟩ := h.spelled
  have htokens : tokens? j.render.toList = some tokens := by
    obtain ⟨s, hs, hsettle⟩ := Option.bind_eq_some_iff.mp (hreads [])
    rw [tokens?, hs, Option.bind_some, hsettle]
    simp
  rw [parse?, htokens, Option.bind_eq_bind, Option.bind_some, hyields []]
  rfl

end TraceReplay.Json
