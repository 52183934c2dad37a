/-
  TraceReplay.Proofs.Solver.Reader — reading the solver's language.

  The reader goes over a text character by character. Letters and digits make up words; a
  parenthesis opens a frame, for the operator that stands directly before it if there is one, and
  the closing one puts the frame's items together into one item of the frame around it. A semicolon
  ends a command.

  Proved: a written term is read back, wherever it stands in a text (`yields_text`), so `readTerm`
  undoes writing (`readTerm_text`). The names that `symbolText` writes are words of the language
  (`symbolText_isName`) and tell apart both ids and sides (`symbolText_inj`).
-/

import TraceReplay.Proofs.Digits
import TraceReplay.Proofs.Solver.Semantics

namespace TraceReplay

namespace Solver

/-! ## The reader -/

inductive Operator where
  | plus
  | minus
  | times
  | xor
  | negate
  | shiftLeft
  | shiftRight
  | vector
  | assert
  | query

def Operator.ofWord? (word : List Char) : Option Operator :=
  if word = "BVPLUS".toList then some plus
  else if word = "BVSUB".toList then some minus
  else if word = "BVMULT".toList then some times
  else if word = "BVXOR".toList then some xor
  else if word = "BVUMINUS".toList then some negate
  else if word = "BVSHL".toList then some shiftLeft
  else if word = "BVLSHR".toList then some shiftRight
  else if word = "BV".toList then some vector
  else if word = "ASSERT".toList then some assert
  else if word = "QUERY".toList then some query
  else none

inductive Item where
  | term (t : Term String)
  | number (n : Nat)
  | width (n : Nat)
  | command (c : Command)
  | mark (c : Char)

namespace Item

/-- A decimal number, a constant of eight hexadecimal digits, or a name. -/
def ofWord? (word : List Char) : Option Item :=
  match Word.ofDigits? 10 Word.decimalDigit? word with
  | some n => some (.number n)
  | none =>
    match word with
    | '0' :: 'h' :: 'e' :: 'x' :: digits =>
      if digits.length = 8 then
        (Word.ofDigits? 16 Word.hexDigit? digits).map fun n => .term (.constant (BitVec.ofNat 32 n))
      else none
    | c :: _ =>
      if word = "COUNTEREXAMPLE".toList then some (.command .counterexample)
      else if c.isAlpha then some (.term (.symbol (String.ofList word)))
      else none
    | [] => none

def alternatives? : List Item → Option (List (Term String))
  | [.term a] => some [a]
  | .term a :: .mark '|' :: rest => (alternatives? rest).map (a :: ·)
  | _ => none

def group? : List Item → Option Item
  | [.term a, .mark '&', .term b] => some (.term (.and a b))
  | [.term a, .mark '<', .mark '<', .number k] => some (.term (.appendZeros a k))
  | [.term a, .mark '>', .mark '>', .number k] => some (.term (.shiftRight a k))
  | [.term a, .mark '[', .number high, .mark ':', .number low, .mark ']'] => some (.term (.extract a high low))
  | items => (alternatives? items).map fun parts => .term (.or parts)

def application? : Operator → List Item → Option Item
  | .plus, [.number 32, .mark ',', .term a, .mark ',', .term b] => some (.term (.plus a b))
  | .minus, [.number 32, .mark ',', .term a, .mark ',', .term b] => some (.term (.minus a b))
  | .times, [.number 32, .mark ',', .term a, .mark ',', .term b] => some (.term (.times a b))
  | .xor, [.term a, .mark ',', .term b] => some (.term (.xor a b))
  | .negate, [.term a] => some (.term (.negate a))
  | .shiftLeft, [.term a, .mark ',', .term b] => some (.term (.shiftLeftBy a b))
  | .shiftRight, [.term a, .mark ',', .term b] => some (.term (.shiftRightBy a b))
  | .vector, [.number n] => some (.width n)
  | .assert, [.term a, .mark '=', .term b] => some (.command (.assert a b))
  | .query, [.term a, .mark '=', .term b] => some (.command (.query a b))
  | _, _ => none

def close? : Option Operator → List Item → Option Item
  | none => group?
  | some operator => application? operator

def command? : List Item → Option Command
  | [.term (.symbol x), .mark ':', .width n] => some (.declare x n)
  | [.command c] => some c
  | _ => none

end Item

/-- The items of the innermost frame, the frames around it and the commands before them. -/
structure Reading where
  word : List Char
  items : List Item
  outer : List (Option Operator × List Item)
  done : List Command

namespace Reading

def start : Reading := ⟨[], [], [], []⟩

def endWord (s : Reading) : Option Reading :=
  match s.word with
  | [] => some s
  | word => (Item.ofWord? word).map fun item => { s with word := [], items := s.items ++ [item] }

def enter (s : Reading) : Option Reading :=
  match s.word with
  | [] => some ⟨[], [], (none, s.items) :: s.outer, s.done⟩
  | word => (Operator.ofWord? word).map fun operator => ⟨[], [], (some operator, s.items) :: s.outer, s.done⟩

def leave (s : Reading) : Option Reading :=
  match s.outer with
  | [] => none
  | (frame, items) :: outer => (Item.close? frame s.items).map fun item => ⟨[], items ++ [item], outer, s.done⟩

def endCommand (s : Reading) : Option Reading :=
  match s.outer with
  | [] => (Item.command? s.items).map fun c => ⟨[], [], [], s.done ++ [c]⟩
  | _ => none

def punctuate (s : Reading) (c : Char) : Option Reading :=
  match c with
  | ' ' => some s
  | '\n' => some s
  | ')' => s.leave
  | ';' => s.endCommand
  | c => if c ∈ ",&|<>[]:=".toList then some { s with items := s.items ++ [.mark c] } else none

def step (s : Reading) (c : Char) : Option Reading :=
  if c.isAlphanum then some { s with word := s.word ++ [c] }
  else if c = '(' then s.enter
  else s.endWord.bind (·.punctuate c)

def run : Reading → List Char → Option Reading := List.foldlM step

end Reading

def readTerm (text : String) : Option (Term String) :=
  match Reading.start.run (text.toList ++ ['\n']) with
  | some ⟨[], [.term t], [], []⟩ => some t
  | _ => none

def readScript (text : String) : Option Script :=
  match Reading.start.run text.toList with
  | some ⟨[], [], [], commands⟩ => some commands
  | _ => none

/-! ## Texts and their items -/

/-- The text goes on with a character that ends a word and does not open a frame. -/
def Delimited : List Char → Prop
  | [] => False
  | c :: _ => c.isAlphanum = false ∧ c ≠ '('

namespace Reading

variable {items more more' marks before : List Item} {outer : List (Option Operator × List Item)}
  {done : List Command} {rest word : List Char} {frame : Option Operator} {item : Item}
  {text text' sep opening : String}

theorem run_letters (h : ∀ c ∈ word, c.isAlphanum = true) (begun : List Char) :
    run ⟨begun, items, outer, done⟩ (word ++ rest) = run ⟨begun ++ word, items, outer, done⟩ rest := by
  induction word generalizing begun with
  | nil => simp
  | cons c word ih =>
    have hstep : step ⟨begun, items, outer, done⟩ c = some ⟨begun ++ [c], items, outer, done⟩ :=
      if_pos (h c List.mem_cons_self)
    have hrest := ih (fun d hd => h d (List.mem_cons_of_mem c hd)) (begun ++ [c])
    rw [List.append_assoc] at hrest
    rw [← List.singleton_append (l := word), ← hrest]
    show (step _ c).bind _ = _
    rw [hstep]
    rfl

/-- The text adds the items to the innermost frame, whatever is there already. -/
def Yields (text : String) (more : List Item) : Prop :=
  ∀ items outer done rest, Delimited rest →
    run ⟨[], items, outer, done⟩ (text.toList ++ rest) = run ⟨[], items ++ more, outer, done⟩ rest

/-- The same, and the text ends no word: it may be followed by anything. -/
def Separates (sep : String) (marks : List Item) : Prop :=
  ∀ items outer done rest, Delimited (sep.toList ++ rest) ∧
    run ⟨[], items, outer, done⟩ (sep.toList ++ rest) = run ⟨[], items ++ marks, outer, done⟩ rest

def Opens (opening : String) (frame : Option Operator) (before : List Item) : Prop :=
  ∀ items outer done rest,
    run ⟨[], items, outer, done⟩ (opening.toList ++ rest) = run ⟨[], before, (frame, items) :: outer, done⟩ rest

theorem yields_word (hne : text.toList ≠ []) (h : ∀ c ∈ text.toList, c.isAlphanum = true)
    (hi : Item.ofWord? text.toList = some item) : Yields text [item] := by
  intro items outer done rest hrest
  cases rest with
  | nil => exact absurd hrest id
  | cons c rest =>
    obtain ⟨hc, hp⟩ := hrest
    rw [run_letters h, List.nil_append]
    have hend : endWord ⟨text.toList, items, outer, done⟩ = some ⟨[], items ++ [item], outer, done⟩ := by
      unfold endWord
      split
      · rename_i hw
        exact absurd hw hne
      · simp only [hi, Option.map_some]
    have hstep : step ⟨text.toList, items, outer, done⟩ c = step ⟨[], items ++ [item], outer, done⟩ c := by
      simp only [step, hc, hp, hend, if_false, Bool.false_eq_true]
      rfl
    show (step _ c).bind _ = (step _ c).bind _
    rw [hstep]

theorem Yields.mark (h : Yields text more) (hs : Separates sep marks) : Yields (text ++ sep) (more ++ marks) := by
  intro items outer done rest _
  obtain ⟨hd, hr⟩ := hs (items ++ more) outer done rest
  rw [String.toList_append, List.append_assoc, h _ _ _ _ hd, hr, List.append_assoc]

theorem Yields.separated (h : Yields text more) (hs : Separates sep marks) (h' : Yields text' more') :
    Yields (text ++ sep ++ text') (more ++ marks ++ more') := by
  intro items outer done rest hrest
  obtain ⟨hd, hr⟩ := hs (items ++ more) outer done (text'.toList ++ rest)
  rw [String.toList_append, String.toList_append, List.append_assoc, List.append_assoc, h _ _ _ _ hd, hr,
    h' _ _ _ _ hrest]
  simp only [List.append_assoc]

/-- A frame around the text comes to one item. -/
theorem Yields.framed (h : Yields text more) (ho : Opens opening frame before)
    (hc : Item.close? frame (before ++ more) = some item) : Yields (opening ++ text ++ ")") [item] := by
  intro items outer done rest _
  have hd : Delimited (')' :: rest) := ⟨rfl, by decide⟩
  have hleave : run ⟨[], before ++ more, (frame, items) :: outer, done⟩ (')' :: rest) =
      run ⟨[], items ++ [item], outer, done⟩ rest := by
    show (leave ⟨[], before ++ more, (frame, items) :: outer, done⟩).bind (·.run rest) = _
    simp only [leave, hc, Option.map_some, Option.bind_some]
  rw [String.toList_append, String.toList_append, List.append_assoc, List.append_assoc, ho]
  exact (h _ _ _ _ hd).trans hleave

/-- Two texts in a frame, with a separator between them. -/
theorem Yields.pair (h : Yields text more) (hs : Separates sep marks) (h' : Yields text' more')
    (ho : Opens opening frame before) (hc : Item.close? frame (before ++ (more ++ marks ++ more')) = some item) :
    Yields (opening ++ text ++ sep ++ text' ++ ")") [item] := by
  simpa only [String.append_assoc] using (h.separated hs h').framed ho hc

theorem separates_comma : Separates ", " [.mark ','] := fun _ _ _ _ => ⟨⟨rfl, by decide⟩, rfl⟩

theorem separates_and : Separates " & " [.mark '&'] := fun _ _ _ _ => ⟨⟨rfl, by decide⟩, rfl⟩

theorem separates_or : Separates " | " [.mark '|'] := fun _ _ _ _ => ⟨⟨rfl, by decide⟩, rfl⟩

theorem separates_left : Separates " << " [.mark '<', .mark '<'] := fun _ _ _ _ =>
  ⟨⟨rfl, by decide⟩, by rw [List.append_cons]; rfl⟩

theorem separates_right : Separates " >> " [.mark '>', .mark '>'] := fun _ _ _ _ =>
  ⟨⟨rfl, by decide⟩, by rw [List.append_cons]; rfl⟩

theorem separates_bracket : Separates "[" [.mark '['] := fun _ _ _ _ => ⟨⟨rfl, by decide⟩, rfl⟩

theorem separates_colon : Separates ":" [.mark ':'] := fun _ _ _ _ => ⟨⟨rfl, by decide⟩, rfl⟩

theorem separates_closing : Separates "]" [.mark ']'] := fun _ _ _ _ => ⟨⟨rfl, by decide⟩, rfl⟩

theorem opens_group : Opens "(" none [] := fun _ _ _ _ => rfl

end Reading

/-! ## Written terms -/

structure IsName (text : String) : Prop where
  nonempty : text.toList ≠ []
  alphanumeric : ∀ c ∈ text.toList, c.isAlphanum = true
  named : Item.ofWord? text.toList = some (.term (.symbol text))

section

open Reading

theorem IsName.yields {text : String} (h : IsName text) : Yields text [.term (.symbol text)] :=
  yields_word h.nonempty h.alphanumeric h.named

theorem yields_number (n : Nat) : Yields (toString n) [.number n] := by
  have hdigits : (toString n).toList = Nat.toDigits 10 n := by
    rw [Nat.toString_eq_ofList_toDigits, String.toList_ofList]
  refine yields_word ?_ ?_ ?_
  · rw [hdigits]
    exact Nat.toDigits_ne_nil
  · rw [hdigits]
    exact fun c hc => Word.isAlphanum_toDigits (by decide) (by decide) hc
  · unfold Item.ofWord?
    rw [hdigits, Word.ofDigits?_decimal]

theorem yields_constant (w : Word) : Yields (constantText w) [.term (.constant w)] := by
  have htext : (constantText w).toList = '0' :: 'h' :: 'e' :: 'x' :: (Word.hex8 w).toList := String.toList_append
  refine yields_word ?_ ?_ ?_
  · rw [htext]
    exact List.cons_ne_nil _ _
  · intro c hc
    rw [htext] at hc
    simp only [List.mem_cons] at hc
    rcases hc with rfl | rfl | rfl | rfl | hc
    · rfl
    · rfl
    · rfl
    · rfl
    · exact Word.isAlphanum_hex8 hc
  · have hnumber (l : List Char) : Word.ofDigits? 10 Word.decimalDigit? ('0' :: 'h' :: l) = none := rfl
    unfold Item.ofWord?
    rw [htext, hnumber]
    simp only [Word.length_hex8, Word.ofDigits?_hex8, if_true, Option.map_some, BitVec.ofNat_toNat,
      BitVec.setWidth_eq]

def Item.barred : List (Term String) → List Item
  | [] => []
  | [a] => [.term a]
  | a :: rest => .term a :: .mark '|' :: barred rest

theorem Item.alternatives?_barred {parts : List (Term String)} (hne : parts ≠ []) :
    alternatives? (barred parts) = some parts := by
  fun_induction barred parts with
  | case1 => exact absurd rfl hne
  | case2 a => rfl
  | case3 a rest hrest ih => rw [alternatives?, ih hrest]; rfl

theorem Item.close?_barred {parts : List (Term String)} (hne : parts ≠ []) :
    close? none (barred parts) = some (.term (.or parts)) := by
  have hgroup : group? (barred parts) = (alternatives? (barred parts)).map fun parts => .term (.or parts) := by
    match parts with
    | [] => exact absurd rfl hne
    | [a] => rfl
    | a :: b :: rest =>
      rw [barred, group?] <;> simp
  rw [close?, hgroup, alternatives?_barred hne]
  rfl

variable {ν : Type} {spell : ν → String}

theorem yields_parts {parts : List (Term ν)} (hne : parts ≠ [])
    (h : ∀ p ∈ parts, Yields (p.text spell) [.term (p.map spell)]) :
    Yields (Term.partsText spell parts) (Item.barred (parts.map (·.map spell))) := by
  induction parts with
  | nil => exact absurd rfl hne
  | cons p rest ih =>
    have hp := h p List.mem_cons_self
    cases rest with
    | nil => exact hp
    | cons q rest =>
      have hrest := ih (List.cons_ne_nil q rest) fun r hr => h r (List.mem_cons_of_mem p hr)
      exact hp.separated separates_or hrest

/-- A written term is read back, whatever stands before and behind it. -/
theorem yields_text {Γ : List (ν × Nat)} {t : Term ν} {n : Nat} (hspell : ∀ x, IsName (spell x))
    (h : t.HasWidth Γ n) : Yields (t.text spell) [.term (t.map spell)] := by
  induction h with
  | @symbol x _ _ => exact (hspell x).yields
  | constant w => exact yields_constant w
  | plus _ _ iha ihb => exact iha.pair separates_comma ihb (fun _ _ _ _ => rfl) rfl
  | minus _ _ iha ihb => exact iha.pair separates_comma ihb (fun _ _ _ _ => rfl) rfl
  | times _ _ iha ihb => exact iha.pair separates_comma ihb (fun _ _ _ _ => rfl) rfl
  | xor _ _ iha ihb => exact iha.pair separates_comma ihb (fun _ _ _ _ => rfl) rfl
  | and _ _ iha ihb => exact iha.pair separates_and ihb opens_group rfl
  | or hne _ ih =>
    rw [Term.map, Term.mapParts_eq]
    exact (yields_parts hne ih).framed opens_group (Item.close?_barred (mt List.map_eq_nil_iff.mp hne))
  | negate _ ih => exact ih.framed (fun _ _ _ _ => rfl) rfl
  | appendZeros k _ ih => exact ih.pair separates_left (yields_number k) opens_group rfl
  | @extract a _ high low _ _ _ ih =>
    have hbits := (ih.separated separates_bracket (yields_number high)).separated separates_colon (yields_number low)
    have hread := (hbits.mark separates_closing).framed opens_group rfl
    have hend : "])" = "]" ++ ")" := rfl
    show Yields ("(" ++ a.text spell ++ "[" ++ toString high ++ ":" ++ toString low ++ "])") _
    rw [Term.map, hend]
    simpa only [String.append_assoc] using hread
  | shiftRight k _ ih => exact ih.pair separates_right (yields_number k) opens_group rfl
  | shiftLeftBy _ _ iha ihb => exact iha.pair separates_comma ihb (fun _ _ _ _ => rfl) rfl
  | shiftRightBy _ _ iha ihb => exact iha.pair separates_comma ihb (fun _ _ _ _ => rfl) rfl

theorem readTerm_text {Γ : List (ν × Nat)} {t : Term ν} {n : Nat} (hspell : ∀ x, IsName (spell x))
    (h : t.HasWidth Γ n) : readTerm (t.text spell) = some (t.map spell) := by
  have hrun := yields_text hspell h [] [] [] ['\n'] ⟨rfl, by decide⟩
  rw [readTerm, start, hrun]
  rfl

/-! ## Names of symbols -/

def IsSide (side : String) : Prop := ∀ c ∈ side.toList, c.isAlpha = true

theorem isSide_plain : IsSide "" := by simp [IsSide]

theorem isSide_first : IsSide "a" := by simp [IsSide]

theorem isSide_second : IsSide "b" := by simp [IsSide]

theorem isAlphanum_numbered {side : String} (h : IsSide side) (n : Nat) :
    ∀ c ∈ Nat.toDigits 10 n ++ side.toList, c.isAlphanum = true := by
  intro c hc
  rcases List.mem_append.mp hc with hc | hc
  · exact Word.isAlphanum_toDigits (by decide) (by decide) hc
  · rw [Char.isAlphanum, h c hc, Bool.true_or]

theorem toList_symbolText (side : String) (id : ValueId) :
    (symbolText side id).toList = 's' :: 'y' :: 'm' :: (Nat.toDigits 10 id ++ side.toList) := by
  have htext : symbolText side id = "sym" ++ toString id ++ side := rfl
  rw [htext, Nat.toString_eq_ofList_toDigits]
  simp

theorem isDigit_eq_false {c : Char} (h : c.isAlpha = true) : c.isDigit = false := by
  by_contra hd
  simp only [Char.isAlpha, Char.isUpper, Char.isLower, Char.isDigit, Bool.not_eq_false, Bool.or_eq_true,
    Bool.and_eq_true, decide_eq_true_eq, ge_iff_le, UInt32.le_iff_toNat_le] at h hd
  have h9 : '9'.val.toNat = 57 := rfl
  have hA : 'A'.val.toNat = 65 := rfl
  have ha : 'a'.val.toNat = 97 := rfl
  omega

/-- A word that starts with a small letter is a name. -/
theorem isName_of_isLower {text : String} {c : Char} {rest : List Char} (htext : text.toList = c :: rest)
    (hc : c.isLower = true) (hrest : ∀ d ∈ rest, d.isAlphanum = true) : IsName text where
  nonempty := by rw [htext]; exact List.cons_ne_nil _ _
  alphanumeric := by
    rw [htext]
    refine List.forall_mem_cons.mpr ⟨?_, hrest⟩
    rw [Char.isAlphanum, Char.isAlpha, hc, Bool.or_true, Bool.true_or]
  named := by
    have halpha : c.isAlpha = true := by rw [Char.isAlpha, hc, Bool.or_true]
    have hdigit : Word.decimalDigit? c = none := by
      have hd := isDigit_eq_false halpha
      simp only [Char.isDigit, Bool.and_eq_false_iff, decide_eq_false_iff_not] at hd
      exact if_neg fun h => hd.elim (absurd h.1 ·) (absurd h.2 ·)
    have hnumber : Word.ofDigits? 10 Word.decimalDigit? (c :: rest) = none := by
      simp [Word.ofDigits?, List.foldlM_cons, hdigit]
    have hzero : c ≠ '0' := by rintro rfl; exact absurd hc (by decide)
    have hcommand : c ≠ 'C' := by rintro rfl; exact absurd hc (by decide)
    have hname : String.ofList (c :: rest) = text := htext ▸ String.ofList_toList
    unfold Item.ofWord?
    rw [htext, hnumber]
    simp [hzero, hcommand, halpha, hname]

theorem symbolText_isName {side : String} (h : IsSide side) (id : ValueId) : IsName (symbolText side id) := by
  refine isName_of_isLower (toList_symbolText side id) rfl ?_
  simp only [List.forall_mem_cons]
  exact ⟨rfl, rfl, isAlphanum_numbered h id⟩

/-- A number and a side behind it can be told from their text. -/
theorem numbered_inj {side side' : String} {n n' : Nat} (h : IsSide side) (h' : IsSide side')
    (heq : Nat.toDigits 10 n ++ side.toList = Nat.toDigits 10 n' ++ side'.toList) : side = side' ∧ n = n' := by
  -- The digits of the number are the longest run of digits, since a side has none.
  have split (n : Nat) {l : List Char} (hl : ∀ c ∈ l, c.isAlpha = true) :
      (Nat.toDigits 10 n ++ l).span Char.isDigit = (Nat.toDigits 10 n, l) := by
    have hdigits : ∀ c ∈ Nat.toDigits 10 n, c.isDigit = true := fun c hc =>
      Nat.isDigit_of_mem_toDigits (by decide) (by decide) hc
    rw [List.span_eq_takeWhile_dropWhile, List.takeWhile_append_of_pos hdigits, List.dropWhile_append_of_pos hdigits]
    cases l with
    | nil => simp
    | cons c l => simp [isDigit_eq_false (hl c List.mem_cons_self)]
  have hsplit := (split n h).symm.trans ((congrArg (List.span Char.isDigit) heq).trans (split n' h'))
  obtain ⟨hn, hside⟩ := Prod.mk.inj hsplit
  refine ⟨String.toList_inj.mp hside, ?_⟩
  have hread := congrArg (Word.ofDigits? 10 Word.decimalDigit?) hn
  rw [Word.ofDigits?_decimal, Word.ofDigits?_decimal] at hread
  exact Option.some.inj hread

/-- A name tells its side and its id. -/
theorem symbolText_inj {side side' : String} {id id' : ValueId} (h : IsSide side) (h' : IsSide side')
    (heq : symbolText side id = symbolText side' id') : side = side' ∧ id = id' := by
  have hlist := congrArg String.toList heq
  rw [toList_symbolText, toList_symbolText] at hlist
  simp only [List.cons.injEq, true_and] at hlist
  exact numbered_inj h h' hlist

end

end Solver

end TraceReplay
