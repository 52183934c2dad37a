/-
  TraceReplay.Proofs.Solver.Question — questions with names of their own.

  A question binds names, each to a string put together from pieces and for all that follows, and
  asks for equations under them (`Question.Holds`). An inquiry is a question with the commands
  before and after it; it is valid if the question holds wherever the commands before it do.

  Terms and commands are read as before. Where their reader stops, `Stage.step` goes on: at the
  sign between two pieces, and at a parenthesis that closes a question.

  Proved: what can be read has its parentheses balanced (`balanced_of_readInquiry`); written
  bindings around written equations are read back (`Stage.Nests`, `Stage.run_said`); and bindings
  that do not use each other all take the values that they have outside (`foldl_extend_of_mem`).
-/

import TraceReplay.Proofs.Solver.Equivalence

namespace TraceReplay

namespace Solver

/-! ## Questions -/

namespace BitString

def append (x y : BitString) : BitString := ⟨x.1 + y.1, x.2 ++ y.2⟩

/-- The strings one behind the other, the first one highest. -/
def concat : List BitString → BitString
  | [] => ⟨0, 0⟩
  | x :: rest => x.append (concat rest)

theorem eq_of_bits {x y : BitString} (hwidth : x.1 = y.1) (h : ∀ i < x.1, x.2.getLsbD i = y.2.getLsbD i) :
    x = y := by
  obtain ⟨n, x⟩ := x
  obtain ⟨m, y⟩ := y
  cases hwidth
  exact congrArg (Sigma.mk n) (BitVec.eq_of_getLsbD_eq h)

theorem concat_singleton (x : BitString) : concat [x] = x := by
  refine eq_of_bits rfl fun i _ => ?_
  rw [concat, concat, append, BitVec.getLsbD_append]
  exact if_neg (Nat.not_lt_zero i)

/-- Single bits, the last one lowest. -/
theorem concat_bits {bit : Nat → BitString} {n : Nat} (h : ∀ j < n, (bit j).1 = 1) :
    (concat ((List.range n).reverse.map bit)).1 = n ∧
      ∀ j < n, (concat ((List.range n).reverse.map bit)).2.getLsbD j = (bit j).2.getLsbD 0 := by
  induction n with
  | zero => exact ⟨rfl, nofun⟩
  | succ n ih =>
    obtain ⟨hwidth, hbits⟩ := ih fun j hj => h j (by omega)
    have hlast := h n (by omega)
    rw [List.range_succ, List.reverse_append, List.reverse_singleton, List.singleton_append, List.map_cons,
      concat, append]
    refine ⟨?_, fun j hj => ?_⟩
    · show (bit n).1 + _ = n + 1
      omega
    rw [BitVec.getLsbD_append]
    split
    · exact hbits j (by omega)
    · have hjn : j = n := by omega
      rw [hwidth, hjn, Nat.sub_self]

/-- A slice of one bit. -/
theorem extract_bit (x : BitString) (i : Nat) : x.extract i i = ⟨1, BitVec.ofBool (x.2.getLsbD i)⟩ := by
  have hone : i - i + 1 = 1 := by omega
  refine eq_of_bits hone fun j hj => ?_
  have hj0 : j = 0 := by
    have : j < i - i + 1 := hj
    omega
  simp [extract, hj0]

end BitString

/-- A name and the pieces of its string, the highest first. -/
structure Binding where
  name : String
  pieces : List (Term String)

namespace Binding

def value (ρ : Environment) (b : Binding) : BitString := .concat (b.pieces.map (Term.value ρ))

def extend (ρ : Environment) (b : Binding) : Environment := Function.update ρ b.name (b.value ρ)

end Binding

abbrev Equation := Term String × Term String

structure Question where
  bindings : List Binding
  equations : List Equation

namespace Question

def Holds (ρ : Environment) (q : Question) : Prop :=
  ∀ e ∈ q.equations, e.1.value (q.bindings.foldl Binding.extend ρ) = e.2.value (q.bindings.foldl Binding.extend ρ)

/-- Every name is known where it is used and bound only once, and the sides of an equation have
    one width. -/
inductive WellTyped : List (String × Nat) → Question → Prop
  | equations {Γ : List (String × Nat)} {es : List Equation} :
      (∀ e ∈ es, ∃ n, e.1.HasWidth Γ n ∧ e.2.HasWidth Γ n) → WellTyped Γ ⟨[], es⟩
  | bind {Γ : List (String × Nat)} {b : Binding} {bs : List Binding} {es : List Equation} {widths : List Nat} :
      b.name ∉ Γ.map (·.1) → List.Forall₂ (·.HasWidth Γ ·) b.pieces widths →
      WellTyped (Γ ++ [(b.name, widths.sum)]) ⟨bs, es⟩ → WellTyped Γ ⟨b :: bs, es⟩

/-- A binding to a single piece. -/
theorem WellTyped.single {Γ : List (String × Nat)} {x : String} {t : Term String} {n : Nat} {bs : List Binding}
    {es : List Equation} (hx : x ∉ Γ.map (·.1)) (ht : t.HasWidth Γ n)
    (h : WellTyped (Γ ++ [(x, n)]) ⟨bs, es⟩) : WellTyped Γ ⟨⟨x, [t]⟩ :: bs, es⟩ :=
  .bind hx (.cons ht .nil) h

end Question

structure Inquiry where
  before : Script
  question : Question
  after : Script

namespace Inquiry

def WellTyped (i : Inquiry) : Prop :=
  i.before.WellTyped [] ∧ i.question.WellTyped i.before.declarations ∧ i.after.WellTyped i.before.declarations

def Valid (i : Inquiry) : Prop := ∀ ρ, (∀ c ∈ i.before, c.Assumes ρ) → i.question.Holds ρ

end Inquiry

/-! ## Independent bindings -/

namespace Binding

variable {ρ : Environment} {bs : List Binding} {b : Binding} {x : String}

theorem extend_of_ne (h : x ≠ b.name) : extend ρ b x = ρ x := Function.update_of_ne h _ _

theorem extend_single (ρ : Environment) (x : String) (t : Term String) : extend ρ ⟨x, [t]⟩ x = t.value ρ :=
  (Function.update_self _ _ _).trans (BitString.concat_singleton _)

theorem foldl_extend_of_not_mem (hx : x ∉ bs.map name) : bs.foldl extend ρ x = ρ x := by
  induction bs generalizing ρ with
  | nil => rfl
  | cons b bs ih =>
    rw [List.map_cons, List.mem_cons, not_or] at hx
    rw [List.foldl_cons, ih hx.2, extend_of_ne hx.1]

/-- A binding that uses none of the names takes the value that it has outside. -/
theorem foldl_extend_of_mem {names : List String} (hnd : (bs.map name).Nodup) (hnames : bs.map name ⊆ names)
    (h : ∀ b ∈ bs, ∀ ρ ρ' : Environment, (∀ x ∉ names, ρ' x = ρ x) → b.value ρ' = b.value ρ) (hb : b ∈ bs) :
    bs.foldl extend ρ b.name = b.value ρ := by
  induction bs generalizing ρ with
  | nil => exact absurd hb List.not_mem_nil
  | cons c bs ih =>
    obtain ⟨hc, hbs⟩ := List.nodup_cons.mp hnd
    rw [List.foldl_cons]
    rcases List.mem_cons.mp hb with rfl | hb
    · rw [foldl_extend_of_not_mem hc]
      exact Function.update_self _ _ _
    · rw [ih hbs (fun x hx => hnames (List.mem_cons_of_mem _ hx))
        (fun d hd => h d (List.mem_cons_of_mem c hd)) hb]
      refine h b (List.mem_cons_of_mem c hb) _ _ fun x hx => extend_of_ne ?_
      rintro rfl
      exact hx (hnames List.mem_cons_self)

end Binding

theorem Question.wellTyped_append {Γ : List (String × Nat)} {n : Nat} {bs bs' : List Binding} {es : List Equation}
    (hnd : (bs.map (·.name)).Nodup) (hΓ : ∀ x ∈ bs.map (·.name), x ∉ Γ.map (·.1))
    (hbs : ∀ b ∈ bs, ∃ widths : List Nat, widths.sum = n ∧ List.Forall₂ (·.HasWidth Γ ·) b.pieces widths)
    (h : WellTyped (Γ ++ bs.map fun b => (b.name, n)) ⟨bs', es⟩) : WellTyped Γ ⟨bs ++ bs', es⟩ := by
  induction bs generalizing Γ with
  | nil =>
    rw [List.map_nil, List.append_nil] at h
    exact h
  | cons b bs ih =>
    obtain ⟨hb, hnd'⟩ := List.nodup_cons.mp hnd
    obtain ⟨widths, hsum, hpieces⟩ := hbs b List.mem_cons_self
    refine .bind (hΓ b.name List.mem_cons_self) hpieces (ih hnd' ?_ ?_ ?_)
    · intro x hx hmem
      rw [List.map_append, List.mem_append] at hmem
      rcases hmem with hmem | hmem
      · exact hΓ x (List.mem_cons_of_mem _ hx) hmem
      · rw [List.mem_singleton.mp hmem] at hx
        exact hb hx
    · intro c hc
      obtain ⟨widths, hsum, hpieces⟩ := hbs c (List.mem_cons_of_mem b hc)
      exact ⟨widths, hsum, hpieces.imp fun p n hp => hp.mono (List.subset_append_left Γ _)⟩
    · rw [hsum, List.append_assoc]
      exact h

/-! ## The reader -/

namespace Item

def isMark (c : Char) : Item → Bool
  | .mark d => d == c
  | _ => false

def isWord (word : String) : Item → Bool
  | .term (.symbol x) => x == word
  | _ => false

def listed? {α : Type} (divides : Item → Bool) (read? : List Item → Option α) (items : List Item) :
    Option (List α) :=
  (items.splitOnP divides).mapM read?

def operand? : List Item → Option (Term String)
  | [.term a] => some a
  | [.term a, .mark '[', .number high, .mark ':', .number low, .mark ']'] => some (.extract a high low)
  | _ => none

def equation? (items : List Item) : Option Equation :=
  match listed? (isMark '=') operand? items with
  | some [a, b] => some (a, b)
  | _ => none

/-- `TRUE`; if it is in parentheses, those have been read as a union of one name. -/
def isTrue : List Item → Bool
  | [.term (.symbol x)] => x == "TRUE"
  | [.term (.or [.symbol x])] => x == "TRUE"
  | _ => false

def equations? (items : List Item) : Option (List Equation) :=
  if isTrue items then some [] else listed? (isWord "AND") equation? items

def binding? : List Item → Option (Binding × List Item)
  | .term (.symbol keyword) :: .term (.symbol x) :: .mark '=' :: rest =>
    match rest.splitOnP (isWord "IN") with
    | [value, body] =>
      if keyword = "LET" then (listed? (isMark '@') operand? value).map fun pieces => (⟨x, pieces⟩, body) else none
    | _ => none
  | _ => none

def question? (items : List Item) : Option Question :=
  match binding? items with
  | some (b, body) => (equations? body).map (⟨[b], ·⟩)
  | none => (equations? items).map (⟨[], ·⟩)

end Item

inductive Stage where
  | reading (s : Reading)
  /-- The innermost frame holds the question and nothing else. -/
  | said (q : Question) (outer : List (Option Operator × List Item)) (done : Script)
  | posed (q : Question) (before : Script)
  | asked (q : Question) (before : Script) (s : Reading)

namespace Stage

/-- The parenthesis behind a question closes a binding around it or the query. -/
def leave (q : Question) (outer : List (Option Operator × List Item)) (done : Script) : Option Stage :=
  match outer with
  | [(some .query, [])] => some (posed q done)
  | (none, items) :: outer =>
    match Item.binding? items with
    | some (b, []) => some (said ⟨b :: q.bindings, q.equations⟩ outer done)
    | _ => none
  | _ => none

/-- The characters at which the reader of terms and commands stops. -/
def goOn (s : Reading) (c : Char) : Option Stage :=
  match c with
  | '@' => some (reading { s with items := s.items ++ [.mark '@'] })
  | ')' => (Item.question? s.items).bind fun q => leave q s.outer s.done
  | _ => none

def step : Stage → Char → Option Stage
  | reading s, c =>
    match s.step c with
    | some s' => some (reading s')
    | none => s.endWord.bind (goOn · c)
  | said q outer done, c =>
    match c with
    | ' ' => some (said q outer done)
    | '\n' => some (said q outer done)
    | ')' => leave q outer done
    | _ => none
  | posed q before, c =>
    match c with
    | ' ' => some (posed q before)
    | '\n' => some (posed q before)
    | ';' => some (asked q before .start)
    | _ => none
  | asked q before s, c => (s.step c).map (asked q before)

def run : Stage → List Char → Option Stage := List.foldlM step

end Stage

def readInquiry (text : String) : Option Inquiry :=
  match Stage.run (.reading .start) text.toList with
  | some (.asked q before ⟨[], [], [], after⟩) => some ⟨before, q, after⟩
  | _ => none

/-! ## Parentheses -/

/-- The number of open parentheses behind a character; none is closed that was not opened. -/
def nest : Nat → Char → Option Nat
  | n, '(' => some (n + 1)
  | 0, ')' => none
  | n + 1, ')' => some n
  | n, _ => some n

def Balanced (text : String) : Prop := text.toList.foldlM nest 0 = some 0

theorem nest_of_ne {c : Char} (ho : c ≠ '(') (hc : c ≠ ')') (n : Nat) : nest n c = some n := by
  unfold nest
  split <;> simp_all

namespace Reading

variable {s s' : Reading} {c : Char}

theorem outer_endWord (h : s.endWord = some s') : s'.outer = s.outer := by
  unfold endWord at h
  split at h
  · cases h
    rfl
  · obtain ⟨item, -, rfl⟩ := Option.map_eq_some_iff.mp h
    rfl

theorem nest_punctuate (hc : c ≠ '(') (h : s.punctuate c = some s') :
    nest s.outer.length c = some s'.outer.length := by
  by_cases hclose : c = ')'
  · subst hclose
    replace h : s.leave = some s' := h
    unfold leave at h
    split at h
    · cases h
    · rename_i frame items outer hframes
      obtain ⟨item, -, rfl⟩ := Option.map_eq_some_iff.mp h
      rw [hframes]
      rfl
  · rw [nest_of_ne hc hclose]
    unfold punctuate at h
    split at h
    · cases h
      rfl
    · cases h
      rfl
    · exact absurd rfl hclose
    · unfold endCommand at h
      split at h
      · rename_i hempty
        obtain ⟨command, -, rfl⟩ := Option.map_eq_some_iff.mp h
        rw [hempty]
      · cases h
    · split at h
      · cases h
        rfl
      · cases h

/-- The frames are the open parentheses. -/
theorem nest_step (h : s.step c = some s') : nest s.outer.length c = some s'.outer.length := by
  unfold step at h
  split at h
  · rename_i hword
    cases h
    exact nest_of_ne (by rintro rfl; simp at hword) (by rintro rfl; simp at hword) _
  split at h
  · rename_i hopen
    subst hopen
    unfold enter at h
    split at h
    · cases h
      rfl
    · obtain ⟨operator, -, rfl⟩ := Option.map_eq_some_iff.mp h
      rfl
  · rename_i hopen
    obtain ⟨s₁, hend, hpunctuate⟩ := Option.bind_eq_some_iff.mp h
    rw [← outer_endWord hend]
    exact nest_punctuate hopen hpunctuate

end Reading

namespace Stage

variable {s s' : Stage} {c : Char} {text : List Char}

def depth : Stage → Nat
  | reading s => s.outer.length
  | said _ outer _ => outer.length
  | posed _ _ => 0
  | asked _ _ s => s.outer.length

theorem nest_leave {q : Question} {outer : List (Option Operator × List Item)} {done : Script}
    (h : leave q outer done = some s') : nest outer.length ')' = some s'.depth := by
  unfold leave at h
  split at h
  · cases h
    rfl
  · split at h
    · cases h
      rfl
    · cases h
  · cases h

theorem nest_goOn {r : Reading} (h : goOn r c = some s') : nest r.outer.length c = some s'.depth := by
  unfold goOn at h
  split at h
  · cases h
    exact nest_of_ne (by decide) (by decide) _
  · obtain ⟨q, -, hq⟩ := Option.bind_eq_some_iff.mp h
    exact nest_leave hq
  · cases h

theorem nest_step (h : step s c = some s') : nest s.depth c = some s'.depth := by
  cases s with
  | reading r =>
    rw [step] at h
    split at h
    · rename_i hr
      cases h
      exact Reading.nest_step hr
    · obtain ⟨r₁, hend, hr⟩ := Option.bind_eq_some_iff.mp h
      rw [depth, ← Reading.outer_endWord hend]
      exact nest_goOn hr
  | said q outer done =>
    unfold step at h
    dsimp only at h
    split at h
    · cases h
      exact nest_of_ne (by decide) (by decide) _
    · cases h
      exact nest_of_ne (by decide) (by decide) _
    · exact nest_leave h
    · cases h
  | posed q before =>
    unfold step at h
    dsimp only at h
    split at h
    · cases h
      rfl
    · cases h
      rfl
    · cases h
      rfl
    · cases h
  | asked q before r =>
    obtain ⟨r', hr, rfl⟩ := Option.map_eq_some_iff.mp h
    exact Reading.nest_step hr

theorem nest_run (h : run s text = some s') : text.foldlM nest s.depth = some s'.depth := by
  induction text generalizing s with
  | nil =>
    cases h
    rfl
  | cons c text ih =>
    obtain ⟨s₁, hstep, hrun⟩ := Option.bind_eq_some_iff.mp h
    show (nest s.depth c).bind _ = _
    rw [nest_step hstep]
    exact ih hrun

end Stage

/-- A text that can be read has its parentheses balanced. -/
theorem balanced_of_readInquiry {text : String} {i : Inquiry} (h : readInquiry text = some i) : Balanced text := by
  unfold readInquiry at h
  split at h
  · rename_i hrun
    exact Stage.nest_run hrun
  · cases h

/-! ## Reading questions -/

namespace Stage

variable {s s' : Reading} {items more more' marks : List Item} {outer : List (Option Operator × List Item)}
  {done : Script} {rest : List Char} {text text' sep : String}

/-- What the reader of terms and commands reads is read as before. -/
theorem run_reading {text : List Char} (h : s.run text = some s') :
    run (reading s) (text ++ rest) = run (reading s') rest := by
  induction text generalizing s with
  | nil =>
    cases h
    rfl
  | cons c text ih =>
    obtain ⟨s₁, hstep, hrun⟩ := Option.bind_eq_some_iff.mp h
    have hc : step (reading s) c = some (reading s₁) := by rw [step, hstep]
    show (step (reading s) c).bind (run · (text ++ rest)) = _
    rw [hc]
    exact ih hrun

def Adds (text : String) (more : List Item) : Prop :=
  ∀ items outer done rest, Delimited rest →
    run (reading ⟨[], items, outer, done⟩) (text.toList ++ rest) = run (reading ⟨[], items ++ more, outer, done⟩) rest

def Divides (sep : String) (marks : List Item) : Prop :=
  ∀ items outer done rest, Delimited (sep.toList ++ rest) ∧
    run (reading ⟨[], items, outer, done⟩) (sep.toList ++ rest) = run (reading ⟨[], items ++ marks, outer, done⟩) rest

/-- A character that ends a word does the same behind the word as behind its item. -/
theorem step_endWord {c : Char} (hend : s.endWord = some s') (hword : s'.word = []) (hc : c.isAlphanum = false)
    (hopen : c ≠ '(') : step (reading s) c = step (reading s') c := by
  have hend' : s'.endWord = some s' := by rw [Reading.endWord, hword]
  have hs : s.step c = s'.step c := by
    simp only [Reading.step, hc, hopen, if_false, Bool.false_eq_true, hend, hend']
  simp only [step, hs, hend, hend']

theorem adds_of_yields (h : Reading.Yields text more) : Adds text more := by
  intro items outer done rest hrest
  -- A line break behind the text does nothing but end the last word.
  have hline : Reading.run ⟨[], items, outer, done⟩ (text.toList ++ ['\n']) = some ⟨[], items ++ more, outer, done⟩ :=
    h items outer done ['\n'] ⟨rfl, by decide⟩
  rw [Reading.run, List.foldlM_append] at hline
  obtain ⟨s, hs, hbreak⟩ := Option.bind_eq_some_iff.mp hline
  have hend : s.endWord = some ⟨[], items ++ more, outer, done⟩ := by
    obtain ⟨s₁, hstep, hsame⟩ := Option.bind_eq_some_iff.mp hbreak
    obtain ⟨s₂, hword, hspace⟩ := Option.bind_eq_some_iff.mp hstep
    cases hspace
    cases hsame
    exact hword
  cases rest with
  | nil => exact absurd hrest id
  | cons c rest =>
    rw [run_reading hs]
    show (step _ c).bind (run · rest) = (step _ c).bind (run · rest)
    rw [step_endWord hend rfl hrest.1 hrest.2]

theorem Adds.separated (h : Adds text more) (hs : Divides sep marks) (h' : Adds text' more') :
    Adds (text ++ sep ++ text') (more ++ marks ++ more') := by
  intro items outer done rest hrest
  obtain ⟨hd, hr⟩ := hs (items ++ more) outer done (text'.toList ++ rest)
  rw [String.toList_append, String.toList_append, List.append_assoc, List.append_assoc, h _ _ _ _ hd, hr,
    h' _ _ _ _ hrest]
  simp only [List.append_assoc]

theorem adds_intercalate {α : Type} {f : α → String} {g : α → List Item} (hs : Divides sep marks) {l : List α}
    (hne : l ≠ []) (h : ∀ a ∈ l, Adds (f a) (g a)) : Adds (sep.intercalate (l.map f)) (marks.intercalate (l.map g)) := by
  induction l with
  | nil => exact absurd rfl hne
  | cons a l ih =>
    obtain ⟨ha, hl⟩ := List.forall_mem_cons.mp h
    cases l with
    | nil => simpa using ha
    | cons b l =>
      have hrest := ih (List.cons_ne_nil b l) hl
      rw [List.map_cons (l := b :: l), List.map_cons (l := b :: l), String.intercalate_cons_of_ne_nil (by simp),
        List.intercalate_cons_of_ne_nil (by simp)]
      simpa only [List.append_assoc] using ha.separated hs hrest

end Stage

namespace Item

/-- Parts with one item between them are told apart by it. -/
theorem splitOnP_intercalate {divides : Item → Bool} {sep : Item} (hsep : divides sep = true) {ls : List (List Item)}
    (hne : ls ≠ []) (h : ∀ l ∈ ls, ∀ i ∈ l, divides i = false) : ([sep].intercalate ls).splitOnP divides = ls := by
  induction ls with
  | nil => exact absurd rfl hne
  | cons l ls ih =>
    obtain ⟨hl, hls⟩ := List.forall_mem_cons.mp h
    cases ls with
    | nil => simpa using List.splitOnP_eq_singleton hl
    | cons l' ls =>
      rw [List.intercalate_cons_of_ne_nil (List.cons_ne_nil l' ls), List.append_assoc, List.singleton_append,
        List.splitOnP_append_cons_of_forall_mem hl sep hsep, ih (List.cons_ne_nil l' ls) hls]

theorem mem_intercalate {sep i : Item} {ls : List (List Item)} (h : i ∈ [sep].intercalate ls) :
    i = sep ∨ ∃ l ∈ ls, i ∈ l := by
  induction ls with
  | nil => simp at h
  | cons l ls ih =>
    cases ls with
    | nil => exact .inr ⟨l, List.mem_singleton.mpr rfl, by simpa using h⟩
    | cons l' ls =>
      rw [List.intercalate_cons_of_ne_nil (List.cons_ne_nil l' ls), List.mem_append, List.mem_append] at h
      rcases h with (h | h) | h
      · exact .inr ⟨l, List.mem_cons_self, h⟩
      · exact .inl (List.mem_singleton.mp h)
      · rcases ih h with h | ⟨m, hm, hi⟩
        · exact .inl h
        · exact .inr ⟨m, List.mem_cons_of_mem l hm, hi⟩

theorem listed?_intercalate {α β : Type} {divides : Item → Bool} {read? : List Item → Option β} {f : α → List Item}
    {g : α → β} {sep : Item} (hsep : divides sep = true) {l : List α} (hne : l ≠ [])
    (hparts : ∀ a ∈ l, ∀ i ∈ f a, divides i = false) (hread : ∀ a ∈ l, read? (f a) = some (g a)) :
    listed? divides read? ([sep].intercalate (l.map f)) = some (l.map g) := by
  have hsplit : ([sep].intercalate (l.map f)).splitOnP divides = l.map f := by
    refine splitOnP_intercalate hsep (mt List.map_eq_nil_iff.mp hne) fun part hpart => ?_
    obtain ⟨a, ha, rfl⟩ := List.mem_map.mp hpart
    exact hparts a ha
  rw [listed?, hsplit]
  clear hsplit hne hparts
  induction l with
  | nil => rfl
  | cons a l ih =>
    obtain ⟨ha, hl⟩ := List.forall_mem_cons.mp hread
    rw [List.map_cons, List.mapM_cons, ha, ih hl]
    rfl

theorem isWord_term {word : String} {t : Term String} (h : t ≠ .symbol word) : isWord word (.term t) = false := by
  unfold isWord
  split
  · rename_i x hx
    cases hx
    exact beq_eq_false_iff_ne.mpr fun hw => h (congrArg Term.symbol hw)
  · rfl

/-- Two terms side by side are no group. -/
theorem close?_of_terms (a b : Term String) (rest : List Item) : close? none (.term a :: .term b :: rest) = none := by
  simp [close?, group?, alternatives?]

end Item

namespace Binding

/-- The binding can be written: it has a piece, and none that looks like its end. -/
def Writable (b : Binding) : Prop := b.pieces ≠ [] ∧ ∀ p ∈ b.pieces, p ≠ .symbol "IN"

def pieceItems (b : Binding) : List Item := [.mark '@'].intercalate (b.pieces.map fun p => [.term p])

def items (b : Binding) : List Item :=
  .term (.symbol "LET") :: .term (.symbol b.name) :: .mark '=' :: (b.pieceItems ++ [.term (.symbol "IN")])

theorem Writable.binding? {b : Binding} (h : b.Writable) (body : List Item)
    (hbody : ∀ i ∈ body, Item.isWord "IN" i = false) : Item.binding? (b.items ++ body) = some (b, body) := by
  have hpieces : ∀ i ∈ b.pieceItems, Item.isWord "IN" i = false := by
    intro i hi
    rcases Item.mem_intercalate hi with rfl | ⟨l, hl, hi⟩
    · rfl
    · obtain ⟨p, hp, rfl⟩ := List.mem_map.mp hl
      rw [List.mem_singleton.mp hi]
      exact Item.isWord_term (h.2 p hp)
  have hsplit : (b.pieceItems ++ [Item.term (.symbol "IN")] ++ body).splitOnP (Item.isWord "IN") =
      [b.pieceItems, body] := by
    rw [List.append_assoc, List.singleton_append,
      List.splitOnP_append_cons_of_forall_mem hpieces _ rfl, List.splitOnP_eq_singleton hbody]
  have hread : Item.listed? (Item.isMark '@') Item.operand? b.pieceItems = some (b.pieces.map id) := by
    refine Item.listed?_intercalate rfl h.1 (fun p _ i hi => ?_) fun p _ => rfl
    rw [List.mem_singleton.mp hi]
    rfl
  rw [items, List.cons_append, List.cons_append, List.cons_append, Item.binding?, hsplit]
  simp only [hread, List.map_id, if_true, Option.map_some]

end Binding

namespace Stage

variable {outer : List (Option Operator × List Item)} {done : Script} {rest : List Char} {text text' : String}
  {b b' : Binding} {bs bs' : List Binding} {q : Question}

def frame (b : Binding) : Option Operator × List Item := (none, b.items)

def Nests (text : String) (bs : List Binding) : Prop :=
  ∀ outer done rest, run (reading ⟨[], [], outer, done⟩) (text.toList ++ rest) =
    run (reading ⟨[], [], (bs.map frame).reverse ++ outer, done⟩) rest

theorem Nests.append (h : Nests text bs) (h' : Nests text' bs') : Nests (text ++ text') (bs ++ bs') := by
  intro outer done rest
  rw [String.toList_append, List.append_assoc, h, h', List.map_append, List.reverse_append, List.append_assoc]

theorem nests_join {α : Type} {f : α → String} {g : α → Binding} {l : List α} (h : ∀ a ∈ l, Nests (f a) [g a]) :
    Nests (String.join (l.map f)) (l.map g) := by
  induction l with
  | nil => exact fun _ _ _ => rfl
  | cons a l ih =>
    rw [List.map_cons, List.map_cons, String.join_cons]
    exact (h a List.mem_cons_self).append (ih fun b hb => h b (List.mem_cons_of_mem a hb))

theorem nests_binding (hname : IsName b.name) (h : Adds text b.pieceItems) :
    Nests ("LET " ++ b.name ++ " = " ++ text ++ " IN (\n") [b] := by
  have hlet : Adds "LET" [.term (.symbol "LET")] := adds_of_yields (Reading.yields_word (by simp) (by simp) rfl)
  have hspace : Divides " " [] := fun items _ _ _ => ⟨⟨rfl, by decide⟩, by rw [List.append_nil]; rfl⟩
  have hequal : Divides " = " [.mark '='] := fun _ _ _ _ => ⟨⟨rfl, by decide⟩, rfl⟩
  have hall := (hlet.separated hspace (adds_of_yields hname.yields)).separated hequal h
  have hopening : "LET " = "LET" ++ " " := rfl
  intro outer done rest
  have hd : Delimited (" IN (\n".toList ++ rest) := ⟨rfl, by decide⟩
  rw [hopening, String.toList_append, List.append_assoc, hall _ _ _ _ hd]
  rfl

theorem leave_frame (hb : b.Writable) :
    leave q (frame b :: outer) done = some (said ⟨b :: q.bindings, q.equations⟩ outer done) := by
  have hread := hb.binding? [] (by simp)
  rw [List.append_nil] at hread
  simp only [leave, frame, hread]

/-- The parenthesis behind a question closes the innermost binding around it. -/
theorem run_leave (hb : b.Writable) :
    run (said q (frame b :: outer) done) (')' :: rest) =
      run (said ⟨b :: q.bindings, q.equations⟩ outer done) rest := by
  have hstep : step (said q (frame b :: outer) done) ')' = some (said ⟨b :: q.bindings, q.equations⟩ outer done) :=
    leave_frame hb
  show (step _ ')').bind (run · rest) = _
  rw [hstep]
  rfl

/-- The parentheses behind a question close all bindings and then the query. -/
theorem run_said (h : ∀ b ∈ bs, b.Writable) :
    run (said q ((bs.map frame).reverse ++ [(some .query, [])]) done) (List.replicate (bs.length + 1) ')' ++ rest) =
      run (posed ⟨bs ++ q.bindings, q.equations⟩ done) rest := by
  induction bs using List.reverseRecOn generalizing q with
  | nil => rfl
  | append_singleton bs b ih =>
    have hb : b.Writable := h b (by simp)
    rw [List.length_append, List.length_singleton, List.replicate_succ, List.cons_append, List.map_append,
      List.reverse_append]
    have hrest := ih (q := ⟨b :: q.bindings, q.equations⟩) fun b' hb' => h b' (by simp [hb'])
    refine (run_leave hb).trans (hrest.trans ?_)
    rw [List.append_assoc]
    rfl

/-- Equations in the innermost binding. -/
theorem run_equations {items : List Item} {es : List Equation} (hb : b.Writable)
    (hclose : Item.close? none items = none) (hq : Item.question? items = some ⟨[], es⟩) :
    run (reading ⟨[], items, frame b :: outer, done⟩) (')' :: rest) = run (said ⟨[b], es⟩ outer done) rest := by
  have hstop : Reading.step ⟨[], items, frame b :: outer, done⟩ ')' = none := by
    show Reading.leave ⟨[], items, frame b :: outer, done⟩ = none
    simp only [Reading.leave, frame, hclose, Option.map_none]
  have hstep : step (reading ⟨[], items, frame b :: outer, done⟩) ')' = some (said ⟨[b], es⟩ outer done) := by
    rw [step, hstop]
    show (Item.question? items).bind _ = _
    rw [hq]
    exact leave_frame hb
  show (step _ ')').bind (run · rest) = _
  rw [hstep]
  rfl

/-- `TRUE` in the innermost of two bindings. Its parentheses are read as those of a term. -/
theorem run_true (hb : b.Writable) (hb' : b'.Writable) :
    run (reading ⟨[], [.term (.symbol "TRUE")], frame b :: frame b' :: outer, done⟩) (')' :: ')' :: rest) =
      run (said ⟨[b', b], []⟩ outer done) rest := by
  have hq : Item.question? (b.items ++ [.term (.or [.symbol "TRUE"])]) = some ⟨[b], []⟩ := by
    have hread := hb.binding? [.term (.or [.symbol "TRUE"])] (by simp [Item.isWord])
    rw [Item.question?, hread]
    rfl
  have hstop : Reading.step ⟨[], b.items ++ [.term (.or [.symbol "TRUE"])], frame b' :: outer, done⟩ ')' = none := by
    show Reading.leave ⟨[], b.items ++ [.term (.or [.symbol "TRUE"])], frame b' :: outer, done⟩ = none
    simp only [Reading.leave, frame, Binding.items, List.cons_append, Item.close?_of_terms, Option.map_none]
  have hstep : step (reading ⟨[], b.items ++ [.term (.or [.symbol "TRUE"])], frame b' :: outer, done⟩) ')' =
      some (said ⟨[b', b], []⟩ outer done) := by
    rw [step, hstop]
    show (Item.question? _).bind _ = _
    rw [hq]
    exact leave_frame hb'
  show (step _ ')').bind (run · rest) = _
  rw [hstep]
  rfl

end Stage

end Solver

end TraceReplay
