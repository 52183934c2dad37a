/-
  TraceReplay.Proofs.CommandLine.SkipOptions — which mnemonics an invocation passes over.

  A list of arguments gives a mnemonic (`Gives`) if `--skip` stands before it or is attached to it, not
  behind a `--`. The command is the first argument that is not part of such an option
  (`behindCommand`). Both are said of the list alone, for no parser in particular: where the list is a
  proper use of the program, no `--skip` of it can be anything but the option, because the value of an
  option never looks like one.

  Not all that is given counts. If mnemonics are given on both sides of the command, those before it are
  overridden (`Counts`). That is a property a parser has or has not (`Parser.OverridesOuterSkips`).
  Proved: the program's own has it (`Invocation.overridesOuterSkips_parse`).
-/

import Mathlib
import TraceReplay.CommandLine.Arguments

namespace TraceReplay

namespace CommandLine

/-! ## Mnemonics that are given -/

/-- The mnemonic stands behind `--skip` or is attached to it, and no `--` stands before. -/
def Gives (args : List String) (m : String) : Prop :=
  ∃ before after, "--" ∉ before ∧
    (args = before ++ "--skip" :: m :: after ∨ args = before ++ ("--skip=" ++ m) :: after)

/-- The arguments behind the command, before which mnemonics may be given. -/
def behindCommand : List String → List String
  | [] => []
  | [_] => []
  | argument :: next :: rest =>
    if argument = "--skip" then behindCommand rest
    else if "--skip=".toList <+: argument.toList then behindCommand (next :: rest)
    else next :: rest

/-- The mnemonic is given, and if any are given behind the command, it is one of them. -/
def Counts (args : List String) (m : String) : Prop :=
  Gives args m ∧ (Gives (behindCommand args) m ∨ ∀ m', ¬ Gives (behindCommand args) m')

def Parser.Accepts (parse : Parser) (args : List String) : Prop := ∃ i, parse args = .ok i

/-- The mnemonics that the parser hands over are those that count. -/
def Parser.OverridesOuterSkips (parse : Parser) : Prop :=
  ∀ args i, parse args = .ok i → ∀ m, m ∈ i.skip ↔ Counts args m

variable {a m value key : String} {args rest : List String} {command : Option CommandName} {s : Scan}

theorem Parser.OverridesOuterSkips.handsOver_iff {parse : Parser} (h : parse.OverridesOuterSkips) :
    (∃ i, parse args = .ok i ∧ m ∈ i.skip) ↔ parse.Accepts args ∧ Counts args m := by
  constructor
  · rintro ⟨i, hi, hm⟩
    exact ⟨⟨i, hi⟩, (h args i hi m).mp hm⟩
  · rintro ⟨⟨i, hi⟩, hm⟩
    exact ⟨i, hi, (h args i hi m).mpr hm⟩

theorem not_gives_nil : ¬ Gives [] m := by
  rintro ⟨before, after, -, h | h⟩ <;> simp at h

theorem gives_cons : Gives (a :: rest) m ↔
    a = "--skip" ∧ rest.head? = some m ∨ a = "--skip=" ++ m ∨ a ≠ "--" ∧ Gives rest m := by
  constructor
  · rintro ⟨before, after, hbefore, h⟩
    cases before with
    | nil =>
      rcases h with h | h
      · cases h
        exact .inl ⟨rfl, rfl⟩
      · cases h
        exact .inr (.inl rfl)
    | cons b before =>
      rw [List.mem_cons, not_or] at hbefore
      refine .inr (.inr ?_)
      rcases h with h | h
      · cases h
        exact ⟨Ne.symm hbefore.1, before, after, hbefore.2, .inl rfl⟩
      · cases h
        exact ⟨Ne.symm hbefore.1, before, after, hbefore.2, .inr rfl⟩
  · rintro (⟨rfl, hrest⟩ | rfl | ⟨ha, before, after, hbefore, h⟩)
    · obtain ⟨after, rfl⟩ := List.head?_eq_some_iff.mp hrest
      exact ⟨[], after, List.not_mem_nil, .inl rfl⟩
    · exact ⟨[], rest, List.not_mem_nil, .inr rfl⟩
    · refine ⟨a :: before, after, ?_, ?_⟩
      · rw [List.mem_cons, not_or]
        exact ⟨ha.symm, hbefore⟩
      · rcases h with rfl | rfl
        · exact .inl rfl
        · exact .inr rfl

/-! ## Arguments -/

theorem ofText_skip : Argument.ofText "--skip" = .option "--skip" none := by decide +kernel

theorem ofText_endOfOptions : Argument.ofText "--" = .endOfOptions := by decide +kernel

theorem ofText_skip_attached (m : String) : Argument.ofText ("--skip=" ++ m) = .option "--skip" (some m) := by
  have hlist : ("--skip=" ++ m).toList = '-' :: '-' :: 's' :: 'k' :: 'i' :: 'p' :: '=' :: m.toList := by
    rw [String.toList_append]
    rfl
  rw [Argument.ofText, hlist]
  simp [afterEquals?]

theorem eq_of_ofText_endOfOptions (h : Argument.ofText a = .endOfOptions) : a = "--" := by
  unfold Argument.ofText at h
  split at h
  · rename_i hlist
    exact String.toList_inj.mp hlist
  all_goals cases h

/-- What stands behind the first equals sign, and what stands before it. -/
theorem eq_of_afterEquals? {cs : List Char} {attached : Option String} (h : afterEquals? cs = attached) :
    cs = cs.takeWhile (· ≠ '=') ++ (attached.map fun value => '=' :: value.toList).getD [] := by
  subst h
  unfold afterEquals?
  split
  · rename_i hnil
    conv_lhs => rw [← List.takeWhile_append_dropWhile (p := (· ≠ '=')) (l := cs), hnil]
    rfl
  · rename_i c rest hcons
    have hc : c = '=' := by
      have := List.head?_dropWhile_not (· ≠ '=') cs
      rw [hcons] at this
      simpa using this
    conv_lhs => rw [← List.takeWhile_append_dropWhile (p := (· ≠ '=')) (l := cs), hcons, hc]
    simp

/-- Only `--skip` itself, alone or with its value attached, is the option of that name. -/
theorem toList_of_ofText_skip {attached : Option String} (h : Argument.ofText a = .option "--skip" attached) :
    a.toList = "--skip".toList ++ (attached.map fun value => '=' :: value.toList).getD [] := by
  unfold Argument.ofText at h
  split at h
  · cases h
  · rename_i rest _ hlist
    simp only [Argument.option.injEq] at h
    obtain ⟨hkey, hattached⟩ := h
    have htaken : rest.takeWhile (· ≠ '=') = ['s', 'k', 'i', 'p'] := by
      have := congrArg String.toList hkey
      rw [String.toList_append, String.toList_ofList] at this
      simpa using this
    have hrest := eq_of_afterEquals? hattached
    rw [htaken] at hrest
    rw [hlist, hrest]
    rfl
  · rename_i letter rest hne hlist
    simp only [Argument.option.injEq] at h
    have := congrArg String.toList h.1
    simp at this
  · cases h

theorem eq_of_ofText_skip (h : Argument.ofText a = .option "--skip" none) : a = "--skip" :=
  String.toList_inj.mp (by simpa using toList_of_ofText_skip h)

theorem eq_of_ofText_skip_attached (h : Argument.ofText a = .option "--skip" (some m)) : a = "--skip=" ++ m := by
  refine String.toList_inj.mp ?_
  rw [toList_of_ofText_skip h, String.toList_append]
  rfl

theorem skip_ne_attached (m : String) : "--skip" ≠ "--skip=" ++ m := by
  intro h
  cases ofText_skip.symm.trans ((congrArg Argument.ofText h).trans (ofText_skip_attached m))

theorem endOfOptions_ne_attached (m : String) : "--" ≠ "--skip=" ++ m := by
  intro h
  cases ofText_endOfOptions.symm.trans ((congrArg Argument.ofText h).trans (ofText_skip_attached m))

/-- An argument that is a word, or an option of another name, gives nothing. -/
theorem gives_cons_of_ne (hskip : ∀ attached, Argument.ofText a ≠ .option "--skip" attached)
    (hend : Argument.ofText a ≠ .endOfOptions) : Gives (a :: rest) m ↔ Gives rest m := by
  have h₁ : a ≠ "--skip" := by
    rintro rfl
    exact hskip _ ofText_skip
  have h₂ : a ≠ "--skip=" ++ m := by
    rintro rfl
    exact hskip _ (ofText_skip_attached m)
  have h₃ : a ≠ "--" := by
    rintro rfl
    exact hend ofText_endOfOptions
  simp [gives_cons, h₁, h₂, h₃]

theorem gives_word_cons {text : String} (h : Argument.ofText a = .word text) : Gives (a :: rest) m ↔ Gives rest m :=
  gives_cons_of_ne (fun _ => by rw [h]; exact nofun) (by rw [h]; exact nofun)

theorem behindCommand_separate : behindCommand ("--skip" :: a :: rest) = behindCommand rest := by
  simp [behindCommand]

theorem behindCommand_attached (hrest : rest ≠ []) : behindCommand (("--skip=" ++ m) :: rest) = behindCommand rest := by
  obtain ⟨next, rest, rfl⟩ := List.exists_cons_of_ne_nil hrest
  rw [behindCommand, if_neg (skip_ne_attached m).symm, if_pos]
  rw [String.toList_append]
  exact List.prefix_append _ _

theorem behindCommand_word {text : String} (h : Argument.ofText a = .word text) : behindCommand (a :: rest) = rest := by
  have hskip : a ≠ "--skip" := by
    rintro rfl
    cases h.symm.trans ofText_skip
  have hattached : ¬ "--skip=".toList <+: a.toList := by
    rintro ⟨value, hlist⟩
    have ha : a = "--skip=" ++ String.ofList value := by
      rw [← String.toList_inj, ← hlist, String.toList_append, String.toList_ofList (l := value)]
    cases h.symm.trans (ha ▸ ofText_skip_attached _)
  cases rest with
  | nil => rfl
  | cons next rest => rw [behindCommand, if_neg hskip, if_neg hattached]

/-! ## Scans -/

/-- How a proper list of arguments is read, one word or option at a time. -/
inductive Scans : Option CommandName → List String → Scan → Prop
  | nil (c : CommandName) : Scans (some c) [] { command := c }
  | command {a text : String} {c : CommandName} {rest : List String} {s : Scan} :
      Argument.ofText a = .word text → Scans (some c) rest s → Scans none (a :: rest) s
  | word {a text : String} {c : CommandName} {rest : List String} {s : Scan} :
      Argument.ofText a = .word text → Scans (some c) rest s → Scans (some c) (a :: rest) (s.addWord text)
  | endOfOptions (c : CommandName) (rest : List String) : Scans (some c) ("--" :: rest) { command := c, words := rest }
  | attached {command : Option CommandName} {a key value : String} {name : OptionName} {rest : List String} {s : Scan} :
      Argument.ofText a = .option key (some value) → optionName? key command = some name → Scans command rest s →
      Scans command (a :: rest) (s.addOption command.isNone (name, value))
  | separate {command : Option CommandName} {a key next value : String} {name : OptionName} {rest : List String}
      {s : Scan} :
      Argument.ofText a = .option key none → optionName? key command = some name →
      Argument.ofText next = .word value → Scans command rest s →
      Scans command (a :: next :: rest) (s.addOption command.isNone (name, value))
  | flag {command : Option CommandName} {a key : String} {name : OptionName} {rest : List String} {s : Scan} :
      Argument.ofText a = .option key none → optionName? key command = some name → name.takesValue = false →
      Scans command rest s → Scans command (a :: rest) (s.addOption command.isNone (name, ""))

theorem bind_eq_ok_iff {ε α β : Type} {x : Except ε α} {f : α → Except ε β} {b : β} :
    x >>= f = .ok b ↔ ∃ a, x = .ok a ∧ f a = .ok b := by
  cases x with
  | error e => simp [bind, Except.bind]
  | ok a => simp [bind, Except.bind]

theorem require_eq_ok_iff {α : Type} {x : Option α} {a : α} : require x = .ok a ↔ x = some a := by
  cases x <;> simp [require]

theorem scans_of_ofArguments (h : Scan.ofArguments command args = .ok s) : Scans command args s := by
  induction command, args using Scan.ofArguments.induct generalizing s with
  | case1 command =>
    rw [Scan.ofArguments] at h
    obtain ⟨c, hc, hs⟩ := bind_eq_ok_iff.mp h
    cases hs
    rw [require_eq_ok_iff.mp hc]
    exact .nil c
  | case2 a rest hword => simp [Scan.ofArguments, hword] at h
  | case3 a rest text hword hhelp ih =>
    unfold Scan.ofArguments at h
    simp only [hword, if_neg hhelp] at h
    obtain ⟨c, -, hrest⟩ := bind_eq_ok_iff.mp h
    exact .command hword (ih c hrest)
  | case4 a rest text c hword ih =>
    unfold Scan.ofArguments at h
    simp only [hword] at h
    obtain ⟨s₁, hrest, hs⟩ := bind_eq_ok_iff.mp h
    cases hs
    exact .word hword (ih hrest)
  | case5 a rest hend => simp [Scan.ofArguments, hend] at h
  | case6 a rest c hend =>
    unfold Scan.ofArguments at h
    simp only [hend] at h
    cases h
    rw [eq_of_ofText_endOfOptions hend]
    exact .endOfOptions c rest
  | case7 command a rest key attached hoption hshows =>
    unfold Scan.ofArguments at h
    simp [hoption, hshows] at h
  | case8 command a rest key attached hoption hshows ih ihnext =>
    unfold Scan.ofArguments at h
    simp only [hoption, if_neg hshows] at h
    obtain ⟨name, hrequire, hvalue⟩ := bind_eq_ok_iff.mp h
    have hname := require_eq_ok_iff.mp hrequire
    -- a value in the same argument, a value in the next one, or none to take
    split at hvalue
    · obtain ⟨s₁, hrest, hs⟩ := bind_eq_ok_iff.mp hvalue
      cases hs
      exact .attached hoption hname (ih hrest)
    · split at hvalue
      · cases hvalue
      · split at hvalue
        · rename_i hword
          obtain ⟨s₁, hrest, hs⟩ := bind_eq_ok_iff.mp hvalue
          cases hs
          exact .separate hoption hname hword (ihnext hrest)
        · cases hvalue
    · rename_i hflag
      obtain ⟨s₁, hrest, hs⟩ := bind_eq_ok_iff.mp hvalue
      cases hs
      exact .flag hoption hname hflag (ih hrest)
    · cases hvalue

theorem optionName?_eq_skip_iff {name : OptionName} (h : optionName? key command = some name) :
    name = .skip ↔ key = "--skip" := by
  constructor
  · rintro rfl
    unfold optionName? at h
    split at h <;> split at h <;> first | rfl | cases h
  · rintro rfl
    rcases command with _ | (_ | _ | _) <;> cases h <;> rfl

/-- Before the command there is no option but `--skip`. -/
theorem eq_of_optionName?_none {name : OptionName} (h : optionName? key none = some name) :
    key = "--skip" ∧ name = .skip := by
  simp only [optionName?] at h
  split at h <;> cases h
  exact ⟨rfl, rfl⟩

theorem word_eq {text : String} (h : Argument.ofText a = .word text) : text = a := by
  unfold Argument.ofText at h
  split at h <;> cases h
  rfl

/-- What an option with its value attached gives, and what follows it. -/
theorem gives_attached {name : OptionName} (ha : Argument.ofText a = .option key (some value))
    (hname : optionName? key command = some name) :
    Gives (a :: rest) m ↔ (OptionName.skip, m) = (name, value) ∨ Gives rest m := by
  rw [Prod.mk.injEq, eq_comm, optionName?_eq_skip_iff hname]
  by_cases hkey : key = "--skip"
  · subst hkey
    obtain rfl := eq_of_ofText_skip_attached ha
    rw [gives_cons]
    simp [(skip_ne_attached value).symm, (endOfOptions_ne_attached value).symm, String.append_right_inj, eq_comm]
  · rw [gives_cons_of_ne (fun _ => by rw [ha]; simp [hkey]) (by rw [ha]; exact nofun)]
    simp [hkey]

/-- The same if the value is an argument of its own. -/
theorem gives_separate {name : OptionName} {next : String} (ha : Argument.ofText a = .option key none)
    (hname : optionName? key command = some name) (hnext : Argument.ofText next = .word value) :
    Gives (a :: next :: rest) m ↔ (OptionName.skip, m) = (name, value) ∨ Gives rest m := by
  rw [Prod.mk.injEq, eq_comm, optionName?_eq_skip_iff hname, word_eq hnext]
  by_cases hkey : key = "--skip"
  · subst hkey
    obtain rfl := eq_of_ofText_skip ha
    rw [gives_cons, gives_word_cons hnext]
    simp [skip_ne_attached, eq_comm]
  · rw [gives_cons_of_ne (fun _ => by rw [ha]; simp [hkey]) (by rw [ha]; exact nofun), gives_word_cons hnext]
    simp [hkey]

/-- A flag gives nothing. -/
theorem gives_flag {name : OptionName} (ha : Argument.ofText a = .option key none)
    (hname : optionName? key command = some name) (hflag : name.takesValue = false) :
    Gives (a :: rest) m ↔ Gives rest m := by
  have hkey : key ≠ "--skip" := by
    intro hkey
    rw [(optionName?_eq_skip_iff hname).mpr hkey] at hflag
    cases hflag
  exact gives_cons_of_ne (fun _ => by rw [ha]; simp [hkey]) (by rw [ha]; exact nofun)

namespace Scans

theorem isNone_eq_false (hc : command ≠ none) : command.isNone = false :=
  Option.isNone_eq_false_iff.mpr (Option.isSome_iff_ne_none.mpr hc)

/-- Behind the command, the values of `--skip` are the mnemonics that are given. -/
theorem mem_inner_iff (h : Scans command args s) (hc : command ≠ none) :
    (OptionName.skip, m) ∈ s.inner ↔ Gives args m := by
  induction h with
  | nil c => simp [not_gives_nil]
  | command => exact absurd rfl hc
  | word hword _ ih =>
    rw [gives_word_cons hword, ← ih hc]
    rfl
  | endOfOptions c rest => simp [gives_cons, endOfOptions_ne_attached]
  | attached ha hname _ ih =>
    rw [gives_attached ha hname, ← ih hc, isNone_eq_false hc]
    exact List.mem_cons
  | separate ha hname hnext _ ih =>
    rw [gives_separate ha hname hnext, ← ih hc, isNone_eq_false hc]
    exact List.mem_cons
  | @flag command a key name rest s ha hname hflag _ ih =>
    have hne : (OptionName.skip, m) ≠ (name, "") := by
      intro heq
      cases heq
      cases hflag
    rw [gives_flag ha hname hflag, ← ih hc, isNone_eq_false hc]
    exact List.mem_cons.trans (or_iff_right hne)

theorem outer_eq_nil (h : Scans command args s) (hc : command ≠ none) : s.outer = [] := by
  induction h with
  | nil c => rfl
  | command => exact absurd rfl hc
  | word _ _ ih => exact ih hc
  | endOfOptions c rest => rfl
  | attached _ _ _ ih | separate _ _ _ _ ih | flag _ _ _ _ ih =>
    rw [isNone_eq_false hc]
    exact ih hc

theorem ne_nil (h : Scans none args s) : args ≠ [] := by
  rintro rfl
  cases h

/-- A list that starts before the command gives what the options before the command give, and what is
    given behind it. -/
theorem split_at_command (h : Scans none args s) : ∃ c s₁, Scans (some c) (behindCommand args) s₁ ∧
    s.inner = s₁.inner ∧ ∀ m, Gives args m ↔ (OptionName.skip, m) ∈ s.outer ∨ Gives (behindCommand args) m := by
  generalize hnone : (none : Option CommandName) = command at h
  induction h with
  | nil | word | endOfOptions => cases hnone
  | @command a text c rest s hword hrest =>
    rw [behindCommand_word hword]
    refine ⟨c, s, hrest, rfl, fun m => ?_⟩
    rw [gives_word_cons hword, hrest.outer_eq_nil nofun]
    simp
  | @attached command a key value name rest s ha hname hrest ih =>
    subst hnone
    obtain ⟨c, s₁, hscans, hinner, hgives⟩ := ih rfl
    have hbehind : behindCommand (a :: rest) = behindCommand rest := by
      obtain ⟨rfl, -⟩ := eq_of_optionName?_none hname
      rw [eq_of_ofText_skip_attached ha]
      exact behindCommand_attached hrest.ne_nil
    refine ⟨c, s₁, by rwa [hbehind], hinner, fun m => ?_⟩
    rw [hbehind, gives_attached ha hname, hgives, ← or_assoc]
    exact or_congr_left List.mem_cons.symm
  | @separate command a key next value name rest s ha hname hnext _ ih =>
    subst hnone
    obtain ⟨c, s₁, hscans, hinner, hgives⟩ := ih rfl
    have hbehind : behindCommand (a :: next :: rest) = behindCommand rest := by
      obtain ⟨rfl, -⟩ := eq_of_optionName?_none hname
      rw [eq_of_ofText_skip ha]
      exact behindCommand_separate
    refine ⟨c, s₁, by rwa [hbehind], hinner, fun m => ?_⟩
    rw [hbehind, gives_separate ha hname hnext, hgives, ← or_assoc]
    exact or_congr_left List.mem_cons.symm
  | @flag command a key name rest s ha hname hflag _ ih =>
    subst hnone
    obtain ⟨-, rfl⟩ := eq_of_optionName?_none hname
    cases hflag

end Scans

/-! ## Invocations -/

theorem mem_valuesIn {options : List (OptionName × String)} {name : OptionName} :
    m ∈ Scan.valuesIn options name ↔ (name, m) ∈ options := by
  simp only [Scan.valuesIn, List.mem_map, List.mem_filter, decide_eq_true_eq]
  constructor
  · rintro ⟨option, ⟨hin, rfl⟩, rfl⟩
    exact hin
  · intro hin
    exact ⟨(name, m), ⟨hin, rfl⟩, rfl⟩

/-- The program's parser hands over what counts. -/
theorem Invocation.overridesOuterSkips_parse : Parser.OverridesOuterSkips Invocation.parse := by
  intro args i h m
  obtain ⟨s, hs, hcommand⟩ := bind_eq_ok_iff.mp h
  obtain ⟨command, -, hi⟩ := bind_eq_ok_iff.mp hcommand
  cases hi
  obtain ⟨c, s₁, hscans, hinner, hgives⟩ := (scans_of_ofArguments hs).split_at_command
  have hbehind (m : String) : m ∈ Scan.valuesIn s.inner .skip ↔ Gives (behindCommand args) m := by
    rw [mem_valuesIn, hinner]
    exact hscans.mem_inner_iff nofun
  show m ∈ s.skips ↔ _
  rw [Counts, hgives, ← mem_valuesIn, Scan.skips, Scan.values]
  simp only [← hbehind]
  cases hvalues : Scan.valuesIn s.inner .skip with
  | nil => simp
  | cons v vs =>
    have hsome : ¬ ∀ m', m' ∉ v :: vs := fun hnone => hnone v List.mem_cons_self
    simp only [hsome, or_false]
    exact ⟨fun hm => ⟨.inr hm, hm⟩, fun hm => hm.2⟩

end CommandLine

end TraceReplay
