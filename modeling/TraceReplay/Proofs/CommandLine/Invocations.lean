/-
  TraceReplay.Proofs.CommandLine.Invocations — what a sequence of invocations leaves behind.

  All is said of any parser. An invocation that the parser hands over has its mnemonics stored before its
  command is carried out, so they stay whatever becomes of the command (`contains_invoke`). Along a
  history the stored set is the standard one with all that was handed over (`contains_after`), and no
  order or failure shows in it. Whether that is all that was given rests with the parser: one that
  overrides what stands before the command (`SkipOptions`), as the program's does, loses mnemonics.

  What a command writes is said without the order of its steps (`Emits`): every trace is there and is
  replayed to its end with the set in force, every register is read, and the text is the solver's text
  for what was read. A file changes only for such a text (`execute_eq_ok_iff`, `invoke_cases`).

  Proved, of every parser, directory and history
  (`invocations_store_what_counts_and_write_what_succeeds`): the set in force, when it is all that was
  given, and which file is written with which content.
-/

import TraceReplay.CommandLine.Workspace
import TraceReplay.Proofs.CommandLine.SkipOptions
import TraceReplay.Proofs.SortedMap

namespace TraceReplay

theorem SkipSet.contains_extend {s : SkipSet} {ms : List String} {m : String} :
    (s.extend ms).contains m ↔ s.contains m ∨ m ∈ ms := by
  have contains_iff {s : SkipSet} : s.contains m ↔ (m, ()) ∈ s.mnemonics.entries := by
    rw [contains, SortedMap.contains, Option.isSome_iff_exists, ← SortedMap.get?_eq_some_iff]
    constructor
    · rintro ⟨_, h⟩
      exact h
    · intro h
      exact ⟨(), h⟩
  rw [contains_iff, contains_iff, extend, SortedMap.mem_insertMany_map]
  by_cases hm : m ∈ ms <;> simp [hm]

namespace CommandLine

/-! ## What a command gives -/

def Command.output? : Command → Option String
  | .report _ _ => none
  | .term _ output => some output
  | .comparison _ _ _ output => some output

/-- The trace in the file is replayed to its end. -/
def Replays (files : SortedMap String String) (skip : SkipSet) (path : String) (s : Session) : Prop :=
  ∃ name text records, Workspace.fileName? path = some name ∧ files.get? name = some text ∧
    Record.trace? text = some records ∧ Replay.run records (.seeded skip) = .ok () s

def Reads (files : SortedMap String String) (skip : SkipSet) (source : Source) (t : Subject) : Prop :=
  ∃ s s' value, Replays files skip source.trace s ∧ Replay.readNamed source.register s = .ok value s' ∧
    t = ⟨s'.table, value⟩

inductive Emits (files : SortedMap String String) (skip : SkipSet) : Command → String → Prop
  | term {source : Source} {output text : String} {t : Subject} :
      Reads files skip source t → t.table.solverText t.root = .ok text → Emits files skip (.term source output) text
  | comparison {first second : Source} {pairs : List (ValueId × ValueId)} {output : String} {a b : Subject}
      {query : Solver.EquivalenceQuery} :
      Reads files skip first a → Reads files skip second b → pairs ≠ [] →
      Solver.EquivalenceQuery.build a b pairs = .ok query →
      Emits files skip (.comparison first second pairs output) query.text

variable {w : Workspace} {skip : SkipSet} {path output : String} {s : Session}

theorem lift_eq_ok_iff {α : Type} {x : Except Fault α} {a : α} : lift x = .ok a ↔ x = .ok a := by
  cases x <;> simp [lift]

theorem perform_eq_ok_iff {α : Type} {r : Replay α} {p : α × Session} : perform r s = .ok p ↔ r s = .ok p.1 p.2 := by
  unfold perform
  cases r s <;> simp [Prod.ext_iff]

theorem load_eq_ok_iff {records : List Instruction} : load w.texts path = .ok records ↔
    ∃ name text, Workspace.fileName? path = some name ∧ w.files.get? name = some text ∧
      Record.trace? text = some records := by
  unfold load Workspace.texts
  cases hname : Workspace.fileName? path with
  | none => simp
  | some name =>
    rw [Option.bind_some]
    cases htext : w.files.get? name with
    | none => simp [htext]
    | some text => cases hrecords : Record.trace? text <;> simp [htext, hrecords]

theorem replay_eq_ok_iff : replay w.texts skip path = .ok s ↔ Replays w.files skip path s := by
  simp only [replay, bind_eq_ok_iff, load_eq_ok_iff, perform_eq_ok_iff]
  constructor
  · rintro ⟨records, ⟨name, text, hname, htext, hrecords⟩, ⟨_, s'⟩, hrun, hs⟩
    cases hs
    exact ⟨name, text, records, hname, htext, hrecords, hrun⟩
  · rintro ⟨name, text, records, hname, htext, hrecords, hrun⟩
    exact ⟨records, ⟨name, text, hname, htext, hrecords⟩, ((), s), hrun, rfl⟩

theorem subject_eq_ok_iff {register : String} {t : Subject} : subject s register = .ok t ↔
    ∃ s' value, Replay.readNamed register s = .ok value s' ∧ t = ⟨s'.table, value⟩ := by
  simp only [subject, bind_eq_ok_iff, perform_eq_ok_iff]
  constructor
  · rintro ⟨⟨value, s'⟩, hread, ht⟩
    cases ht
    exact ⟨s', value, hread, rfl⟩
  · rintro ⟨s', value, hread, rfl⟩
    exact ⟨(value, s'), hread, rfl⟩

/-- Replaying and reading, which a comparison does for both sides in turns. -/
theorem reads_iff {source : Source} {t : Subject} : Reads w.files skip source t ↔
    ∃ s, replay w.texts skip source.trace = .ok s ∧ subject s source.register = .ok t := by
  simp only [replay_eq_ok_iff, subject_eq_ok_iff]
  constructor
  · rintro ⟨s, s', value, hreplay, hread, ht⟩
    exact ⟨s, hreplay, s', value, hread, ht⟩
  · rintro ⟨s, hreplay, s', value, hread, ht⟩
    exact ⟨s, s', value, hreplay, hread, ht⟩

/-- A command that writes a file succeeds exactly if there is a text for it. -/
theorem execute_eq_ok_iff {command : Command} {product : Product} (h : command.output? = some output) :
    command.execute w.texts skip = .ok product ↔
      ∃ content, Emits w.files skip command content ∧ product = { file := some (output, content) } := by
  cases command with
  | report => cases h
  | term source path =>
    cases h
    simp only [Command.execute, bind_eq_ok_iff, lift_eq_ok_iff]
    constructor
    · rintro ⟨s, hreplay, t, hsubject, text, htext, hproduct⟩
      cases hproduct
      exact ⟨text, .term (reads_iff.mpr ⟨s, hreplay, hsubject⟩) htext, rfl⟩
    · rintro ⟨text, hemits, rfl⟩
      cases hemits with
      | term hreads htext =>
        obtain ⟨s, hreplay, hsubject⟩ := reads_iff.mp hreads
        exact ⟨s, hreplay, _, hsubject, text, htext, rfl⟩
  | comparison first second pairs path =>
    cases h
    simp only [Command.execute, bind_eq_ok_iff]
    constructor
    · rintro ⟨s₁, hreplay₁, s₂, hreplay₂, a, hsubject₁, b, hsubject₂, hpairs⟩
      split at hpairs
      · cases hpairs
      · rename_i hne
        obtain ⟨query, hbuild, hproduct⟩ := bind_eq_ok_iff.mp hpairs
        cases hproduct
        exact ⟨query.text, .comparison (reads_iff.mpr ⟨s₁, hreplay₁, hsubject₁⟩)
          (reads_iff.mpr ⟨s₂, hreplay₂, hsubject₂⟩) (mt List.isEmpty_iff.mpr hne) (lift_eq_ok_iff.mp hbuild), rfl⟩
    · rintro ⟨_, hemits, rfl⟩
      cases hemits with
      | comparison hreads₁ hreads₂ hne hbuild =>
        obtain ⟨s₁, hreplay₁, hsubject₁⟩ := reads_iff.mp hreads₁
        obtain ⟨s₂, hreplay₂, hsubject₂⟩ := reads_iff.mp hreads₂
        refine ⟨s₁, hreplay₁, s₂, hreplay₂, _, hsubject₁, _, hsubject₂, ?_⟩
        rw [if_neg (mt List.isEmpty_iff.mp hne)]
        exact bind_eq_ok_iff.mpr ⟨_, lift_eq_ok_iff.mpr hbuild, rfl⟩

theorem file_eq_none_of_execute {command : Command} {product : Product} (h : command.output? = none)
    (hexecute : command.execute w.texts skip = .ok product) : product.file = none := by
  cases command with
  | report trace style =>
    obtain ⟨s, -, hproduct⟩ := bind_eq_ok_iff.mp hexecute
    cases hproduct
    rfl
  | term | comparison => cases h

/-- There is one text at most, because the command is carried out in one way. -/
theorem Emits.unique {command : Command} {c c' : String} (h : Emits w.files skip command c)
    (h' : Emits w.files skip command c') : c = c' := by
  obtain ⟨output, houtput⟩ : ∃ output, command.output? = some output := by
    cases h <;> exact ⟨_, rfl⟩
  have hexecute := (execute_eq_ok_iff houtput).mpr ⟨c, h, rfl⟩
  cases hexecute.symm.trans ((execute_eq_ok_iff houtput).mpr ⟨c', h', rfl⟩)
  rfl

/-! ## One invocation -/

namespace Workspace

variable {parse : Parser} {args : List String} {i : Invocation} {m : String}

theorem deliver_of_file_eq_none {product : Product} (h : product.file = none) :
    w.deliver product = .ok ({ code := 0, stdout := product.printed }, w) := by
  simp only [deliver, h]
  rfl

theorem deliver_of_fileName? {product : Product} {content name : String} (h : product.file = some (output, content))
    (hname : fileName? output = some name) :
    w.deliver product = .ok ({ code := 0, stdout := product.printed }, { w with files := w.files.insert name content }) := by
  simp only [deliver, h, store, hname]
  rfl

theorem deliver_of_fileName?_eq_none {product : Product} {content : String}
    (h : product.file = some (output, content)) (hname : fileName? output = none) :
    w.deliver product = .error .missingDirectory := by
  simp only [deliver, h, store, hname]
  rfl

theorem invoke_of_refused {outcome : Outcome} (h : parse args = .error outcome) :
    w.invoke args parse = (outcome, w) := by
  simp only [invoke, h]

section Accepted

-- `v` is the workspace once the mnemonics of the invocation are stored
variable {v : Workspace} (h : parse args = .ok i) (hv : v = { w with skip := w.skip.extend i.skip })

include h hv

theorem invoke_of_ok {result : Outcome × Workspace}
    (hresult : i.command.execute v.texts v.skip >>= v.deliver = .ok result) : w.invoke args parse = result := by
  subst hv
  simp only [invoke, h, hresult]

theorem invoke_of_error {failure : Failure}
    (hfailure : i.command.execute v.texts v.skip >>= v.deliver = .error failure) :
    w.invoke args parse = ({ code := 1, stderr := failure.text }, v) := by
  subst hv
  simp only [invoke, h, hfailure]

end Accepted

/-- What can become of an invocation that the parser hands over. It stores its mnemonics in every case. It
    succeeds with nothing to write, succeeds and writes one file, or fails and writes none. -/
theorem invoke_cases (h : parse args = .ok i) :
    (w.invoke args parse).2.skip = w.skip.extend i.skip ∧
    ((∃ product, i.command.execute w.texts (w.skip.extend i.skip) = .ok product ∧ product.file = none ∧
        (w.invoke args parse).1.code = 0 ∧ (w.invoke args parse).2.files = w.files) ∨
      (∃ product output content name, i.command.execute w.texts (w.skip.extend i.skip) = .ok product ∧
        product.file = some (output, content) ∧ fileName? output = some name ∧
        (w.invoke args parse).1.code = 0 ∧ (w.invoke args parse).2.files = w.files.insert name content) ∨
      ((∀ product, i.command.execute w.texts (w.skip.extend i.skip) = .ok product →
          ∃ output content, product.file = some (output, content) ∧ fileName? output = none) ∧
        (w.invoke args parse).1.code = 1 ∧ (w.invoke args parse).2.files = w.files)) := by
  obtain ⟨v, hv⟩ : ∃ v : Workspace, v = { w with skip := w.skip.extend i.skip } := ⟨_, rfl⟩
  have hfiles : v.files = w.files := by rw [hv]
  have hskip : v.skip = w.skip.extend i.skip := by rw [hv]
  have htexts : v.texts = w.texts := by unfold texts; rw [hfiles]
  rw [← hskip, ← htexts, ← hfiles]
  cases hexecute : i.command.execute v.texts v.skip with
  | error failure =>
    have hfailure : i.command.execute v.texts v.skip >>= v.deliver = .error failure := by rw [hexecute]; rfl
    rw [invoke_of_error h hv hfailure]
    exact ⟨rfl, .inr (.inr ⟨nofun, rfl, rfl⟩)⟩
  | ok product =>
    have hdeliver : i.command.execute v.texts v.skip >>= v.deliver = v.deliver product := by rw [hexecute]; rfl
    cases hfile : product.file with
    | none =>
      rw [invoke_of_ok h hv (hdeliver.trans (deliver_of_file_eq_none hfile))]
      exact ⟨rfl, .inl ⟨product, rfl, hfile, rfl, rfl⟩⟩
    | some file =>
      obtain ⟨output, content⟩ := file
      cases hname : fileName? output with
      | none =>
        rw [invoke_of_error h hv (hdeliver.trans (deliver_of_fileName?_eq_none hfile hname))]
        refine ⟨rfl, .inr (.inr ⟨?_, rfl, rfl⟩)⟩
        rintro _ ⟨⟩
        exact ⟨output, content, hfile, hname⟩
      | some name =>
        rw [invoke_of_ok h hv (hdeliver.trans (deliver_of_fileName? hfile hname))]
        exact ⟨rfl, .inr (.inl ⟨product, output, content, name, rfl, hfile, hname, rfl, rfl⟩)⟩

/-- An invocation that does not succeed changes no file. -/
theorem files_invoke_of_code_ne_zero (h : (w.invoke args parse).1.code ≠ 0) : (w.invoke args parse).2.files = w.files := by
  cases hparse : parse args with
  | error outcome => rw [invoke_of_refused hparse]
  | ok i =>
    obtain ⟨-, ⟨_, -, -, hcode, -⟩ | ⟨_, _, _, _, -, -, -, hcode, -⟩ | ⟨-, -, hfiles⟩⟩ := invoke_cases (w := w) hparse
    · exact absurd hcode h
    · exact absurd hcode h
    · exact hfiles

theorem files_invoke_of_output?_eq_none (h : parse args = .ok i) (houtput : i.command.output? = none) :
    (w.invoke args parse).2.files = w.files := by
  obtain ⟨-, ⟨_, -, -, -, hfiles⟩ | ⟨_, _, _, _, hexecute, hfile, -⟩ | ⟨-, -, hfiles⟩⟩ := invoke_cases (w := w) h
  · exact hfiles
  · cases hfile.symm.trans (file_eq_none_of_execute houtput hexecute)
  · exact hfiles

/-- An invocation whose command writes a file succeeds exactly if there is a text and a place for it. -/
theorem code_invoke_eq_zero_iff (h : parse args = .ok i) (houtput : i.command.output? = some output) :
    (w.invoke args parse).1.code = 0 ↔
      ∃ content name, Emits w.files (w.invoke args parse).2.skip i.command content ∧ fileName? output = some name := by
  obtain ⟨hskip, hcases⟩ := invoke_cases (w := w) h
  rw [hskip]
  rcases hcases with ⟨product, hexecute, hfile, -⟩ | ⟨product, path, content, name, hexecute, hfile, hname, hcode, -⟩ |
    ⟨hnone, hcode, -⟩
  · obtain ⟨content, -, rfl⟩ := (execute_eq_ok_iff houtput).mp hexecute
    cases hfile
  · obtain ⟨content', hemits, rfl⟩ := (execute_eq_ok_iff houtput).mp hexecute
    cases hfile
    exact iff_of_true hcode ⟨content, name, hemits, hname⟩
  · refine iff_of_false (by rw [hcode]; decide) ?_
    rintro ⟨content, name, hemits, hname⟩
    obtain ⟨path, content', hfile, hpath⟩ := hnone _ ((execute_eq_ok_iff houtput).mpr ⟨content, hemits, rfl⟩)
    cases hfile
    cases hname.symm.trans hpath

/-- The file that is written, and its content. -/
theorem files_invoke_of_emits (h : parse args = .ok i) (houtput : i.command.output? = some output)
    {content name : String} (hemits : Emits w.files (w.invoke args parse).2.skip i.command content)
    (hname : fileName? output = some name) : (w.invoke args parse).2.files = w.files.insert name content := by
  have hcode := (code_invoke_eq_zero_iff h houtput).mpr ⟨content, name, hemits, hname⟩
  obtain ⟨hskip, hcases⟩ := invoke_cases (w := w) h
  rcases hcases with ⟨product, hexecute, hfile, -⟩ | ⟨product, path, content', name', hexecute, hfile, hname', -, hfiles⟩ |
    ⟨-, hone, -⟩
  · obtain ⟨content, -, rfl⟩ := (execute_eq_ok_iff houtput).mp hexecute
    cases hfile
  · obtain ⟨_, hemits', rfl⟩ := (execute_eq_ok_iff houtput).mp hexecute
    cases hfile
    cases hname.symm.trans hname'
    rw [hfiles, hemits.unique (hskip ▸ hemits')]
  · cases hcode.symm.trans hone

/-! ## A history of invocations -/

def after (w : Workspace) (parse : Parser) (history : List (List String)) : Workspace :=
  history.foldl (fun w args => (w.invoke args parse).2) w

theorem contains_invoke : (w.invoke args parse).2.skip.contains m ↔
    w.skip.contains m ∨ ∃ i, parse args = .ok i ∧ m ∈ i.skip := by
  cases hparse : parse args with
  | error outcome => simp [invoke_of_refused hparse]
  | ok i =>
    rw [(invoke_cases hparse).1, SkipSet.contains_extend]
    simp

theorem contains_after {history : List (List String)} : (w.after parse history).skip.contains m ↔
    w.skip.contains m ∨ ∃ run ∈ history, ∃ i, parse run = .ok i ∧ m ∈ i.skip := by
  induction history generalizing w with
  | nil => simp [after]
  | cons args history ih =>
    rw [after, List.foldl_cons, ← after, ih, contains_invoke, or_assoc]
    simp

/-- After any history in a directory without a stored set, a further invocation has in force the
    standard mnemonics and those that the parser handed over, this invocation included. If the parser
    overrides what stands before the command, these are the mnemonics that counted in an invocation it
    accepted; they are all that was given, exactly if whatever was given without counting is in the set
    for another reason. Where the parser ends the run, nothing changes. A command with an output succeeds
    exactly if it has a text and a place for it, and then writes that text there. No other invocation
    changes a file. -/
theorem invocations_store_what_counts_and_write_what_succeeds (parse : Parser) (files : SortedMap String String)
    (history : List (List String)) (args : List String) :
    let w := Workspace.after { files } parse history
    let outcome := (w.invoke args parse).1
    let w' := (w.invoke args parse).2
    (∀ m, w'.skip.contains m ↔
      SkipSet.standard.contains m ∨ ∃ run ∈ history ++ [args], ∃ i, parse run = .ok i ∧ m ∈ i.skip) ∧
    (parse.OverridesOuterSkips →
      (∀ m, w'.skip.contains m ↔
        SkipSet.standard.contains m ∨ ∃ run ∈ history ++ [args], parse.Accepts run ∧ Counts run m) ∧
      ((∀ m, w'.skip.contains m ↔
          SkipSet.standard.contains m ∨ ∃ run ∈ history ++ [args], parse.Accepts run ∧ Gives run m) ↔
        ∀ run ∈ history ++ [args], parse.Accepts run → ∀ m, Gives run m → ¬ Counts run m → w'.skip.contains m)) ∧
    (∀ refusal, parse args = .error refusal → outcome = refusal ∧ w' = w) ∧
    (outcome.code ≠ 0 → w'.files = w.files) ∧
    ∀ i, parse args = .ok i →
      (i.command.output? = none → w'.files = w.files) ∧
      ∀ output, i.command.output? = some output →
        (outcome.code = 0 ↔
          ∃ content name, Emits w.files w'.skip i.command content ∧ fileName? output = some name) ∧
        ∀ content name, Emits w.files w'.skip i.command content → fileName? output = some name →
          w'.files = w.files.insert name content := by
  intro w outcome w'
  have hstored (m : String) : w'.skip.contains m ↔
      SkipSet.standard.contains m ∨ ∃ run ∈ history ++ [args], ∃ i, parse run = .ok i ∧ m ∈ i.skip := by
    have hrun : w' = Workspace.after { files } parse (history ++ [args]) := by
      rw [after, List.foldl_append]
      rfl
    rw [hrun, contains_after]
  refine ⟨hstored, fun hoverrides => ?_, fun refusal hrefused => ?_, files_invoke_of_code_ne_zero,
    fun i hparse => ⟨files_invoke_of_output?_eq_none hparse, fun output houtput =>
      ⟨code_invoke_eq_zero_iff hparse houtput, fun content name => files_invoke_of_emits hparse houtput⟩⟩⟩
  · have hcounts (m : String) : w'.skip.contains m ↔
        SkipSet.standard.contains m ∨ ∃ run ∈ history ++ [args], parse.Accepts run ∧ Counts run m := by
      simp only [hstored, hoverrides.handsOver_iff]
    refine ⟨hcounts, ?_, ?_⟩
    · intro hgives run hin haccepts m hgiven _
      exact (hgives m).mpr (.inr ⟨run, hin, haccepts, hgiven⟩)
    · intro hothers m
      constructor
      · intro hm
        rcases (hcounts m).mp hm with hstandard | ⟨run, hin, haccepts, hcount⟩
        · exact .inl hstandard
        · exact .inr ⟨run, hin, haccepts, hcount.1⟩
      · rintro (hstandard | ⟨run, hin, haccepts, hgiven⟩)
        · exact (hcounts m).mpr (.inl hstandard)
        · by_cases hcount : Counts run m
          · exact (hcounts m).mpr (.inr ⟨run, hin, haccepts, hcount⟩)
          · exact hothers run hin haccepts m hgiven hcount
  · have hinvoke : w.invoke args parse = (refusal, w) := invoke_of_refused hrefused
    exact ⟨congrArg Prod.fst hinvoke, congrArg Prod.snd hinvoke⟩

def incremented : SortedMap String String :=
  SortedMap.empty.insert "b" ("[\x7b\"address\": 4198400, \"mnemonic\": \"inc\", " ++
    "\"operands\": [\x7b\"register\": \x7b\"bits\": 32, \"name\": \"eax\"\x7d\x7d]\x7d]")

set_option maxRecDepth 2000 in
theorem load_incremented : load (Workspace.texts { files := incremented }) "b" =
    .ok [{ address := 4198400, mnemonic := "inc", operands := [.register "eax" 32] }] :=
  load_eq_ok_iff.mpr ⟨"b", _, by cbv, rfl, by cbv⟩

theorem emits_incremented : Emits incremented (SkipSet.standard.extend ["zz"]) (.term ⟨"b", "eax"⟩ "x")
    "BVPLUS(32, sym0, 0hex00000001)" := by
  have hexecute : (Command.term ⟨"b", "eax"⟩ "x").execute (Workspace.texts { files := incremented })
      (SkipSet.standard.extend ["zz"]) = .ok { file := some ("x", "BVPLUS(32, sym0, 0hex00000001)") } := by
    simp only [Command.execute, replay, load_incremented]
    rfl
  have houtput : (Command.term ⟨"b", "eax"⟩ "x").output? = some "x" := rfl
  obtain ⟨content, hemits, hproduct⟩ := (execute_eq_ok_iff houtput).mp hexecute
  cases hproduct
  exact hemits

/-- `inc` is given before the command and `zz` behind it. The program's parser hands over `zz` only, and
    the term that is written has the addition that `inc` stands for. -/
theorem a_mnemonic_before_the_command_is_dropped :
    let args := ["--skip", "inc", "cvc", "b", "eax", "-o", "x", "--skip", "zz"]
    let w' := ((Workspace.after { files := incremented } Invocation.parse []).invoke args).2
    Parser.OverridesOuterSkips Invocation.parse ∧ Parser.Accepts Invocation.parse args ∧
      Gives args "inc" ∧ ¬ w'.skip.contains "inc" ∧ w'.skip.contains "zz" ∧
      (¬ ∀ m, w'.skip.contains m ↔
        SkipSet.standard.contains m ∨ ∃ run ∈ [] ++ [args], Parser.Accepts Invocation.parse run ∧ Gives run m) ∧
      w'.files.get? "x" = some "BVPLUS(32, sym0, 0hex00000001)" := by
  intro args w'
  have hparse : Invocation.parse args = .ok ⟨["zz"], .term ⟨"b", "eax"⟩ "x"⟩ := by decide +kernel
  have haccepts : Parser.Accepts Invocation.parse args := ⟨_, hparse⟩
  have hgives : Gives args "inc" := gives_cons.mpr (.inl ⟨rfl, rfl⟩)
  have hcount (m : String) : Counts args m ↔ m = "zz" := by
    rw [← Invocation.overridesOuterSkips_parse args _ hparse, List.mem_singleton]
  obtain ⟨-, hlaws, -, -, hfiles⟩ :=
    invocations_store_what_counts_and_write_what_succeeds Invocation.parse incremented [] args
  obtain ⟨hstored, hall⟩ := hlaws Invocation.overridesOuterSkips_parse
  have hin : args ∈ [] ++ [args] := List.mem_singleton_self args
  have hnot : ¬ Counts args "inc" := by
    rw [hcount]
    decide
  have hdropped : ¬ w'.skip.contains "inc" := by
    intro hinc
    rcases (hstored "inc").mp hinc with hstandard | ⟨run, hrun, -, hcounts⟩
    · revert hstandard
      decide +kernel
    · rw [List.mem_singleton.mp hrun] at hcounts
      exact hnot hcounts
  refine ⟨Invocation.overridesOuterSkips_parse, haccepts, hgives, hdropped, ?_, ?_, ?_⟩
  · exact (hstored "zz").mpr (.inr ⟨args, hin, haccepts, (hcount "zz").mpr rfl⟩)
  · intro hlaw
    exact hdropped (hall.mp hlaw args hin haccepts "inc" hgives hnot)
  · have hskip : w'.skip = SkipSet.standard.extend ["zz"] := (invoke_cases hparse).1
    have hemits : Emits incremented w'.skip (.term ⟨"b", "eax"⟩ "x") "BVPLUS(32, sym0, 0hex00000001)" := by
      rw [hskip]
      exact emits_incremented
    have hname : fileName? "x" = some "x" := by cbv
    rw [((hfiles _ hparse).2 "x" rfl).2 _ _ hemits hname, SortedMap.get?_eq_some_iff, SortedMap.mem_insert]
    exact .inl rfl

end Workspace

end CommandLine

end TraceReplay
