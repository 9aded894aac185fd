import LuaTokens.CommandLine.Basic
import LuaTokens.Proofs.CommandLine.Arguments
import LuaTokens.Proofs.Diagnosis

/-! # One file after the other

Refused arguments leave a complaint behind and nothing else, whichever files they name.
All others leave behind what their files leave behind one by one, each read for itself
under the same flags.
-/

namespace LuaTokens.CommandLine

/-- The text of a file, if it can be read as one. -/
def textOf (contents : Except ReadFailure ByteString) : Except ReadFailure String :=
  contents.bind fun bytes =>
    match bytes.toString? with
    | some text => .ok text
    | none => .error .notText

namespace Outcome

/-- What several files leave behind, one after the other. -/
def concat (outcomes : List Outcome) : Outcome :=
  ⟨String.join (outcomes.map (·.output)), String.join (outcomes.map (·.errors)),
    if outcomes.any (·.exitCode ≠ 0) then 1 else 0⟩

/-- What a run over a file leaves behind: a line for each token, one for each comment if comments
    are asked for, and a verdict behind the name of the file. -/
def ofRun (entries : List Entry) (path : String) (run : Run) : Outcome :=
  let tokens := run.tokens.map fun t => Report.line path t.start t.kind.text
  let comments := run.comments.map fun c => Report.line path c.start ("comment " ++ c.body.quoted)
  let verdict := match run.failure with
    | none => toString run.tokens.length ++ " token(s)"
    | some d => { d with chunk := none }.message
  ⟨joinLines (tokens ++ if hasFlag entries "--comments" then comments else []),
    path ++ ": " ++ verdict ++ "\n", if run.failure.isSome then 1 else 0⟩

/-- What one file leaves behind. -/
def ofFile (entries : List Entry) (path : String) (contents : Except ReadFailure ByteString) : Outcome :=
  match textOf contents with
  | .error failure => ⟨"", path ++ ": " ++ failure.text ++ "\n", 1⟩
  | .ok text => ofRun entries path (.ofText { asked entries with chunk := some path } text)

theorem ofReports_singleton (report : Report) :
    ofReports [report]
      = ⟨joinLines report.output, joinLines report.errors, if report.failed then 1 else 0⟩ := by
  simp [ofReports]

theorem joinLines_singleton (line : String) : joinLines [line] = line ++ "\n" := by
  simp [joinLines]

theorem joinLines_append (first second : List String) :
    joinLines (first ++ second) = joinLines first ++ joinLines second := by
  rw [joinLines, List.map_append, String.join_append]
  rfl

theorem ofReports_eq_concat (reports : List Report) :
    ofReports reports = concat (reports.map fun report => ofReports [report]) := by
  have lines (part : Report → List String) :
      joinLines (reports.flatMap part) = String.join (reports.map fun report => joinLines (part report)) := by
    induction reports with
    | nil => rfl
    | cons report reports ih => rw [List.flatMap_cons, joinLines_append, ih, List.map_cons, String.join_cons]
  have failures : reports.any (·.failed)
      = reports.any fun report => (ofReports [report]).exitCode ≠ 0 := by
    refine congrArg (List.any reports) (funext fun report => ?_)
    cases failed : report.failed <;> simp [ofReports_singleton, failed]
  rw [ofReports, lines, lines, failures, concat]
  simp [List.map_map, Function.comp_def, List.any_map, ofReports_singleton]

end Outcome

section Files

variable {entries : List Entry} {job : Job}

theorem options_of_changes (same : job.changes = changes entries) (path : String) :
    job.options path = { asked entries with chunk := some path } := by
  rw [Job.options, same, Options.ofChanges, List.foldl_append, ← ofChanges_changes]
  rfl

theorem message_of_failure {o : Options} {source : List CodeUnit} {d : Diagnostic} {path : String}
    (named : o.chunk = some path) (failed : (Run.ofUnits o source).failure = some d) :
    d.message = path ++ ": " ++ { d with chunk := none }.message := by
  obtain ⟨m, _, rfl, -⟩ := Run.exists_failing failed
  simp [Diagnostic.message, Misreading.diagnose, named, String.append_assoc]

theorem comments_of_dropped {o : Options} {source : List CodeUnit} (dropped : o.comments = false) :
    (Run.ofUnits o source).comments = [] := by
  rw [Run.ofUnits_eq, dropped]
  rfl

theorem ofReports_ofRun {path : String} {run : Run}
    (dropped : hasFlag entries "--comments" = false → run.comments = [])
    (message : ∀ d, run.failure = some d → d.message = path ++ ": " ++ { d with chunk := none }.message) :
    Outcome.ofReports [Report.ofRun path run] = .ofRun entries path run := by
  rw [Outcome.ofReports_singleton, Report.ofRun, Outcome.ofRun, Outcome.joinLines_singleton]
  simp only
  congr 1
  · cases captured : hasFlag entries "--comments" with
    | true => rfl
    | false => simp [dropped captured]
  · cases failed : run.failure with
    | none => simp [String.append_assoc]
    | some d => simp [message d failed]

theorem ofReports_ofContents (same : job.changes = changes entries) (path : String)
    (contents : Except ReadFailure ByteString) :
    Outcome.ofReports [Report.ofContents job path contents] = .ofFile entries path contents := by
  have unread (failure : ReadFailure) : Outcome.ofReports [Report.ofFailure path failure]
      = ⟨"", path ++ ": " ++ failure.text ++ "\n", 1⟩ := by
    rw [Outcome.ofReports_singleton, Report.ofFailure, Outcome.joinLines_singleton]
    rfl
  cases contents with
  | error failure => exact unread failure
  | ok bytes =>
      simp only [Report.ofContents, Outcome.ofFile, textOf, Except.bind]
      cases bytes.toString? with
      | none => exact unread .notText
      | some text =>
          let o : Options := { asked entries with chunk := some path }
          have dropped : hasFlag entries "--comments" = false → (Run.ofUnits o (Utf16.encode text)).comments = [] :=
            fun silent => comments_of_dropped silent
          rw [options_of_changes same]
          exact ofReports_ofRun dropped fun d => message_of_failure rfl

/-- Which paths stand among the flags does not matter for what one file leaves behind. -/
theorem ofFile_of_changes {other : List Entry} (same : changes other = changes entries) :
    Outcome.ofFile other = .ofFile entries := by
  have options : asked other = asked entries := by
    rw [← ofChanges_changes, same, ofChanges_changes]
  have comments : hasFlag other "--comments" = hasFlag entries "--comments" :=
    congrArg Options.comments options
  funext path contents
  simp only [Outcome.ofFile, Outcome.ofRun, options, comments]

theorem concat_ofFile (entries : List Entry) (path : String) (contents : Except ReadFailure ByteString) :
    Outcome.concat [.ofFile entries path contents] = .ofFile entries path contents := by
  have report : Outcome.ofReports [Report.ofContents ⟨changes entries, []⟩ path contents]
      = .ofFile entries path contents := ofReports_ofContents rfl path contents
  rw [← report]
  exact (Outcome.ofReports_eq_concat [_]).symm

end Files

section Running

variable {m : Type → Type} [Monad m] {args : List String} {entries : List Entry}

theorem run_of_refused (h : Refused args) (contents : String → m (Except ReadFailure ByteString)) :
    ∃ errors, run contents args = pure ⟨"", errors, 2⟩ := by
  obtain ⟨refusal, refused⟩ := h.ofArgs_eq
  refine ⟨refusal.text, ?_⟩
  rw [run, refused]
  rfl

variable [LawfulMonad m]

theorem map_mapM {α β γ : Type} (f : α → m β) (g : β → γ) (items : List α) :
    List.map g <$> items.mapM f = items.mapM fun item => g <$> f item := by
  induction items with
  | nil => simp
  | cons item items ih =>
      have later : items.mapM (fun item => g <$> f item) = List.map g <$> items.mapM f := ih.symm
      simp [List.mapM_cons, later]

theorem run_of_served (h : Served entries) (contents : String → m (Except ReadFailure ByteString)) :
    run contents (spell entries)
      = Outcome.concat <$> (paths entries).mapM fun path => Outcome.ofFile entries path <$> contents path := by
  let job : Job := ⟨changes entries, paths entries⟩
  have each (path : String) : Outcome.ofFile entries path <$> contents path
      = (fun report => Outcome.ofReports [report]) <$> Report.ofContents job path <$> contents path := by
    rw [← comp_map]
    refine congrArg (· <$> contents path) (funext fun found => ?_)
    exact (ofReports_ofContents rfl path found).symm
  have reports : run contents (spell entries)
      = Outcome.ofReports <$> (paths entries).mapM fun path => Report.ofContents job path <$> contents path := by
    rw [run, h.ofArgs_eq]
    simp [job]
  have parts : Outcome.ofReports
      = Outcome.concat ∘ List.map fun report => Outcome.ofReports [report] :=
    funext Outcome.ofReports_eq_concat
  rw [reports, parts, comp_map, map_mapM]
  simp only [each]

theorem run_alone {path : String} (member : path ∈ paths entries) (noHelp : path ≠ "-h")
    (contents : String → m (Except ReadFailure ByteString)) :
    run contents (spell (flags entries) ++ [path]) = Outcome.ofFile entries path <$> contents path := by
  let last : Entry := .path path (plain_of_mem_paths member)
  let alone := flags entries ++ [last]
  have served : Served alone := Served.alone member noHelp
  have args : spell (flags entries) ++ [path] = spell alone := (spell_append _ [last]).symm
  have one : paths alone = [path] := by
    rw [paths_append, paths_flags]
    rfl
  have same : changes alone = changes entries := by
    rw [changes_append, changes_flags]
    exact List.append_nil _
  rw [args, run_of_served served, one, ofFile_of_changes same]
  simp [concat_ofFile]

/-- Either the arguments are refused, with nothing read and nothing printed but a complaint, or
    the program leaves behind what the files named leave behind one after the other. Each leaves
    behind what it does when the program is run on the same flags and this file alone. -/
theorem run_file_by_file (contents : String → m (Except ReadFailure ByteString)) (args : List String) :
    (Refused args → ∃ errors, run contents args = pure ⟨"", errors, 2⟩)
      ∧ (¬ Refused args → ∃ entries, spell entries = args
          ∧ run contents args = Outcome.concat <$> (paths entries).mapM
              (fun path => Outcome.ofFile entries path <$> contents path)
          ∧ ∀ path ∈ paths entries, path ≠ "-h" →
              run contents (spell (flags entries) ++ [path]) = Outcome.ofFile entries path <$> contents path) := by
  refine ⟨fun refused => run_of_refused refused contents, fun accepted => ?_⟩
  obtain ⟨entries, rfl, served⟩ := exists_served_of_not_refused accepted
  exact ⟨entries, rfl, run_of_served served contents, fun path member noHelp => run_alone member noHelp contents⟩

end Running

/-- Two files are named, of which one is not there, with flags between and behind them. In the
    first list of arguments the flag behind the file lacks its value. What is read is noted. -/
theorem run_file_by_file_missing :
    let contents (path : String) : StateM (List String) (Except ReadFailure ByteString) := do
      modify (· ++ [path])
      return if path = "a.lua" then .ok (.ofString "x --y") else .error .missing
    let cut := ["a.lua", "--lua-version"]
    let args := ["a.lua", "--comments", "b.lua", "--lua-version", "5.3"]
    (Refused cut ∧ ∃ errors, run contents cut = pure ⟨"", errors, 2⟩)
      ∧ ¬ Refused args ∧ ∃ entries, spell entries = args
        ∧ run contents args = Outcome.concat <$> (paths entries).mapM
            (fun path => Outcome.ofFile entries path <$> contents path) := by
  intro contents cut args
  let entries : List Entry := [.path "a.lua" (by decide), .flag "--comments" (.comments true) rfl,
    .path "b.lua" (by decide), .version "5.3" .lua53 rfl]
  have served : Served entries := ⟨by simp [entries, spell, Entry.arguments], by simp [entries, paths, Entry.path?]⟩
  have refused : Refused cut := .missingVersion ["a.lua"]
  have accepted : ¬ Refused args := served.not_refused
  obtain ⟨entries, same, whole, -⟩ := (run_file_by_file contents args).2 accepted
  exact ⟨⟨refused, (run_file_by_file contents cut).1 refused⟩, accepted, entries, same, whole⟩

example :
    let contents (path : String) : Id (Except ReadFailure ByteString) :=
      if path = "a.lua" then .ok (.ofString "x --y") else .error .missing
    Id.run (run contents ["a.lua", "--comments", "b.lua"])
      = ⟨"a.lua:1:1: identifier 'x'\na.lua:1:3: comment \"y\"\n",
        "a.lua: 1 token(s)\nb.lua: No such file or directory (os error 2)\n", 1⟩ := by
  intro contents
  decide +kernel

end LuaTokens.CommandLine
