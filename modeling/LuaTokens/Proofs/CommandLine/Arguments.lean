import LuaTokens.CommandLine.Job
import LuaTokens.Proofs.Precedence

/-! # What arguments say

Arguments are entries, each a flag with its value or a path, up to the first offence if
there is one. Sorting keeps the order of the flags and the order of the paths, so it does
not matter how the flags stand among the paths.
-/

namespace LuaTokens.CommandLine

/-- One thing that arguments can say. -/
inductive Entry where
  | version (value : String) (v : Version) (reads : Version.ofText value = .ok v)
  | flag (name : String) (change : Options.Change) (known : flag? name = some change)
  | path (name : String) (plain : looksLikeFlag name = false)

namespace Entry

def arguments : Entry → List String
  | version value _ _ => ["--lua-version", value]
  | flag name _ _ => [name]
  | path name _ => [name]

def change? : Entry → Option Options.Change
  | version _ v _ => some (.version v)
  | flag _ change _ => some change
  | path _ _ => none

def path? : Entry → Option String
  | path name _ => some name
  | _ => none

end Entry

/-- The arguments that say all of this. -/
def spell (entries : List Entry) : List String :=
  entries.flatMap Entry.arguments

/-- The entries that are no path. -/
def flags (entries : List Entry) : List Entry :=
  entries.filter (·.path?.isNone)

def paths (entries : List Entry) : List String :=
  entries.filterMap Entry.path?

def changes (entries : List Entry) : List Options.Change :=
  entries.filterMap Entry.change?

/-- What is wrong with the first of the arguments. -/
inductive Offence : List String → Refusal → Prop where
  | unknownOption {argument : String} (rest : List String) (dashes : looksLikeFlag argument = true)
      (unknown : flag? argument = none) (other : argument ≠ "--lua-version") :
      Offence (argument :: rest) (.unknownOption argument)
  | missingVersion : Offence ["--lua-version"] .missingVersion
  | unknownVersion {value : String} {unknown : Version.Unknown} (rest : List String)
      (unreadable : Version.ofText value = .error unknown) :
      Offence ("--lua-version" :: value :: rest) (.unknownVersion unknown)

section Words

variable {name value : String} {change : Options.Change} {v : Version}

theorem name_of_flag? (known : flag? name = some change) :
    name ∈ ["--comments", "--extended-identifiers", "--keep-shebang", "--const", "--type-check"] := by
  unfold flag? at known
  split at known
  next same => simp [same]
  split at known
  next same => simp [same]
  split at known
  next same => simp [same]
  split at known
  next same => simp [same]
  split at known
  next same => simp [same]
  · cases known

theorem looksLikeFlag_of_flag? (known : flag? name = some change) : looksLikeFlag name = true := by
  have listed := name_of_flag? known
  simp only [List.mem_cons, List.not_mem_nil, or_false] at listed
  rcases listed with rfl | rfl | rfl | rfl | rfl <;> decide

theorem looksLikeFlag_of_ofText (reads : Version.ofText value = .ok v) : looksLikeFlag value = false := by
  have letter : (value.toList.map Char.toLower).head? ∈ [some '5', some 'j', some 'l'] := by
    simp only [Version.ofText] at reads
    split at reads
    next same => rw [same]; decide
    split at reads
    next same => rw [same]; decide
    split at reads
    next same => rw [same]; decide
    split at reads
    next same =>
      simp only [Bool.or_eq_true, decide_eq_true_eq] at same
      rcases same with same | same <;> rw [same] <;> decide
    · cases reads
  cases dashes : looksLikeFlag value with
  | false => rfl
  | true =>
      obtain ⟨rest, whole⟩ := List.isPrefixOf_iff_prefix.1 dashes
      rw [← whole] at letter
      change some ('-'.toLower) ∈ _ at letter
      revert letter
      decide

theorem ne_luaVersion_of_flag? (known : flag? name = some change) : name ≠ "--lua-version" := by
  rintro rfl
  cases known

theorem ne_luaVersion_of_plain (plain : looksLikeFlag name = false) : name ≠ "--lua-version" := by
  rintro rfl
  revert plain
  decide

theorem flag?_of_plain (plain : looksLikeFlag name = false) : flag? name = none := by
  cases known : flag? name with
  | none => rfl
  | some change =>
      rw [looksLikeFlag_of_flag? known] at plain
      cases plain

end Words

section Sorting

variable {args rest : List String} {refusal : Refusal} {entries : List Entry} {job : Job}

theorem spell_append (first second : List Entry) : spell (first ++ second) = spell first ++ spell second :=
  List.flatMap_append

theorem changes_append (first second : List Entry) :
    changes (first ++ second) = changes first ++ changes second :=
  List.filterMap_append

theorem paths_append (first second : List Entry) : paths (first ++ second) = paths first ++ paths second :=
  List.filterMap_append

/-- Arguments say something up to their end or to the first offence. -/
theorem exists_entries (args : List String) :
    ∃ entries rest, spell entries ++ rest = args ∧ (rest = [] ∨ ∃ refusal, Offence rest refusal) := by
  induction args using Job.sort.induct with
  | case1 => exact ⟨[], [], rfl, .inl rfl⟩
  | case2 => exact ⟨[], _, rfl, .inr ⟨_, .missingVersion⟩⟩
  | case3 value rest v reads ih =>
      obtain ⟨entries, more, rfl, ends⟩ := ih
      exact ⟨.version value v reads :: entries, more, rfl, ends⟩
  | case4 value rest unknown unreadable => exact ⟨[], _, rfl, .inr ⟨_, .unknownVersion rest unreadable⟩⟩
  | case5 name rest other change known ih =>
      obtain ⟨entries, more, rfl, ends⟩ := ih
      exact ⟨.flag name change known :: entries, more, rfl, ends⟩
  | case6 argument rest other unknown dashes =>
      exact ⟨[], _, rfl, .inr ⟨_, .unknownOption rest dashes unknown other⟩⟩
  | case7 name rest other unknown plain ih =>
      obtain ⟨entries, more, rfl, ends⟩ := ih
      exact ⟨.path name (Bool.eq_false_iff.2 plain) :: entries, more, rfl, ends⟩

/-- The job with these entries before what it holds. -/
def addEntries (entries : List Entry) (job : Job) : Job :=
  ⟨changes entries ++ job.changes, paths entries ++ job.paths⟩

theorem sort_entry_append (e : Entry) (rest : List String) :
    Job.sort (e.arguments ++ rest) = (Job.sort rest).map (addEntries [e]) := by
  cases e with
  | version value v reads =>
      simp only [Entry.arguments, List.cons_append, List.nil_append, Job.sort, reads]
      rfl
  | flag name change known =>
      rw [Entry.arguments, List.singleton_append, Job.sort.eq_4 _ _ (ne_luaVersion_of_flag? known), known]
      rfl
  | path name plain =>
      rw [Entry.arguments, List.singleton_append, Job.sort.eq_4 _ _ (ne_luaVersion_of_plain plain),
        flag?_of_plain plain]
      rw [plain]
      rfl

theorem sort_spell_append (entries : List Entry) (rest : List String) :
    Job.sort (spell entries ++ rest) = (Job.sort rest).map (addEntries entries) := by
  induction entries with
  | nil =>
      change Job.sort rest = _
      cases Job.sort rest <;> rfl
  | cons e entries ih =>
      have whole : spell (e :: entries) ++ rest = e.arguments ++ (spell entries ++ rest) := by
        simp [spell]
      rw [whole, sort_entry_append, ih]
      cases Job.sort rest <;> cases e <;> rfl

theorem sort_spell (entries : List Entry) : Job.sort (spell entries) = .ok ⟨changes entries, paths entries⟩ := by
  have sorted := sort_spell_append entries []
  simpa [Job.sort, Except.map, addEntries] using sorted

theorem sort_of_offence (h : Offence args refusal) : Job.sort args = .error refusal := by
  cases h with
  | unknownOption rest dashes unknown other =>
      rw [Job.sort.eq_4 _ _ other, unknown]
      exact if_pos dashes
  | missingVersion => rfl
  | unknownVersion rest unreadable => rw [Job.sort.eq_3, unreadable]

theorem paths_eq_of_spell_eq {first second : List Entry} (same : spell first = spell second) :
    paths first = paths second := by
  have sorted := (sort_spell first).symm.trans ((congrArg Job.sort same).trans (sort_spell second))
  exact congrArg Job.paths (Except.ok.inj sorted)

theorem spell_of_sort (h : Job.sort args = .ok job) :
    ∃ entries, spell entries = args ∧ job = ⟨changes entries, paths entries⟩ := by
  obtain ⟨entries, rest, rfl, rfl | ⟨refusal, offence⟩⟩ := exists_entries args
  · rw [List.append_nil, sort_spell] at h
    exact ⟨entries, (List.append_nil _).symm, (Except.ok.inj h).symm⟩
  · rw [sort_spell_append, sort_of_offence offence] at h
    cases h

end Sorting

section Refusing

variable {args : List String} {entries : List Entry} {argument : String}

/-- The arguments that make no job, however many paths they name. -/
inductive Refused : List String → Prop where
  | nothing : Refused []
  | help {first : String} (rest : List String) (asks : first = "--help" ∨ first = "-h") :
      Refused (first :: rest)
  | unknownOption {args : List String} {argument : String} (member : argument ∈ args)
      (dashes : looksLikeFlag argument = true) (unknown : flag? argument = none)
      (other : argument ≠ "--lua-version") : Refused args
  | missingVersion (before : List String) : Refused (before ++ ["--lua-version"])
  | unknownVersion (before : List String) {value : String} {unknown : Version.Unknown} (after : List String)
      (unreadable : Version.ofText value = .error unknown) :
      Refused (before ++ "--lua-version" :: value :: after)
  | noPath (entries : List Entry) (none : paths entries = []) : Refused (spell entries)

theorem isSome_flag?_of_mem_spell (member : argument ∈ spell entries) (dashes : looksLikeFlag argument = true)
    (other : argument ≠ "--lua-version") : (flag? argument).isSome = true := by
  obtain ⟨e, -, said⟩ := List.mem_flatMap.1 member
  cases e with
  | version value v reads =>
      simp only [Entry.arguments, List.mem_cons, List.not_mem_nil, or_false] at said
      rcases said with rfl | rfl
      · exact absurd rfl other
      · rw [looksLikeFlag_of_ofText reads] at dashes
        cases dashes
  | flag name change known =>
      obtain rfl := List.mem_singleton.1 said
      rw [known]
      rfl
  | path name plain =>
      obtain rfl := List.mem_singleton.1 said
      rw [plain] at dashes
      cases dashes

theorem version_of_spell_eq {before tail : List String} (said : spell entries = before ++ "--lua-version" :: tail) :
    ∃ value rest v, tail = value :: rest ∧ Version.ofText value = .ok v := by
  induction entries generalizing before with
  | nil => simp [spell] at said
  | cons e entries ih =>
      have whole : e.arguments ++ spell entries = before ++ "--lua-version" :: tail := said
      cases e with
      | version value v reads =>
          match before, whole with
          | [], whole =>
              obtain ⟨-, rest⟩ := List.cons.inj whole
              exact ⟨value, spell entries, v, rest.symm, reads⟩
          | [_], whole =>
              obtain ⟨same, -⟩ := List.cons.inj (List.cons.inj whole).2
              exact absurd same (ne_luaVersion_of_plain (looksLikeFlag_of_ofText reads))
          | _ :: _ :: before, whole => exact ih (List.cons.inj (List.cons.inj whole).2).2
      | flag name change known =>
          match before, whole with
          | [], whole => exact absurd (List.cons.inj whole).1 (ne_luaVersion_of_flag? known)
          | _ :: before, whole => exact ih (List.cons.inj whole).2
      | path name plain =>
          match before, whole with
          | [], whole => exact absurd (List.cons.inj whole).1 (ne_luaVersion_of_plain plain)
          | _ :: before, whole => exact ih (List.cons.inj whole).2

/-- The arguments that the program goes on with: help is not asked for first, and files are named. -/
structure Served (entries : List Entry) : Prop where
  noHelp : ∀ first ∈ (spell entries).head?, ¬ (first = "--help" ∨ first = "-h")
  named : paths entries ≠ []

theorem Served.ofArgs_eq (h : Served entries) :
    Job.ofArgs (spell entries) = .ok ⟨changes entries, paths entries⟩ := by
  cases said : spell entries with
  | nil => exact absurd (paths_eq_of_spell_eq (show _ = spell [] from said)) h.named
  | cons first rest =>
      have noHelp := h.noHelp first (by rw [said]; rfl)
      have sorted := sort_spell entries
      rw [said] at sorted
      simp [Job.ofArgs, not_or.1 noHelp, sorted, h.named]

theorem exists_served_of_not_refused (accepted : ¬ Refused args) : ∃ entries, spell entries = args ∧ Served entries := by
  obtain ⟨entries, rest, rfl, rfl | ⟨refusal, offence⟩⟩ := exists_entries args
  · rw [List.append_nil] at accepted ⊢
    refine ⟨entries, rfl, fun first isFirst asks => ?_, fun none => accepted (.noPath entries none)⟩
    obtain ⟨rest, said⟩ := List.head?_eq_some_iff.1 isFirst
    rw [said] at accepted
    exact accepted (.help rest asks)
  · apply absurd _ accepted
    cases offence with
    | unknownOption rest dashes unknown other =>
        exact .unknownOption (List.mem_append_right _ List.mem_cons_self) dashes unknown other
    | missingVersion => exact .missingVersion _
    | unknownVersion rest unreadable => exact .unknownVersion _ rest unreadable

theorem Served.not_refused (h : Served entries) : ¬ Refused (spell entries) := by
  intro refused
  obtain ⟨noHelp, named⟩ := h
  generalize said : spell entries = args at noHelp refused
  cases refused with
  | nothing => exact named (paths_eq_of_spell_eq (show _ = spell [] from said))
  | help rest asks => exact noHelp _ rfl asks
  | unknownOption member dashes unknown other =>
      have known := isSome_flag?_of_mem_spell (said ▸ member) dashes other
      rw [unknown] at known
      cases known
  | missingVersion before =>
      obtain ⟨_, _, _, same, -⟩ := version_of_spell_eq said
      cases same
  | unknownVersion before after unreadable =>
      obtain ⟨value, rest, v, same, reads⟩ := version_of_spell_eq said
      cases same
      rw [unreadable] at reads
      cases reads
  | noPath others none => exact named ((paths_eq_of_spell_eq said).trans none)

theorem Refused.ofArgs_eq (h : Refused args) : ∃ refusal, Job.ofArgs args = .error refusal := by
  cases outcome : Job.ofArgs args with
  | error refusal => exact ⟨refusal, rfl⟩
  | ok job =>
      unfold Job.ofArgs at outcome
      split at outcome
      · cases outcome
      next noHelp =>
        split at outcome
        · cases outcome
        next sorted =>
          split at outcome
          · cases outcome
          next named =>
            obtain ⟨entries, rfl, rfl⟩ := spell_of_sort sorted
            have served : Served entries := by
              refine ⟨fun first isFirst asks => noHelp ?_, named⟩
              rw [isFirst]
              simpa using asks
            exact absurd h served.not_refused

end Refusing

section Asking

variable {entries : List Entry} {name : String}

/-- Whether the flag stands among the arguments, wherever that is. -/
def hasFlag (entries : List Entry) (name : String) : Bool :=
  name ∈ spell entries

def keywords (const declare : Bool) : Adjustment :=
  { enable := .ofList ((if const then [.constKeyword] else []) ++ if declare then [.declareKeyword] else []) }

/-- What is asked for: the version named last, and the rest by flags that hold for all files. -/
def asked (entries : List Entry) : Options where
  version := Options.lastVersion (changes entries)
  adjustment := keywords (hasFlag entries "--const") (hasFlag entries "--type-check")
  comments := hasFlag entries "--comments"
  ignoreShebang := !hasFlag entries "--keep-shebang"
  extendedIdentifiers := hasFlag entries "--extended-identifiers"

theorem hasFlag_append (first second : List Entry) (name : String) :
    hasFlag (first ++ second) name = (hasFlag first name || hasFlag second name) := by
  simp [hasFlag, spell_append]

theorem hasFlag_flag {change : Options.Change} (known : flag? name = some change) (other : String) :
    hasFlag [.flag name change known] other = decide (other = name) := by
  simp [hasFlag, spell, Entry.arguments]

theorem ne_of_plain {other : String} (known : (flag? name).isSome = true) (plain : looksLikeFlag other = false) :
    name ≠ other := by
  rintro rfl
  rw [flag?_of_plain plain] at known
  cases known

theorem hasFlag_version {value : String} {v : Version} (reads : Version.ofText value = .ok v)
    (known : (flag? name).isSome = true) : hasFlag [.version value v reads] name = false := by
  obtain ⟨change, same⟩ := Option.isSome_iff_exists.1 known
  have noName := ne_luaVersion_of_flag? same
  have noValue := ne_of_plain known (looksLikeFlag_of_ofText reads)
  simp [hasFlag, spell, Entry.arguments, noName, noValue]

theorem hasFlag_path {other : String} (plain : looksLikeFlag other = false) (known : (flag? name).isSome = true) :
    hasFlag [.path other plain] name = false := by
  simpa [hasFlag, spell, Entry.arguments] using ne_of_plain known plain

/-- An entry that is no flag asks for a version at most. -/
theorem asked_append_of_silent {e : Entry} (silent : ∀ name, (flag? name).isSome = true → hasFlag [e] name = false) :
    asked (entries ++ [e]) = { asked entries with version := Options.lastVersion (changes (entries ++ [e])) } := by
  have same (name : String) (known : (flag? name).isSome = true) : hasFlag (entries ++ [e]) name = hasFlag entries name := by
    rw [hasFlag_append, silent name known, Bool.or_false]
  simp only [asked, same "--comments" rfl, same "--extended-identifiers" rfl, same "--keep-shebang" rfl,
    same "--const" rfl, same "--type-check" rfl]

theorem keywords_const (const declare : Bool) :
    (keywords const declare).enabling (.ofList [.constKeyword]) = keywords true declare := by
  cases const <;> cases declare <;> decide

theorem keywords_declare (const declare : Bool) :
    (keywords const declare).enabling (.ofList [.declareKeyword]) = keywords const true := by
  cases const <;> cases declare <;> decide

theorem asked_append_flag {change : Options.Change} (known : flag? name = some change) :
    asked (entries ++ [.flag name change known]) = (asked entries).apply change := by
  have listed := name_of_flag? known
  have last : changes (entries ++ [.flag name change known]) = changes entries ++ [change] := changes_append _ _
  simp only [List.mem_cons, List.not_mem_nil, or_false] at listed
  simp only [asked, last, Options.lastVersion_concat, hasFlag_append, hasFlag_flag known]
  rcases listed with rfl | rfl | rfl | rfl | rfl <;> cases known <;>
    simp [Options.Change.version?, Options.apply, keywords_const, keywords_declare]

theorem ofChanges_changes (entries : List Entry) : Options.ofChanges (changes entries) = asked entries := by
  induction entries using List.reverseRecOn with
  | nil => rfl
  | append_singleton entries e ih =>
      cases e with
      | version value v reads =>
          have last : changes (entries ++ [.version value v reads]) = changes entries ++ [.version v] :=
            changes_append _ _
          rw [asked_append_of_silent fun name => hasFlag_version reads, last, Options.ofChanges_concat,
            Options.lastVersion_concat, ← ih]
          rfl
      | flag name change known =>
          rw [asked_append_flag known, ← ih, changes_append]
          exact Options.ofChanges_concat _ change
      | path name plain =>
          have unchanged : changes (entries ++ [.path name plain]) = changes entries :=
            (changes_append _ _).trans (List.append_nil _)
          rw [asked_append_of_silent fun name => hasFlag_path plain, unchanged, ih]
          rfl

theorem changes_flags (entries : List Entry) : changes (flags entries) = changes entries := by
  rw [changes, flags, List.filterMap_filter]
  refine congrArg (List.filterMap · entries) (funext fun e => ?_)
  cases e <;> rfl

theorem paths_flags (entries : List Entry) : paths (flags entries) = [] := by
  rw [paths, flags, List.filterMap_eq_nil_iff]
  intro e member
  simpa using (List.mem_filter.1 member).2

theorem plain_of_mem_paths {path : String} (member : path ∈ paths entries) : looksLikeFlag path = false := by
  obtain ⟨e, -, same⟩ := List.mem_filterMap.1 member
  cases e with
  | version | flag => cases same
  | path name plain =>
      cases same
      exact plain

theorem noHelp_flags (entries : List Entry) :
    ∀ first ∈ (spell (flags entries)).head?, ¬ (first = "--help" ∨ first = "-h") := by
  cases same : flags entries with
  | nil => simp [spell]
  | cons e rest =>
      have isFlag : e ∈ flags entries := by simp [same]
      intro first isFirst
      cases e with
      | version value v reads =>
          cases isFirst
          decide
      | flag name change known =>
          cases isFirst
          rintro (rfl | rfl) <;> cases known
      | path name plain => simp [flags, Entry.path?] at isFlag

theorem Served.alone {path : String} (member : path ∈ paths entries) (noHelp : path ≠ "-h") :
    Served (flags entries ++ [.path path (plain_of_mem_paths member)]) := by
  have plain := plain_of_mem_paths member
  have noFlag : path ≠ "--help" := by
    rintro rfl
    revert plain
    decide
  constructor
  · intro first isFirst
    rw [spell_append, List.head?_append, Option.mem_def, Option.or_eq_some_iff] at isFirst
    rcases isFirst with isFirst | ⟨-, isFirst⟩
    · exact noHelp_flags entries first isFirst
    · cases isFirst
      simp [noFlag, noHelp]
  · simp [paths, Entry.path?]

end Asking

end LuaTokens.CommandLine
