import LuaTokens.Proofs.Scanner.Token
import LuaTokens.Proofs.Sweep

/-! # Scanning white space and comments

Between two tokens the scanner skips what a sweep skips. It keeps a comment if comments
are captured; only then does it cut out the body and the text.
-/

namespace LuaTokens

/-- The sweep from the scanner on. -/
def Scanner.sweep (s : Scanner) (g : Grammar) (chunk : Option String) : Sweep :=
  .of g chunk s.position s.ahead

namespace Scan

open Scanner

section Definitions

variable (capture : Bool) (chunk : Option String)

def keep (c : Comment) : Scan Unit :=
  fun s => some (.ok (), { s with comments := s.comments ++ [c] })

/-- Move to the end of the line and return the range. -/
def lineBody : Scan (Nat × Nat) := do
  let first ← ask (·.position.offset)
  advanceWhile (!·.isBreak)
  return (first, ← ask (·.position.offset))

/-- Move over a comment behind its dashes and return the range of its body. -/
def commentBody : Scan (Nat × Nat) := do
  if ← ask (·.isAt 0 '[') then
    match ← longBracket chunk .unfinishedLongComment with
    | some range => return range
    | none => lineBody
  else lineBody

def comment : Scan Unit := do
  let start ← ask Scanner.position
  advance 2
  let (first, last) ← commentBody chunk
  if capture then
    let stop ← ask Scanner.position
    let body ← slice first last
    let raw ← slice start.offset stop.offset
    keep ⟨.ofUnits body, Utf16.lossy raw, start, stop⟩
  else return ()

/-- Move to the next token or to the end of the buffer. -/
def trivia : Scan Unit := do
  skipSpace
  loop (fun _ : Unit => do
    if (← ask (·.isAt 0 '-')) && (← ask (·.isAt 1 '-')) then
      comment capture chunk
      skipSpace
      return .inl ()
    else return .inr ()) ()

end Definitions

variable {capture : Bool} {chunk : Option String} {g : Grammar} {s start inside : Scanner}
  {rest : List CodeUnit}

def dashes : List CodeUnit :=
  [.of '-', .of '-']

theorem isBreak_dashes : ∀ u ∈ dashes, u.isBreak = false :=
  CodeUnit.forall_of_any (by decide)

section Body

/-- The scanner has moved over what a comment is behind its dashes, and returns the range of
    its body. -/
def ReadsBody (inside : Scanner) (range : Nat × Nat) (after : Scanner) : Prop :=
  ∃ body text, Lexeme.readComment dashes inside.ahead = .read ⟨.comment body, dashes ++ text, after.ahead⟩
    ∧ Moved inside text after ∧ Spans inside range.1 range.2 body

theorem returns_lineBody (absent : LongBracket.read inside.ahead = .absent) :
    lineBody.Returns inside (ReadsBody inside) := by
  apply ensures_ask_bind
  apply Returns.bind (returns_advanceWhile (fun _ solid => by simpa using solid) inside)
  intro _ after moved
  apply ensures_ask_bind
  refine ensures_pure ⟨_, _, ?_, moved, moved.spans⟩
  rw [Lexeme.readComment, absent, moved.rest_eq List.takeWhile_append_dropWhile.symm]
  rfl

theorem read_absent_of_other {input : List CodeUnit} (other : input.head? ≠ some (.of '[')) :
    LongBracket.read input = .absent := by
  apply LongBracket.read_eq_absent_iff.2
  cases input with
  | nil => rfl
  | cons u tail =>
      have different : u ≠ .of '[' := by simpa using other
      simp [LongBracket.level?, different]

theorem ensures_commentBody (opened : Moved start dashes inside) :
    (commentBody chunk).Ensures inside (ReadsBody inside)
      (fun d after => ∃ m, Lexeme.readComment dashes inside.ahead = .failed m
        ∧ Fails chunk start m d after) := by
  apply ensures_ask_bind
  rw [isAt_zero]
  by_cases bracket : inside.ahead.head? = some (.of '[')
  · obtain ⟨tail, ahead⟩ := List.head?_eq_some_iff.1 bracket
    rw [decide_eq_true bracket, if_pos rfl]
    refine ensures_bind (ensures_longBracket ahead chunk _) ?_ ?_
    · rintro _ after ⟨unclosed, moved, rfl⟩
      refine ⟨⟨.unfinishedLongComment, dashes, inside.ahead⟩, ?_, fails_of_moved opened moved rfl⟩
      rw [Lexeme.readComment, unclosed]
    · rintro (_ | ⟨first, last⟩) after found
      · obtain ⟨absent, rfl⟩ := found
        exact (returns_lineBody absent).mono fun _ _ => id
      · obtain ⟨body, text, closed, moved, spans⟩ := found
        refine ensures_pure ⟨body, text, ?_, moved, spans⟩
        rw [Lexeme.readComment, closed]
  · rw [decide_eq_false bracket, if_neg (by simp)]
    exact (returns_lineBody (read_absent_of_other bracket)).mono fun _ _ => id

end Body

section Passing

/-- What is swept from `s` on is what is swept from `after` on with these comments before it,
    which the scanner holds if comments are captured. -/
structure Passes (capture : Bool) (g : Grammar) (chunk : Option String) (s : Scanner)
    (comments : List Comment) (after : Scanner) : Prop where
  sweep : s.sweep g chunk = (after.sweep g chunk).behind comments
  held : after.comments = s.comments ++ if capture then comments else []
  units : after.units = s.units
  offset_le : s.position.offset ≤ after.position.offset

namespace Passes

variable {after last : Scanner} {first second : List Comment}

theorem trans (earlier : Passes capture g chunk s first after)
    (later : Passes capture g chunk after second last) :
    Passes capture g chunk s (first ++ second) last := by
  refine ⟨?_, ?_, later.units.trans earlier.units, Nat.le_trans earlier.offset_le later.offset_le⟩
  · rw [earlier.sweep, later.sweep, Sweep.behind_behind]
  · rw [later.held, earlier.held]
    cases capture <;> simp

theorem of_space (moved : Moved s (s.ahead.takeWhile CodeUnit.isSpace) after) :
    Passes capture g chunk s [] after := by
  have rest := moved.rest_eq List.takeWhile_append_dropWhile.symm
  refine ⟨?_, ?_, moved.units, moved.offset_le⟩
  · cases ahead : s.ahead with
    | nil =>
        rw [ahead] at moved rest
        rw [Scanner.sweep, Scanner.sweep, ahead, rest, moved.position]
        rfl
    | cons u tail =>
        by_cases space : u.isSpace = true
        · rw [Scanner.sweep, ahead, Sweep.of_read (Lexeme.read_space space), Scanner.sweep, moved.position,
            rest, ahead]
          rfl
        · have none : (u :: tail).takeWhile CodeUnit.isSpace = [] := by simp [space]
          have all : (u :: tail).dropWhile CodeUnit.isSpace = u :: tail := by simp [space]
          rw [ahead, none] at moved
          rw [ahead, all] at rest
          rw [Scanner.sweep, Scanner.sweep, ahead, rest, moved.position]
          rfl
  · rw [moved.comments]
    simp

end Passes

theorem ensures_comment (ahead : s.ahead = .of '-' :: .of '-' :: rest) :
    (comment capture chunk).Ensures s
      (fun _ after => ∃ comments, Passes capture g chunk s comments after
        ∧ after.remaining < s.remaining)
      (fun d after => ∃ m, Lexeme.read g s.ahead = .failed m ∧ Fails chunk s m d after) := by
  apply ensures_ask_bind
  apply Returns.bind (returns_advance_over (show s.ahead = dashes ++ rest from ahead) rfl isBreak_dashes)
  intro _ inside opened
  have insideAhead : inside.ahead = rest := opened.rest_eq ahead
  have read : Lexeme.read g s.ahead = Lexeme.readComment dashes inside.ahead := by
    rw [ahead, Lexeme.read_comment, insideAhead]
    rfl
  refine ensures_bind (ensures_commentBody opened) ?_ ?_
  · rintro d after ⟨m, failed, fails⟩
    exact ⟨m, read.trans failed, fails⟩
  · rintro ⟨first, last⟩ stop ⟨body, text, closed, moved, spans⟩
    have whole := opened.trans moved (Seam.of_forall isBreak_dashes _)
    have swept : s.sweep g chunk = (stop.sweep g chunk).behind
        [⟨.ofUnits body, Utf16.lossy (dashes ++ text), s.position, stop.position⟩] := by
      rw [Scanner.sweep, Scanner.sweep, Sweep.of_read (read.trans closed), whole.position]
    have shorter := whole.remaining_lt (by simp [dashes])
    cases capture with
    | true =>
        simp only [if_true]
        apply ensures_ask_bind
        apply Returns.bind (returns_slice_spans spans moved.units)
        rintro _ _ ⟨rfl, rfl⟩
        apply Returns.bind (returns_slice_spans whole.spans whole.units)
        rintro _ after ⟨rfl, rfl⟩
        refine ⟨_, ⟨swept, ?_, whole.units, whole.offset_le⟩, shorter⟩
        rw [whole.comments]
        rfl
    | false =>
        simp only [Bool.false_eq_true, if_false]
        refine ensures_pure ⟨_, ⟨swept, ?_, whole.units, whole.offset_le⟩, shorter⟩
        rw [whole.comments]
        simp

/-- The scanner has passed comments and then reports a misreading. -/
def FailsPassing (capture : Bool) (g : Grammar) (chunk : Option String) (s : Scanner) (d : Diagnostic)
    (after : Scanner) : Prop :=
  ∃ comments now m, Passes capture g chunk s comments now ∧ Lexeme.read g now.ahead = .failed m
    ∧ Fails chunk now m d after

/-- Neither white space nor a comment is next. -/
def AtToken (s : Scanner) : Prop :=
  ∀ u rest, s.ahead = u :: rest → u.isSpace = false ∧ Lexeme.beginsComment u rest = false

/-- Skipping goes to the next token or the end of the buffer, or fails in a comment. -/
theorem ensures_trivia (s : Scanner) : (trivia capture chunk).Ensures s
    (fun _ after => (∃ comments, Passes capture g chunk s comments after) ∧ AtToken after)
    (FailsPassing capture g chunk s) := by
  apply Returns.bind (returns_skipSpace s)
  intro _ inside moved
  have rest := moved.rest_eq List.takeWhile_append_dropWhile.symm
  apply ensures_loop fun _ now => (∃ comments, Passes capture g chunk s comments now)
    ∧ Stops CodeUnit.isSpace now.ahead
  · rintro _ now ⟨⟨comments, passes⟩, stops⟩
    apply ensures_ask_bind
    apply ensures_ask_bind
    rw [isAt_zero, isAt_eq]
    split
    next dash =>
      simp only [Bool.and_eq_true, decide_eq_true_eq] at dash
      obtain ⟨first, second⟩ := dash
      obtain ⟨tail, ahead⟩ := List.head?_eq_some_iff.1 first
      rw [ahead, List.getElem?_cons_succ, ← List.head?_eq_getElem?] at second
      obtain ⟨rest, rfl⟩ := List.head?_eq_some_iff.1 second
      refine ensures_bind (ensures_comment (g := g) ahead) ?_ ?_
      · rintro d after ⟨m, failed, fails⟩
        exact ⟨comments, now, m, passes, failed, fails⟩
      · rintro _ behind ⟨more, past, shorter⟩
        apply Returns.bind (returns_skipSpace behind)
        intro _ after spaces
        have rest := spaces.rest_eq List.takeWhile_append_dropWhile.symm
        refine ⟨⟨⟨_, passes.trans (past.trans (.of_space spaces))⟩, rest ▸ stops_dropWhile _⟩, ?_⟩
        exact Nat.lt_of_le_of_lt spaces.remaining_le shorter
    next other =>
      refine ensures_pure ⟨⟨comments, passes⟩, ?_⟩
      intro u rest ahead
      refine ⟨stops u (by rw [ahead]; rfl), ?_⟩
      rw [ahead, List.getElem?_cons_succ, ← List.head?_eq_getElem?] at other
      simpa [Lexeme.beginsComment] using other
  · exact ⟨⟨[], .of_space moved⟩, rest ▸ stops_dropWhile _⟩

end Passing

end Scan

end LuaTokens
