import LuaTokens.Lexeme.Read

/-! # Sweeps

A sweep reads lexemes up to the next token. Here lexemes get their positions: each
begins where the one before it stops.
-/

namespace LuaTokens

/-- What a session delivers. -/
inductive Item where
  | token (t : Token)
  /-- The failure that ends the session. -/
  | failure (d : Diagnostic)
  deriving Repr, DecidableEq

namespace Item

def token? : Item → Option Token
  | token t => some t
  | failure _ => none

def failure? : Item → Option Diagnostic
  | token _ => none
  | failure d => some d

end Item

namespace Misreading

/-- Where reading stops when it fails on a construct at `start`. Inside an escape
    all units count as being on one line. -/
def stop (m : Misreading) (start : Position) : Position :=
  if m.fault.inEscape then start.shift m.culprit.length else start.advance m.culprit

/-- The report of a failure on a construct at `position`. -/
def diagnose (m : Misreading) (chunk : Option String) (position : Position) : Diagnostic :=
  let start := position.advance m.lead
  ⟨m.fault, start, m.stop start, if m.fault.atEnd then "<eof>" else Utf16.lossy m.culprit, chunk⟩

end Misreading

/-- The result of a sweep. -/
structure Sweep where
  /-- The comments on the way. -/
  comments : List Comment
  /-- The token or the failure, if the source does not end before. -/
  item : Option Item
  position : Position
  /-- The units still to be read. None are left after a failure. -/
  ahead : List CodeUnit
  deriving DecidableEq

namespace Sweep

def withComment (s : Sweep) (c : Comment) : Sweep :=
  { s with comments := c :: s.comments }

/-- Sweep over `input`, which begins at `position`. -/
def of (g : Grammar) (chunk : Option String) (position : Position) (input : List CodeUnit) :
    Sweep :=
  match _h : Lexeme.read g input with
  | .finished => ⟨[], none, position, []⟩
  | .failed m =>
      let diagnostic := m.diagnose chunk position
      ⟨[], some (.failure diagnostic), diagnostic.stop, []⟩
  | .read cut =>
      let stop := position.advance cut.text
      match cut.value with
      | .space => of g chunk stop cut.rest
      | .comment body =>
          (of g chunk stop cut.rest).withComment
            ⟨.ofUnits body, Utf16.lossy cut.text, position, stop⟩
      | .token kind => ⟨[], some (.token ⟨kind, position, stop⟩), stop, cut.rest⟩
termination_by input.length
decreasing_by all_goals exact (Lexeme.splits_of_read _h).length_rest_lt

theorem length_ahead_lt {g : Grammar} {chunk : Option String} {position : Position}
    {input : List CodeUnit} {item : Item} (h : (of g chunk position input).item = some item) :
    (of g chunk position input).ahead.length < input.length := by
  fun_induction of g chunk position input with
  | case1 => cases h
  | case2 position input m failed =>
    cases input with
    | nil => cases failed
    | cons => simp
  | case3 position input cut read _ _ ih =>
    have shorter := (Lexeme.splits_of_read read).length_rest_lt
    have := ih h
    omega
  | case4 position input cut read _ _ _ ih =>
    have shorter := (Lexeme.splits_of_read read).length_rest_lt
    have := ih h
    simp only [withComment]
    omega
  | case5 position input cut read => exact (Lexeme.splits_of_read read).length_rest_lt

end Sweep

end LuaTokens
