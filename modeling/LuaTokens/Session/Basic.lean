import LuaTokens.Session.Sweep

/-! # Sessions

A session reads one source under fixed options and delivers its tokens on demand.
It holds the comments it came across, if the options ask for them, until they are
taken. It is over after the end of the source and after the first failure.
-/

namespace LuaTokens

/-- The state of reading one source. -/
structure Session where
  options : Options
  source : List CodeUnit
  position : Position
  /-- The units still to be read. None are left once the session is over. -/
  ahead : List CodeUnit
  /-- The comments held. -/
  comments : Array Comment
  deriving DecidableEq

namespace Session

/-- The first line, if it begins with the mark of a script. -/
def shebang (source : List CodeUnit) : List CodeUnit :=
  if (spellingUnits "#!").isPrefixOf source then source.takeWhile (!·.isBreak) else []

/-- Begin to read a source of code units. -/
def start (o : Options) (source : List CodeUnit) : Session :=
  let skipped := if o.ignoreShebang then shebang source else []
  ⟨o, source, Position.advance {} skipped, source.drop skipped.length, #[]⟩

/-- Begin to read a text. -/
def ofText (o : Options) (text : String) : Session :=
  start o (Utf16.encode text)

/-- The sweep to the next token. -/
def sweep (s : Session) : Sweep :=
  .of s.options.grammar s.options.chunk s.position s.ahead

/-- Pull the next token. There is none when the session is over; a failure is
    delivered once. -/
def pull (s : Session) : Option Item × Session :=
  let next := s.sweep
  (next.item,
    { s with
      position := next.position
      ahead := next.ahead
      comments := if s.options.comments then s.comments ++ next.comments else s.comments })

theorem length_ahead_pull {s : Session} {item : Item} (h : s.pull.1 = some item) :
    s.pull.2.ahead.length < s.ahead.length :=
  Sweep.length_ahead_lt h

/-- Pull at most `count` times, and no more once the session is over. -/
def take : Nat → Session → List Item × Session
  | 0, s => ([], s)
  | count + 1, s =>
      match s.pull with
      | (none, after) => ([], after)
      | (some item, after) =>
          let (items, last) := take count after
          (item :: items, last)

/-- Pull until the session is over. -/
def drain (s : Session) : List Item × Session :=
  match _h : s.pull.1 with
  | none => ([], s.pull.2)
  | some item =>
      let (items, last) := drain s.pull.2
      (item :: items, last)
termination_by s.ahead.length
decreasing_by exact length_ahead_pull _h

/-- Hand out the comments held and hold none. -/
def takeComments (s : Session) : List Comment × Session :=
  (s.comments.toList, { s with comments := #[] })

/-- The text between two offsets, unpaired surrogates replaced, if the offsets are in
    order and within the source. -/
def sourceText? (s : Session) (first last : Nat) : Option String :=
  if first ≤ last ∧ last ≤ s.source.length then
    some (Utf16.lossy ((s.source.drop first).take (last - first)))
  else
    none

end Session

end LuaTokens
