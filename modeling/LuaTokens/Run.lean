import LuaTokens.Session.Basic

/-! # Runs

A run reads a whole source in one go: the tokens up to its end or its first
failure, the comments among them, and where reading stopped.
-/

namespace LuaTokens

/-- Everything that one source yields. -/
structure Run where
  tokens : List Token
  comments : List Comment
  failure : Option Diagnostic
  position : Position
  deriving DecidableEq

namespace Run

/-- Run a session to its end. -/
def ofSession (s : Session) : Run :=
  let (items, last) := s.drain
  ⟨items.filterMap Item.token?, last.comments.toList, items.findSome? Item.failure?, last.position⟩

/-- Run over a source of code units. -/
def ofUnits (o : Options) (source : List CodeUnit) : Run :=
  ofSession (.start o source)

/-- Run over a text. -/
def ofText (o : Options) (text : String) : Run :=
  ofSession (.ofText o text)

end Run

/-- The tokens and comments of a text, or its first failure. -/
def tokenizeWith (o : Options) (text : String) : Except Diagnostic (List Token × List Comment) :=
  let run := Run.ofText o text
  match run.failure with
  | none => .ok (run.tokens, run.comments)
  | some diagnostic => .error diagnostic

/-- The tokens of a text under the default options, or its first failure. -/
def tokenize (text : String) : Except Diagnostic (List Token) :=
  (tokenizeWith {} text).map (·.1)

end LuaTokens
