import LuaTokens.Lexeme.Cut
import LuaTokens.Options
import LuaTokens.Token.Basic

/-! # Lexemes

Source text is a sequence of lexemes: runs of white space, comments and tokens.
A grammar says which names, keywords, escapes and punctuators there are.
-/

namespace LuaTokens

/-- What decides which lexemes there are. -/
structure Grammar where
  features : FeatureSet
  extendedIdentifiers : Bool
  deriving Repr, DecidableEq

def Options.grammar (o : Options) : Grammar :=
  ⟨o.dialect.features, o.extendedIdentifiers⟩

/-- A piece of source text, with its value where it has one. -/
inductive Lexeme where
  | space
  | comment (body : List CodeUnit)
  | token (kind : Token.Kind)
  deriving Repr, DecidableEq

namespace Lexeme

/-- The outcome of reading one lexeme. -/
inductive Reading where
  /-- The source is at its end. -/
  | finished
  | read (cut : Cut Lexeme)
  | failed (m : Misreading)
  deriving Repr, DecidableEq

/-- The reading of a token, or its failure. -/
def Reading.ofToken {α : Type} (kind : α → Token.Kind) : Except Misreading (Cut α) → Reading
  | .ok cut => .read (cut.map fun value => .token (kind value))
  | .error m => .failed m

theorem Reading.splits_of_ofToken {α : Type} {kind : α → Token.Kind}
    {outcome : Except Misreading (Cut α)} {input : List CodeUnit} {cut : Cut Lexeme}
    (splits : ∀ inner, outcome = .ok inner → inner.Splits input)
    (h : Reading.ofToken kind outcome = .read cut) : cut.Splits input := by
  cases outcome with
  | ok inner =>
    cases h
    exact (splits inner rfl).map _
  | error m => cases h

end Lexeme

end LuaTokens
