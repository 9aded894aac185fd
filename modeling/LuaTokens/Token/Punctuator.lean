import LuaTokens.Dialect.Feature
import LuaTokens.Text.CodeUnit

/-! # Punctuators

Operators and delimiters. Where several spellings fit, the longest one that the
dialect has is meant, so the list of all punctuators holds the longer ones first.
-/

namespace LuaTokens

/-- An operator or a delimiter. -/
inductive Punctuator where
  | doubleSlash
  | shiftLeft
  | shiftRight
  | equal
  | notEqual
  | lessEqual
  | greaterEqual
  | fatArrow
  | doubleColon
  | concat
  | plus
  | minus
  | star
  | slash
  | percent
  | caret
  | hash
  | ampersand
  | tilde
  | pipe
  | less
  | greater
  | assign
  | leftParen
  | rightParen
  | leftBrace
  | rightBrace
  | leftBracket
  | rightBracket
  | semicolon
  | colon
  | comma
  | dot
  deriving Repr, DecidableEq

namespace Punctuator

/-- All punctuators, the longer ones first. -/
def all : List Punctuator :=
  [doubleSlash, shiftLeft, shiftRight, equal, notEqual, lessEqual, greaterEqual, fatArrow,
    doubleColon, concat, plus, minus, star, slash, percent, caret, hash, ampersand, tilde, pipe,
    less, greater, assign, leftParen, rightParen, leftBrace, rightBrace, leftBracket,
    rightBracket, semicolon, colon, comma, dot]

def spelling : Punctuator → String
  | doubleSlash => "//"
  | shiftLeft => "<<"
  | shiftRight => ">>"
  | equal => "=="
  | notEqual => "~="
  | lessEqual => "<="
  | greaterEqual => ">="
  | fatArrow => "=>"
  | doubleColon => "::"
  | concat => ".."
  | plus => "+"
  | minus => "-"
  | star => "*"
  | slash => "/"
  | percent => "%"
  | caret => "^"
  | hash => "#"
  | ampersand => "&"
  | tilde => "~"
  | pipe => "|"
  | less => "<"
  | greater => ">"
  | assign => "="
  | leftParen => "("
  | rightParen => ")"
  | leftBrace => "\x7b"
  | rightBrace => "\x7d"
  | leftBracket => "["
  | rightBracket => "]"
  | semicolon => ";"
  | colon => ":"
  | comma => ","
  | dot => "."

/-- Whether a dialect with these features has the punctuator. -/
def isLive (features : FeatureSet) : Punctuator → Bool
  | ampersand | tilde | shiftLeft | shiftRight => .bitwiseOperators ∈ features
  | doubleSlash => .integerDivision ∈ features
  | doubleColon => .labels ∈ features
  | _ => true

/-- The code units of the spelling. -/
def units (p : Punctuator) : List CodeUnit :=
  spellingUnits p.spelling

/-- The longest live punctuator that `input` begins with. -/
def leading? (features : FeatureSet) (input : List CodeUnit) : Option Punctuator :=
  all.find? fun p => p.isLive features && p.units.isPrefixOf input

theorem mem_all (p : Punctuator) : p ∈ all := by
  cases p <;> decide

theorem all_pairwise_length : all.Pairwise (·.units.length ≥ ·.units.length) := by
  decide

theorem units_ne_nil (p : Punctuator) : p.units ≠ [] := by
  cases p <;> decide

end Punctuator

end LuaTokens
