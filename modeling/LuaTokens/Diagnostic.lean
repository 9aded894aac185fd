import LuaTokens.Position
import LuaTokens.Text.Utf16

/-! # Diagnostics

Why reading fails, and the report of a failure: its cause, the place of the
offending text, and that text.
-/

namespace LuaTokens

/-- Why source text is not a sequence of lexemes. -/
inductive Fault where
  /-- No lexeme begins with this unit. -/
  | unexpectedSymbol
  /-- A quoted string meets a line break or the end of the source. -/
  | unfinishedString
  /-- A long string has no closing bracket. -/
  | unfinishedLongString
  /-- A long comment has no closing bracket. -/
  | unfinishedLongComment
  /-- A bracket and equals signs are not followed by a second bracket. -/
  | invalidDelimiter
  /-- A numeral lacks digits that it needs. -/
  | malformedNumber
  /-- A decimal escape is above 255. -/
  | decimalEscapeTooLarge
  /-- An escape lacks a hexadecimal digit. -/
  | hexDigitExpected
  /-- A code point escape lacks one of its braces. -/
  | missingInEscape (expected : Char)
  /-- A code point escape is past the last code point. -/
  | tooLargeCodePoint
  /-- An escape is unknown where unknown ones are refused. -/
  | invalidEscape
  deriving Repr, DecidableEq

namespace Fault

/-- The character whose absence is the fault. -/
def expected? : Fault → Option Char
  | missingInEscape expected => some expected
  | invalidDelimiter => some '['
  | _ => none

/-- Whether the fault lies within an escape. -/
def inEscape : Fault → Bool
  | decimalEscapeTooLarge | hexDigitExpected | missingInEscape _ | tooLargeCodePoint
  | invalidEscape => true
  | _ => false

/-- Whether the fault is that the source ends inside a long bracket. -/
def atEnd : Fault → Bool
  | unfinishedLongString | unfinishedLongComment => true
  | _ => false

def text : Fault → String
  | unexpectedSymbol => "unexpected symbol"
  | unfinishedString => "unfinished string"
  | unfinishedLongString => "unfinished long string"
  | unfinishedLongComment => "unfinished long comment"
  | invalidDelimiter => "invalid long string delimiter, expected '['"
  | malformedNumber => "malformed number"
  | decimalEscapeTooLarge => "decimal escape too large"
  | hexDigitExpected => "hexadecimal digit expected"
  | missingInEscape expected => "missing '" ++ expected.toString ++ "' in escape sequence"
  | tooLargeCodePoint => "UTF-8 value too large"
  | invalidEscape => "invalid escape sequence"

end Fault

/-- The report of a failure. -/
structure Diagnostic where
  fault : Fault
  start : Position
  stop : Position
  /-- The offending text, or a word for the end of the source. -/
  near : String
  chunk : Option String
  deriving Repr, DecidableEq

namespace Diagnostic

/-- The whole message. Lines and columns count from one. -/
def message (d : Diagnostic) : String :=
  (d.chunk.map (· ++ ": ")).getD "" ++ d.fault.text ++ " near '" ++ d.near ++ "' at line "
    ++ toString d.start.line ++ ", column " ++ toString (d.start.column + 1)

end Diagnostic

end LuaTokens
