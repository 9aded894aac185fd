import LuaTokens.Dialect.Feature
import LuaTokens.Diagnostic
import LuaTokens.Text.ByteString

/-! # Escapes

What may follow a backslash in a quoted string: a control letter, a line break, up
to three decimal digits, and, with their features, skipped white space, two
hexadecimal digits, or a code point in braces. Everything else stands for itself
or is a fault, as the dialect has it. Readers here start behind the backslash.
-/

namespace LuaTokens.Escape

/-- What an escape stands for, or what is wrong with it. -/
structure Reading where
  outcome : Except Fault ByteString
  /-- How many units the escape, or its faulty beginning, takes behind the backslash.
      It may point past the end of the source, which then ends the text. -/
  width : Nat

/-- The byte of a control letter. -/
def control? (u : CodeUnit) : Option UInt8 :=
  if u = .of 'a' then some 0x07
  else if u = .of 'b' then some 0x08
  else if u = .of 'f' then some 0x0C
  else if u = .of 'n' then some 0x0A
  else if u = .of 'r' then some 0x0D
  else if u = .of 't' then some 0x09
  else if u = .of 'v' then some 0x0B
  else none

/-- One to three decimal digits, of value at most 255. -/
def decimal (input : List CodeUnit) : Reading :=
  let digits := (input.take 3).takeWhile CodeUnit.isDigit
  let value := CodeUnit.numberOf 10 digits
  ⟨if value ≤ 255 then .ok [UInt8.ofNat value] else .error .decimalEscapeTooLarge, digits.length⟩

/-- Two hexadecimal digits. A fault covers the first unit that is none. -/
def hexadecimal (afterLetter : List CodeUnit) : Reading :=
  match afterLetter with
  | high :: low :: _ =>
      if !high.isHexDigit then ⟨.error .hexDigitExpected, 2⟩
      else if !low.isHexDigit then ⟨.error .hexDigitExpected, 3⟩
      else ⟨.ok [UInt8.ofNat (high.digitValue * 16 + low.digitValue)], 3⟩
  | _ => ⟨.error .hexDigitExpected, 3⟩

/-- A code point in braces: hexadecimal digits, at most six after leading zeros. A
    fault covers the unit that should have been another, except that the string's end
    is not taken for part of the escape. -/
def codePoint (afterLetter : List CodeUnit) : Reading :=
  if afterLetter.head? ≠ some (.of '\x7b') then ⟨.error (.missingInEscape '\x7b'), 2⟩
  else
    let digits := (afterLetter.drop 1).takeWhile CodeUnit.isHexDigit
    let zeros := digits.takeWhile (· == .of '0')
    let significant := digits.dropWhile (· == .of '0')
    let value := CodeUnit.numberOf 16 significant
    let next? := (afterLetter.drop (1 + digits.length)).head?
    if digits = [] then ⟨.error .hexDigitExpected, 3⟩
    else if 6 < significant.length then ⟨.error .tooLargeCodePoint, 2 + zeros.length + 7⟩
    else if next? = some (.of '\x7d') then
      ⟨if value ≤ 0x10FFFF then .ok (Utf8.encode value) else .error .tooLargeCodePoint,
        3 + digits.length⟩
    else if next?.any CodeUnit.isQuote then ⟨.error (.missingInEscape '\x7d'), 2 + digits.length⟩
    else ⟨.error .hexDigitExpected, 3 + digits.length⟩

/-- The code point at the front, as itself. -/
def literal (input : List CodeUnit) : Reading :=
  let width := Utf16.leadingWidth input
  ⟨.ok (.ofUnits (input.take width)), width⟩

/-- Whether the unit is itself behind a backslash in every dialect. -/
def isSelf (u : CodeUnit) : Bool :=
  u == .of '\\' || u.isQuote

/-- Read the escape whose backslash stands before `u`. -/
def read (features : FeatureSet) (u : CodeUnit) (rest : List CodeUnit) : Reading :=
  match control? u with
  | some byte => ⟨.ok [byte], 1⟩
  | none =>
      if u.isBreak then ⟨.ok [0x0A], CodeUnit.breakWidth (u :: rest)⟩
      else if u.isDigit then decimal (u :: rest)
      else if u = .of 'z' && .skipEscape ∈ features then
        ⟨.ok [], 1 + (rest.takeWhile CodeUnit.isSpace).length⟩
      else if u = .of 'x' && .hexEscapes ∈ features then hexadecimal rest
      else if u = .of 'u' && .codePointEscapes ∈ features then codePoint rest
      else if !isSelf u && .strictEscapes ∈ features then
        ⟨.error .invalidEscape, Utf16.leadingWidth (u :: rest)⟩
      else literal (u :: rest)

end LuaTokens.Escape
