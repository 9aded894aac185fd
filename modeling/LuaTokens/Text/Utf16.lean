import LuaTokens.Text.CodeUnit

/-! # UTF-16

A list of code units is read as code points from the left: a high surrogate
followed by a low one is a single supplementary code point, and every other unit
is a code point of its own, an unpaired surrogate included. So every list of code
units has code points, and only those that hold an unpaired surrogate are not the
encoding of a string.
-/

namespace LuaTokens.Utf16

/-- The code point written as a surrogate pair. -/
def pairValue (high low : CodeUnit) : Nat :=
  0x10000 + (high.toNat - 0xD800) * 0x400 + (low.toNat - 0xDC00)

/-- The code points of a list of units. -/
def points : List CodeUnit → List Nat
  | [] => []
  | [u] => [u.toNat]
  | high :: low :: rest =>
      if high.isHighSurrogate && low.isLowSurrogate then
        pairValue high low :: points rest
      else
        high.toNat :: points (low :: rest)

/-- How many units the first code point takes. -/
def leadingWidth : List CodeUnit → Nat
  | [] => 0
  | [_] => 1
  | high :: low :: _ => if high.isHighSurrogate && low.isLowSurrogate then 2 else 1

theorem leadingWidth_pos (u : CodeUnit) (rest : List CodeUnit) : 0 < leadingWidth (u :: rest) := by
  cases rest with
  | nil => simp [leadingWidth]
  | cons v rest =>
    rw [leadingWidth]
    split <;> omega

/-- The units of one character. -/
def encodeChar (c : Char) : List CodeUnit :=
  if c.toNat < 0x10000 then
    [UInt16.ofNat c.toNat]
  else
    [UInt16.ofNat (0xD800 + (c.toNat - 0x10000) / 0x400),
      UInt16.ofNat (0xDC00 + (c.toNat - 0x10000) % 0x400)]

/-- The units of a string. -/
def encode (text : String) : List CodeUnit :=
  text.toList.flatMap encodeChar

/-- What stands for a code point that is no character. -/
def replacement : Char := '\uFFFD'

/-- The character of a code point, or the replacement character. -/
def charOrReplacement (point : Nat) : Char :=
  if point.isValidChar then Char.ofNat point else replacement

/-- The text of a list of units, each unpaired surrogate replaced. -/
def lossy (units : List CodeUnit) : String :=
  String.ofList ((points units).map charOrReplacement)

end LuaTokens.Utf16
