/-! # Code units

Source text is a list of 16-bit code units, well-formed UTF-16 or not. Every
offset, column and length counts code units. The classes below are the ones the
readers of names, numerals, blanks and escapes share; outside ASCII only name
characters exist, and only when they are asked for.
-/

namespace LuaTokens

/-- One UTF-16 code unit. -/
abbrev CodeUnit := UInt16

namespace CodeUnit

/-- The code unit of an ASCII character. -/
def of (c : Char) : CodeUnit :=
  UInt16.ofNat c.toNat

/-- Tab, vertical tab, form feed and space. -/
def isBlank (u : CodeUnit) : Bool :=
  u == 0x09 || u == 0x0B || u == 0x0C || u == 0x20

/-- Line feed and carriage return. -/
def isBreak (u : CodeUnit) : Bool :=
  u == 0x0A || u == 0x0D

/-- Whatever may stand between two lexemes without being part of one. -/
def isSpace (u : CodeUnit) : Bool :=
  u.isBlank || u.isBreak

def isDigit (u : CodeUnit) : Bool :=
  0x30 ≤ u && u ≤ 0x39

def isHexDigit (u : CodeUnit) : Bool :=
  u.isDigit || (0x41 ≤ u && u ≤ 0x46) || (0x61 ≤ u && u ≤ 0x66)

/-- The value of a hexadecimal digit of either case. -/
def digitValue (u : CodeUnit) : Nat :=
  if u ≤ 0x39 then u.toNat - 0x30
  else if u ≤ 0x46 then u.toNat - 0x41 + 10
  else u.toNat - 0x61 + 10

/-- A letter or an underscore, and with `extended` anything outside ASCII. -/
def isNameStart (extended : Bool) (u : CodeUnit) : Bool :=
  (0x41 ≤ u && u ≤ 0x5A) || (0x61 ≤ u && u ≤ 0x7A) || u == 0x5F || (extended && 0x80 ≤ u)

def isNamePart (extended : Bool) (u : CodeUnit) : Bool :=
  u.isNameStart extended || u.isDigit

def isQuote (u : CodeUnit) : Bool :=
  u == of '"' || u == of '\''

/-- The first half of a surrogate pair. -/
def isHighSurrogate (u : CodeUnit) : Bool :=
  0xD800 ≤ u && u ≤ 0xDBFF

/-- The second half of a surrogate pair. -/
def isLowSurrogate (u : CodeUnit) : Bool :=
  0xDC00 ≤ u && u ≤ 0xDFFF

/-- The width of the line break that the text begins with, zero if it begins with
    none. A line feed and a carriage return in either order are one break. -/
def breakWidth : List CodeUnit → Nat
  | [] => 0
  | [u] => if u.isBreak then 1 else 0
  | u :: v :: _ => if u.isBreak then (if v.isBreak && v != u then 2 else 1) else 0

/-- The number that digits in base `base` spell. -/
def numberOf (base : Nat) (digits : List CodeUnit) : Nat :=
  digits.foldl (fun number digit => number * base + digit.digitValue) 0

end CodeUnit

/-- The code units of an ASCII spelling. -/
def spellingUnits (spelling : String) : List CodeUnit :=
  spelling.toList.map .of

end LuaTokens
