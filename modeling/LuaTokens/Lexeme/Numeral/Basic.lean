import LuaTokens.Lexeme.Cut
import LuaTokens.Number.Binary64

/-! # Numerals

A numeral is decimal or hexadecimal. It has digits before or behind an optional
point, and an optional exponent, decimal in both radixes, to base ten or to base
two. A decimal numeral denotes the double nearest to it. A hexadecimal one is
computed in doubles, so that it may be off where it has too many digits.
-/

namespace LuaTokens

/-- The two ways to write a numeral. -/
inductive Radix where
  | decimal
  /-- With a zero and this letter in front. -/
  | hexadecimal (letter : CodeUnit)
  deriving Repr, DecidableEq

namespace Radix

def isDigit : Radix → CodeUnit → Bool
  | decimal => CodeUnit.isDigit
  | hexadecimal _ => CodeUnit.isHexDigit

/-- Whether the letter begins an exponent. -/
def isExponentMark : Radix → CodeUnit → Bool
  | decimal, u => u == .of 'e' || u == .of 'E'
  | hexadecimal _, u => u == .of 'p' || u == .of 'P'

/-- What is written before the digits. -/
def text : Radix → List CodeUnit
  | decimal => []
  | hexadecimal letter => [.of '0', letter]

/-- The radix of a numeral. -/
def ofUnits : List CodeUnit → Radix
  | u :: letter :: _ =>
      if u = .of '0' && (letter = .of 'x' || letter = .of 'X') then hexadecimal letter else decimal
  | _ => decimal

end Radix

/-- The exponent of a numeral. -/
structure Numeral.Exponent where
  mark : CodeUnit
  sign : Option CodeUnit
  digits : List CodeUnit
  deriving Repr, DecidableEq

namespace Numeral.Exponent

def text (e : Numeral.Exponent) : List CodeUnit :=
  e.mark :: e.sign.toList ++ e.digits

def value (e : Numeral.Exponent) : Int :=
  let magnitude : Int := CodeUnit.numberOf 10 e.digits
  if e.sign = some (.of '-') then -magnitude else magnitude

end Numeral.Exponent

/-- A numeral in its parts. -/
structure Numeral where
  radix : Radix
  whole : List CodeUnit
  /-- The digits behind the point, when there is one. -/
  fraction : Option (List CodeUnit)
  exponent : Option Numeral.Exponent
  deriving Repr, DecidableEq

namespace Numeral

/-- The text before the exponent. -/
def significandText (radix : Radix) (whole : List CodeUnit) (fraction : Option (List CodeUnit)) :
    List CodeUnit :=
  radix.text ++ whole ++ (fraction.map (.of '.' :: ·)).getD []

/-- The text of a numeral. -/
def text (n : Numeral) : List CodeUnit :=
  significandText n.radix n.whole n.fraction ++ (n.exponent.map Exponent.text).getD []

/-- The digits of the significand, the point left out. -/
def digits (n : Numeral) : List CodeUnit :=
  n.whole ++ n.fraction.getD []

/-- The decimal that a decimal numeral denotes. -/
def decimal (n : Numeral) : Decimal :=
  ⟨CodeUnit.numberOf 10 n.digits,
    (n.exponent.map Exponent.value).getD 0 - ((n.fraction.getD []).length : Int)⟩

/-- Hexadecimal digits as a double, rounded after each digit. -/
def hexadecimalDigits (digits : List CodeUnit) : Binary64 :=
  digits.foldl (fun number digit => number.appendDigit 16 digit.digitValue) .zero

/-- The double of a hexadecimal numeral: its whole part and its scaled fraction are
    added and then multiplied by the power of two, each step rounded. -/
def hexadecimal (n : Numeral) : Binary64 :=
  let fraction :=
    match n.fraction with
    | some (digit :: more) =>
        (hexadecimalDigits (digit :: more)).div (.powerOfTwo (4 * ((more.length : Int) + 1)))
    | _ => .zero
  let significand := (hexadecimalDigits n.whole).add fraction
  match n.exponent with
  | none => significand.mul .one
  | some e => significand.mul (.powerOfTwo e.value)

/-- The double that a numeral denotes. -/
def value (n : Numeral) : Binary64 :=
  match n.radix with
  | .decimal => .ofDecimal n.decimal
  | .hexadecimal _ => n.hexadecimal

/-- Whether the significand and the exponent have the digits they need. -/
def isWellFormed (n : Numeral) : Bool :=
  n.digits ≠ [] && n.exponent.all (·.digits ≠ [])

theorem text_ne_nil_of_digits {n : Numeral} (h : n.digits ≠ []) : n.text ≠ [] := by
  intro empty
  simp only [text, significandText, List.append_eq_nil_iff] at empty
  obtain ⟨⟨⟨_, whole⟩, fraction⟩, _⟩ := empty
  apply h
  cases same : n.fraction with
  | none => simp [digits, whole, same]
  | some digits => simp [same] at fraction

end Numeral

end LuaTokens
