import LuaTokens.Lexeme.Numeral.Basic

/-! # Reading numerals

A numeral is taken as far as it goes, part by part. It is malformed if it has no
digits, or an exponent without digits; nothing is taken behind a significand that
has none.
-/

namespace LuaTokens

namespace Numeral

/-- The digits of a fraction, if a point stands at the front. -/
def readFraction (radix : Radix) : List CodeUnit → Option (List CodeUnit) × List CodeUnit
  | [] => (none, [])
  | u :: rest =>
      if u = .of '.' then (some (rest.takeWhile radix.isDigit), rest.dropWhile radix.isDigit)
      else (none, u :: rest)

/-- A sign, if one stands at the front. -/
def readSign : List CodeUnit → Option CodeUnit × List CodeUnit
  | [] => (none, [])
  | u :: rest => if u = .of '+' || u = .of '-' then (some u, rest) else (none, u :: rest)

/-- The exponent, if its mark stands at the front. It may turn out to lack digits. -/
def readExponent (radix : Radix) : List CodeUnit → Option Exponent × List CodeUnit
  | [] => (none, [])
  | mark :: afterMark =>
      if radix.isExponentMark mark then
        let (sign, afterSign) := readSign afterMark
        (some ⟨mark, sign, afterSign.takeWhile CodeUnit.isDigit⟩,
          afterSign.dropWhile CodeUnit.isDigit)
      else (none, mark :: afterMark)

/-- Take the numeral at the front as far as it goes. Nothing is taken behind a
    significand without digits. -/
def take (input : List CodeUnit) : Cut Numeral :=
  let radix := Radix.ofUnits input
  let afterRadix := input.drop radix.text.length
  let whole := afterRadix.takeWhile radix.isDigit
  let (fraction, afterFraction) := readFraction radix (afterRadix.dropWhile radix.isDigit)
  let (exponent, rest) :=
    if whole ++ fraction.getD [] = [] then (none, afterFraction)
    else readExponent radix afterFraction
  let numeral : Numeral := ⟨radix, whole, fraction, exponent⟩
  ⟨numeral, numeral.text, rest⟩

theorem text_readFraction (radix : Radix) (input : List CodeUnit) :
    ((readFraction radix input).1.map (.of '.' :: ·)).getD [] ++ (readFraction radix input).2
      = input := by
  unfold readFraction
  split
  · rfl
  · split
    next same => simp [same]
    · rfl

theorem text_readSign (input : List CodeUnit) :
    (readSign input).1.toList ++ (readSign input).2 = input := by
  unfold readSign
  split
  · rfl
  · split <;> rfl

theorem text_readExponent (radix : Radix) (input : List CodeUnit) :
    ((readExponent radix input).1.map Exponent.text).getD [] ++ (readExponent radix input).2
      = input := by
  unfold readExponent
  split
  · rfl
  next mark afterMark =>
    split
    · simp [Exponent.text, text_readSign]
    · rfl

theorem text_radix_ofUnits (input : List CodeUnit) :
    (Radix.ofUnits input).text ++ input.drop (Radix.ofUnits input).text.length = input := by
  unfold Radix.ofUnits
  split
  next u letter rest =>
    split
    next h =>
      simp only [Bool.and_eq_true, decide_eq_true_eq] at h
      simp [Radix.text, h.1]
    · rfl
  · rfl

theorem significandText_append_readFraction (input : List CodeUnit) :
    let radix := Radix.ofUnits input
    let afterRadix := input.drop radix.text.length
    let fraction := readFraction radix (afterRadix.dropWhile radix.isDigit)
    significandText radix (afterRadix.takeWhile radix.isDigit) fraction.1 ++ fraction.2 = input := by
  intro radix afterRadix fraction
  simp only [significandText, List.append_assoc]
  rw [text_readFraction, List.takeWhile_append_dropWhile]
  exact text_radix_ofUnits input

theorem text_append_rest_take (input : List CodeUnit) :
    (take input).text ++ (take input).rest = input := by
  have whole := significandText_append_readFraction input
  simp only at whole
  simp only [take, text, List.append_assoc]
  split
  · simpa using whole
  · rw [text_readExponent]
    exact whole

/-- Read the numeral that the input begins with. -/
def read (input : List CodeUnit) : Except Misreading (Cut Numeral) :=
  let cut := take input
  if cut.value.isWellFormed then .ok cut else .error ⟨.malformedNumber, [], cut.text⟩

theorem splits_of_read {input : List CodeUnit} {cut : Cut Numeral} (h : read input = .ok cut) :
    cut.Splits input := by
  unfold read at h
  simp only at h
  split at h
  next wellFormed =>
    cases h
    simp only [isWellFormed, Bool.and_eq_true, decide_eq_true_eq] at wellFormed
    exact ⟨text_append_rest_take input, text_ne_nil_of_digits wellFormed.1⟩
  · cases h

end Numeral

end LuaTokens
