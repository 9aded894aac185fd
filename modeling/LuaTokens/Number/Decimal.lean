/-! # Decimals

A decimal is a natural number times a power of ten. Its text is positional: it
never has an exponent, and a point only where a digit follows it.
-/

namespace LuaTokens

/-- The number `coefficient * 10 ^ exponent`. -/
structure Decimal where
  coefficient : Nat
  exponent : Int
  deriving Repr, DecidableEq

namespace Decimal

/-- Drop trailing zeros of the coefficient, at most `limit` of them. -/
def trim : Nat → Decimal → Decimal
  | 0, d => d
  | limit + 1, d =>
      if d.coefficient % 10 = 0 then trim limit ⟨d.coefficient / 10, d.exponent + 1⟩ else d

/-- The positional text. -/
def text (d : Decimal) : String :=
  let digits := Nat.toDigits 10 d.coefficient
  match d.exponent with
  | .ofNat zeros => String.ofList (digits ++ List.replicate zeros '0')
  | .negSucc k =>
      let places := k + 1
      let padded := List.replicate (places + 1 - digits.length) '0' ++ digits
      String.ofList
        (padded.take (padded.length - places) ++ '.' :: padded.drop (padded.length - places))

end Decimal

end LuaTokens
