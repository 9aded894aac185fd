import LuaTokens.Number.Binary64

/-! # Shortest decimals

The decimal printed for a double is one with the fewest digits among those that
round to the double; among those the nearest, and of two equally near the larger.
The search goes through the decimal grids from coarse to fine. On each only the two
neighbours of the double can be nearest, and 17 digits always suffice.
-/

namespace LuaTokens.Binary64

attribute [local instance (high)] instPowNat

/-- Whether `units` is at least `10 ^ exponent`. -/
def reaches (units : Nat) (exponent : Int) : Bool :=
  10 ^ exponent.toNat * oneUnits ≤ units * 10 ^ (-exponent).toNat

/-- How many decimal digits a positive number of units has before its point, or
    minus the zeros that follow the point. The power of two below the number leaves
    two possibilities. -/
def magnitude (units : Nat) : Int :=
  let low := ((units.log2 : Int) - 1074) * 30103 / 100000
  if reaches units (low + 1) then low + 2 else low + 1

/-- Whether `num / den` units round to `units`: it lies within half the distance to
    each neighbour, and a half counts when `units` is the even one. The distance
    down is half as long where the spacing changes. -/
def roundsTo (units num den : Nat) : Bool :=
  let step := spacing units
  let even := units / step % 2 == 0
  let halfway := if units / step = 2 ^ (52 : Nat) && step != 1 then step else 2 * step
  let low := (4 * units - halfway) * den
  let high := (4 * units + 2 * step) * den
  if even then low ≤ 4 * num && 4 * num ≤ high else low < 4 * num && 4 * num < high

/-- The decimal with exponent `exponent` that rounds to `units`, if there is one:
    the nearer one if both neighbours do, the upper one if they are equally near. -/
def onGrid? (units : Nat) (exponent : Int) : Option Decimal :=
  let scale := 10 ^ exponent.toNat * oneUnits
  let den : Nat := 10 ^ (-exponent).toNat
  let lower := units * den / scale
  let fits (coefficient : Nat) : Bool := roundsTo units (coefficient * scale) den
  let upperNearer := (2 * lower + 1) * scale ≤ 2 * (units * den)
  if fits lower && !(upperNearer && fits (lower + 1)) then some ⟨lower, exponent⟩
  else if fits (lower + 1) then some ⟨lower + 1, exponent⟩
  else none

/-- The shortest decimal that rounds to `units`. The exact decimal stands behind
    the search. -/
def shortest (units : Nat) : Decimal :=
  if units = 0 then ⟨0, 0⟩
  else
    let first := magnitude units - 1
    let exponents := (List.range 17).map fun (i : Nat) => first - i
    match exponents.findSome? (onGrid? units) with
    | some d => d.trim 20
    | none => ⟨units * 5 ^ (1074 : Nat), -1074⟩

/-- The text of a double: positional, never with an exponent. -/
def text : Binary64 → String
  | .finite units _ => (shortest units).text
  | .infinite => "inf"
  | .notANumber => "NaN"

end LuaTokens.Binary64
