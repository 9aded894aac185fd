import LuaTokens.Number.Decimal

/-! # Double-precision numbers

The non-negative double-precision numbers, with exact arithmetic underneath. A
finite number is held as the natural number that counts it in units of
`2 ^ -1074`, the smallest positive double, so every operation is one on natural
numbers followed by a single rounding to nearest, halves to even. Only numbers of
units that a double has can be held.
-/

namespace LuaTokens

-- Powers of natural numbers are those of the core library, also beside other monoids.
attribute [local instance (high)] instPowNat

namespace Binary64

/-- How many units the number one has. -/
def oneUnits : Nat := 2 ^ (1074 : Nat)

/-- The distance between neighbouring doubles at `units`: 53 significant bits, and
    never less than one unit. -/
def spacing (units : Nat) : Nat :=
  2 ^ (units.log2 - 52)

/-- Some finite double has exactly this many units: fewer than `2 ^ 2098`, which
    make `2 ^ 1024`, and no bits below the spacing. -/
def IsDouble (units : Nat) : Prop :=
  units.log2 < 2098 ∧ spacing units ∣ units

end Binary64

/-- A non-negative double-precision number. -/
inductive Binary64 where
  /-- The number `units * 2 ^ -1074`. -/
  | finite (units : Nat) (isDouble : Binary64.IsDouble units)
  | infinite
  | notANumber
  deriving Repr, DecidableEq

namespace Binary64

theorem spacing_dvd_mul {significand exponent : Nat} (small : significand ≤ 2 ^ (53 : Nat)) :
    spacing (significand * 2 ^ exponent) ∣ significand * 2 ^ exponent := by
  unfold spacing
  rcases Nat.eq_zero_or_pos significand with rfl | positive
  · simp
  rcases Nat.lt_or_eq_of_le small with less | same
  · apply Nat.dvd_mul_left_of_dvd
    apply Nat.pow_dvd_pow
    have nonzero : significand * 2 ^ exponent ≠ 0 := by
      have := Nat.two_pow_pos exponent
      exact Nat.mul_ne_zero (by omega) (by omega)
    have bound : significand * 2 ^ exponent < 2 ^ (53 + exponent) := by
      rw [Nat.pow_add]
      exact Nat.mul_lt_mul_of_pos_right less (Nat.two_pow_pos exponent)
    have := (Nat.log2_lt nonzero).2 bound
    omega
  · rw [same, ← Nat.pow_add, Nat.log2_two_pow]
    exact Nat.pow_dvd_pow 2 (by omega)

theorem isDouble_two_pow {exponent : Nat} (h : exponent < 2098) : IsDouble (2 ^ exponent) := by
  constructor
  · simpa using h
  · simpa using @spacing_dvd_mul 1 exponent (by decide)

theorem isDouble_zero : IsDouble 0 := by
  constructor
  · decide
  · exact Nat.dvd_zero _

theorem isDouble_oneUnits : IsDouble oneUnits := by
  unfold oneUnits
  apply isDouble_two_pow
  decide

def zero : Binary64 := .finite 0 isDouble_zero

def one : Binary64 := .finite oneUnits isDouble_oneUnits

/-- The quotient rounded to a natural number, a half to the even neighbour. -/
def roundHalfEven (num den : Nat) : Nat :=
  let quotient := num / den
  let twice := 2 * (num % den)
  if den < twice || (twice == den && quotient % 2 == 1) then quotient + 1 else quotient

theorem roundHalfEven_le (num den : Nat) : roundHalfEven num den ≤ num / den + 1 := by
  unfold roundHalfEven
  simp only
  split <;> omega

/-- The units nearest to `num / den` among those with 53 significant bits. -/
def nearestUnits (num den : Nat) : Nat :=
  let step := spacing (num / den)
  roundHalfEven num (den * step) * step

theorem div_spacing_lt (units : Nat) : units / spacing units < 2 ^ (53 : Nat) := by
  unfold spacing
  rw [Nat.div_lt_iff_lt_mul (Nat.two_pow_pos _), ← Nat.pow_add]
  rcases Nat.eq_zero_or_pos units with rfl | positive
  · exact Nat.two_pow_pos _
  · exact (Nat.log2_lt (by omega)).1 (by omega)

theorem spacing_dvd_nearestUnits (num den : Nat) :
    spacing (nearestUnits num den) ∣ nearestUnits num den := by
  apply spacing_dvd_mul
  have rounded := roundHalfEven_le num (den * spacing (num / den))
  have bound := div_spacing_lt (num / den)
  rw [Nat.div_div_eq_div_mul] at bound
  omega

/-- The double nearest to `num / den` units. -/
def nearest (num den : Nat) : Binary64 :=
  if finite : (nearestUnits num den).log2 < 2098 then
    .finite (nearestUnits num den) ⟨finite, spacing_dvd_nearestUnits num den⟩
  else .infinite

/-- The double nearest to a decimal. Exponents that can only lead past the range,
    or to zero, are decided by their size. -/
def ofDecimal (d : Decimal) : Binary64 :=
  if d.coefficient = 0 then zero
  else
    match d.exponent with
    | .ofNat e => if 400 ≤ e then .infinite else nearest (d.coefficient * 10 ^ e * oneUnits) 1
    | .negSucc k =>
        if d.coefficient.log2 + 1077 ≤ 3 * (k + 1) then zero
        else nearest (d.coefficient * oneUnits) (10 ^ (k + 1))

/-- The power of two with exponent `e`, zero below the smallest double. -/
def powerOfTwo (e : Int) : Binary64 :=
  if e < -1074 then zero
  else if small : (e + 1074).toNat < 2098 then
    .finite (2 ^ (e + 1074).toNat) (isDouble_two_pow small)
  else .infinite

def add : Binary64 → Binary64 → Binary64
  | .finite a _, .finite b _ => nearest (a + b) 1
  | .notANumber, _ => .notANumber
  | _, .notANumber => .notANumber
  | _, _ => .infinite

def mul : Binary64 → Binary64 → Binary64
  | .finite a _, .finite b _ => nearest (a * b) oneUnits
  | .notANumber, _ => .notANumber
  | _, .notANumber => .notANumber
  | .finite a _, .infinite => if a = 0 then .notANumber else .infinite
  | .infinite, .finite b _ => if b = 0 then .notANumber else .infinite
  | .infinite, .infinite => .infinite

def div : Binary64 → Binary64 → Binary64
  | .finite a _, .finite b _ =>
      if b ≠ 0 then nearest (a * oneUnits) b
      else if a ≠ 0 then .infinite
      else .notANumber
  | .notANumber, _ => .notANumber
  | _, .notANumber => .notANumber
  | .finite _ _, .infinite => zero
  | .infinite, .finite _ _ => .infinite
  | .infinite, .infinite => .notANumber

/-- Put one more digit behind a number in base `base`, rounding once. -/
def appendDigit (base : Nat) (number : Binary64) (digit : Nat) : Binary64 :=
  match number with
  | .finite units _ => nearest (units * base + digit * oneUnits) 1
  | other => other

/-- The IEEE 754 bit pattern. -/
def toBits : Binary64 → Nat
  | .finite units _ =>
      if units < 2 ^ (52 : Nat) then units
      else
        let shift := units.log2 - 52
        (shift + 1) * 2 ^ (52 : Nat) + (units / 2 ^ shift - 2 ^ (52 : Nat))
  | .infinite => 0x7FF0000000000000
  | .notANumber => 0x7FF8000000000000

end Binary64

end LuaTokens
