import LuaTokens.Proofs.Number.Special
import LuaTokens.Proofs.Numeration

/-! # The values of hexadecimal numerals

The whole part and the fraction are accumulated, scaled, added and multiplied by the power of
two, each step in doubles. As long as the digits make fewer than 53 bits and the powers are in
range, all steps but the last are exact, so that the value is the number itself, rounded once.
-/

namespace LuaTokens

-- Powers of natural numbers are those of the core library, also beside other monoids.
attribute [local instance (high)] instPowNat

attribute [local irreducible] Binary64.oneUnits

namespace Binary64

section Powers

theorem powerOfTwo_eq {k : Nat} (small : k < 2098) :
    powerOfTwo ((k : Int) - 1074) = .finite (2 ^ k) (isDouble_two_pow small) := by
  have same : ((k : Int) - 1074 + 1074).toNat = k := by omega
  rw [powerOfTwo, if_neg (by omega), dif_pos (by omega)]
  exact finite_congr (by rw [same])

theorem powerOfTwo_zero : powerOfTwo 0 = one := by
  have start : ((halfExponent + 1 : Nat) : Int) - 1074 = 0 := by decide
  rw [← start, powerOfTwo_eq (by decide)]
  exact finite_congr oneUnits_eq.symm

/-- Two to the power of a whole double, negated if a minus stands before it. -/
def exp2 (negative : Bool) : Binary64 → Binary64
  | .finite units _ =>
      let magnitude : Int := (units / oneUnits : Nat)
      powerOfTwo (if negative then -magnitude else magnitude)
  | .infinite => if negative then .zero else .infinite
  | .notANumber => .notANumber

theorem exp2_of_atLeast {x : Binary64} (large : AtLeast (halfExponent + 54) x) (negative : Bool) :
    exp2 negative x = if negative then .zero else .infinite := by
  cases x with
  | finite units double =>
      have reached : 2 ^ 53 ≤ units / oneUnits := by
        rw [Nat.le_div_iff_mul_le oneUnits_pos, oneUnits_eq, ← Nat.pow_add]
        rwa [show 53 + (halfExponent + 1) = halfExponent + 54 by omega]
      cases negative with
      | false => exact powerOfTwo_eq_infinite_iff.2 (by simp only [Bool.false_eq_true, if_false]; omega)
      | true => exact powerOfTwo_eq_zero_iff.2 (by simp only [if_true]; omega)
  | infinite => rfl
  | notANumber => exact large.elim

/-- An exponent that is accumulated in doubles is exact where it matters. -/
theorem exp2_accumulate (negative : Bool) (digits : List CodeUnit) :
    exp2 negative (accumulate 10 digits) = powerOfTwo
      (if negative then -(CodeUnit.numberOf 10 digits : Int) else CodeUnit.numberOf 10 digits) := by
  by_cases small : CodeUnit.numberOf 10 digits < 2 ^ 53
  · rw [accumulate_exact (by decide) small, nearest_natural small, exp2,
      Nat.mul_div_cancel _ oneUnits_pos]
  · rw [exp2_of_atLeast (atLeast_accumulate (by decide) (Nat.not_lt.1 small))]
    cases negative with
    | false => exact (powerOfTwo_eq_infinite_iff.2 (by simp only [Bool.false_eq_true, if_false]; omega)).symm
    | true => exact (powerOfTwo_eq_zero_iff.2 (by simp only [if_true]; omega)).symm

end Powers

end Binary64

namespace Numeral

open Binary64 CodeUnit

def fractionDigits (n : Numeral) : List CodeUnit :=
  n.fraction.getD []

/-- The power of two by which a hexadecimal numeral is multiplied. -/
def power (n : Numeral) : Int :=
  (n.exponent.map Exponent.value).getD 0

/-- The number of all hexadecimal digits, the point left out. -/
def significand (n : Numeral) : Nat :=
  numberOf 16 n.whole * 16 ^ n.fractionDigits.length + numberOf 16 n.fractionDigits

/-- The number that a hexadecimal numeral denotes. -/
def rational (n : Numeral) : ℚ :=
  n.significand / 16 ^ n.fractionDigits.length * 2 ^ n.power

/-- The digits of a fraction as a double, divided by the power of their number. -/
def scaled : List CodeUnit → Binary64
  | [] => .zero
  | digit :: more => (accumulate 16 (digit :: more)).div (.powerOfTwo (4 * ((more.length : Int) + 1)))

theorem hexadecimal_eq_mul (n : Numeral) : n.hexadecimal
    = ((accumulate 16 n.whole).add (scaled n.fractionDigits)).mul (.powerOfTwo n.power) := by
  obtain ⟨radix, whole, fraction, exponent⟩ := n
  cases exponent with
  | none =>
      simp only [power, Option.map_none, Option.getD_none, powerOfTwo_zero]
      rcases fraction with _ | _ | ⟨digit, more⟩ <;> rfl
  | some e => rcases fraction with _ | _ | ⟨digit, more⟩ <;> rfl

section Exact

variable {digits : List CodeUnit} {n : Numeral}

theorem accumulate_eq (small : numberOf 16 digits < 2 ^ 53) :
    accumulate 16 digits = .finite (numberOf 16 digits * oneUnits) (isDouble_natural small) :=
  (accumulate_exact (by decide) small).trans (nearest_natural small)

theorem isDouble_scaled {a : Nat} (small : a < 2 ^ 53) (k : Nat) :
    IsDouble (a * 2 ^ (halfExponent + 1 - 4 * k)) :=
  isDouble_mul_two_pow small ((Nat.sub_le _ _).trans (by decide))

theorem oneUnits_eq_mul {k : Nat} (short : k ≤ 255) :
    oneUnits = 16 ^ k * 2 ^ (halfExponent + 1 - 4 * k) := by
  have fits : 4 * k ≤ halfExponent + 1 := Nat.le_trans (Nat.mul_le_mul_left 4 short) (by decide)
  rw [show 16 = 2 ^ 4 from rfl, ← Nat.pow_mul, ← Nat.pow_add, Nat.add_sub_cancel' fits, oneUnits_eq]

theorem scaled_eq (short : digits.length ≤ 255) (small : numberOf 16 digits < 2 ^ 53) :
    scaled digits = .finite (numberOf 16 digits * 2 ^ (halfExponent + 1 - 4 * digits.length))
      (isDouble_scaled small _) := by
  cases digits with
  | nil =>
      apply finite_congr
      rw [show numberOf 16 [] = 0 from rfl, Nat.zero_mul]
  | cons digit more =>
      have fits : 4 * (more.length + 1) + (halfExponent + 1) < 2098 := by
        rw [List.length_cons] at short
        simp only [halfExponent]
        omega
      have power : 4 * ((more.length : Int) + 1)
          = ((4 * (more.length + 1) + (halfExponent + 1) : Nat) : Int) - 1074 := by
        simp only [halfExponent]
        omega
      have whole := oneUnits_eq_mul short
      have split : 2 ^ (4 * (more.length + 1) + (halfExponent + 1)) = 16 ^ (more.length + 1) * oneUnits := by
        rw [Nat.pow_add, show 16 = 2 ^ 4 from rfl, ← Nat.pow_mul, oneUnits_eq]
      have positive : 0 < 16 ^ (more.length + 1) * oneUnits := Nat.mul_pos (Nat.pow_pos (by decide)) oneUnits_pos
      have quotient (a : Nat) : a * oneUnits * oneUnits
          = a * 2 ^ (halfExponent + 1 - 4 * (more.length + 1)) * (16 ^ (more.length + 1) * oneUnits) := by
        calc
          a * oneUnits * oneUnits
            = a * (16 ^ (more.length + 1) * 2 ^ (halfExponent + 1 - 4 * (more.length + 1))) * oneUnits :=
              congrArg (a * · * oneUnits) whole
          _ = _ := by ring
      rw [scaled, accumulate_eq small, power, powerOfTwo_eq fits, div]
      simp only [split]
      rw [if_pos positive.ne', quotient]
      exact nearest_mul_den positive (isDouble_scaled small _)

/-- A number of 53 bits does not come closer to a power of two than half of its own last bit. -/
theorem le_two_pow_mul_iff {a e t : Nat} (small : a < 2 ^ 53) :
    (2 ^ 54 - 1) * 2 ^ t ≤ a * 2 ^ e ↔ 2 ^ 54 * 2 ^ t ≤ a * 2 ^ e := by
  refine ⟨fun le => ?_, fun le => Nat.le_trans (Nat.mul_le_mul_right _ (Nat.sub_le _ _)) le⟩
  have positive := Nat.two_pow_pos t
  by_cases larger : t < e
  · obtain ⟨more, rfl⟩ : ∃ more, e = t + 1 + more := ⟨e - (t + 1), by omega⟩
    have even : a * 2 ^ (t + 1 + more) = 2 * (a * 2 ^ more) * 2 ^ t := by
      rw [Nat.pow_add, Nat.pow_succ]
      ring
    rw [even] at le ⊢
    have reached := Nat.le_of_mul_le_mul_right le positive
    exact Nat.mul_le_mul_right _ (by omega)
  · have bounded : a * 2 ^ e ≤ a * 2 ^ t := Nat.mul_le_mul_left a (Nat.pow_le_pow_right (by decide) (by omega))
    have short := Nat.mul_lt_mul_of_pos_right small positive
    omega

section Safe

variable (short : n.fractionDigits.length ≤ 255) (small : n.significand < 2 ^ 53)

include short small

theorem add_scaled_eq : (accumulate 16 n.whole).add (scaled n.fractionDigits)
    = .finite (n.significand * 2 ^ (halfExponent + 1 - 4 * n.fractionDigits.length))
        (isDouble_scaled small _) := by
  have smallWhole : numberOf 16 n.whole < 2 ^ 53 := by
    refine lt_of_le_of_lt ?_ small
    exact (Nat.le_mul_of_pos_right _ (Nat.pow_pos (by decide))).trans (Nat.le_add_right _ _)
  have smallFraction : numberOf 16 n.fractionDigits < 2 ^ 53 := (Nat.le_add_left _ _).trans_lt small
  have sum (d f : Nat) : d * oneUnits + f * 2 ^ (halfExponent + 1 - 4 * n.fractionDigits.length)
      = (d * 16 ^ n.fractionDigits.length + f) * 2 ^ (halfExponent + 1 - 4 * n.fractionDigits.length) * 1 := by
    calc
      _ = d * (16 ^ n.fractionDigits.length * 2 ^ (halfExponent + 1 - 4 * n.fractionDigits.length))
          + f * 2 ^ (halfExponent + 1 - 4 * n.fractionDigits.length) :=
            congrArg (d * · + _) (oneUnits_eq_mul short)
      _ = _ := by ring
  rw [accumulate_eq smallWhole, scaled_eq short smallFraction, add, sum]
  exact nearest_mul_den Nat.one_pos (isDouble_scaled small _)

/-- Only the multiplication by the power of two is rounded. -/
theorem hexadecimal_eq_nearest {k : Nat} (inRange : k < 2098) (power : n.power = (k : Int) - 1074) :
    n.hexadecimal = nearest
      (n.significand * 2 ^ (halfExponent + 1 - 4 * n.fractionDigits.length) * 2 ^ k) oneUnits := by
  rw [hexadecimal_eq_mul, add_scaled_eq short small, power, powerOfTwo_eq inRange, mul]

omit small in
theorem rational_eq {k : Nat} (power : n.power = (k : Int) - 1074) : n.rational
    = ((n.significand * 2 ^ (halfExponent + 1 - 4 * n.fractionDigits.length) * 2 ^ k : Nat) : ℚ)
      / oneUnits / 2 ^ 1074 := by
  have unit : (0 : ℚ) < oneUnits := Nat.cast_pos.2 oneUnits_pos
  have scale : (0 : ℚ) < 16 ^ n.fractionDigits.length := by positivity
  have bits : (0 : ℚ) < 2 ^ 1074 := by positivity
  have whole : (oneUnits : ℚ)
      = 16 ^ n.fractionDigits.length * 2 ^ (halfExponent + 1 - 4 * n.fractionDigits.length) := by
    have cast := congrArg (Nat.cast : Nat → ℚ) (oneUnits_eq_mul short)
    rwa [Nat.cast_mul, Nat.cast_pow, Nat.cast_pow, Nat.cast_ofNat, Nat.cast_ofNat] at cast
  rw [rational, power, zpow_sub₀ two_ne_zero, zpow_natCast, Nat.cast_mul, Nat.cast_mul, Nat.cast_pow,
    Nat.cast_pow, Nat.cast_ofNat]
  rw [show ((2 : ℚ) ^ (1074 : ℤ)) = 2 ^ 1074 from zpow_natCast 2 1074]
  generalize (2 : ℚ) ^ 1074 = b at bits
  generalize (2 : ℚ) ^ (halfExponent + 1 - 4 * n.fractionDigits.length) = s at whole
  rw [whole] at unit ⊢
  have positive : 0 < s := pos_of_mul_pos_right unit scale.le
  field_simp

theorem roundsTo_rational (low : -1074 ≤ n.power) (high : n.power ≤ 1023) :
    RoundsTo n.rational n.hexadecimal := by
  obtain ⟨k, power⟩ : ∃ k : Nat, n.power = (k : Int) - 1074 := ⟨(n.power + 1074).toNat, by omega⟩
  rw [rational_eq short power, hexadecimal_eq_nearest short small (by omega) power]
  exact roundsTo_nearest oneUnits_pos

theorem overflowBound_le_rational_iff (low : -1074 ≤ n.power) :
    overflowBound ≤ n.rational ↔ 2 ^ 1024 ≤ n.rational := by
  obtain ⟨k, power⟩ : ∃ k : Nat, n.power = (k : Int) - 1074 := ⟨(n.power + 1074).toNat, by omega⟩
  rw [rational_eq short power, overflowBound_le_iff oneUnits_pos, two_pow_eq_mul, mul_le_div_iff oneUnits_pos,
    oneUnits_eq, ← Nat.pow_add, Nat.mul_assoc, ← Nat.pow_add]
  exact le_two_pow_mul_iff small

end Safe

end Exact

theorem Cuts.begins_of_hexadecimal {input rest : List CodeUnit} {n : Numeral} {letter : CodeUnit}
    (cuts : Cuts input n rest) (radix : n.radix = .hexadecimal letter) :
    ∃ behind, input = .of '0' :: letter :: behind := by
  have marked : CutsRadix input (.hexadecimal letter) _ := cutsRadix_iff.2 ⟨cuts.radix_eq.symm.trans radix, rfl⟩
  cases marked with
  | hexadecimal => exact ⟨_, rfl⟩

end Numeral

namespace Session

open Binary64

/-- In its safe range a hexadecimal numeral is delivered as the double nearest to its number. It is
    that number if a double is, and infinite just from `2 ^ 1024` on. -/
theorem pull_hexadecimal {s : Session} {n : Numeral} {letter : CodeUnit} {rest : List CodeUnit}
    (cuts : Numeral.Cuts s.ahead n rest) (radix : n.radix = .hexadecimal letter)
    (filled : ¬ n.LacksDigits) (short : n.fractionDigits.length ≤ 255) (small : n.significand < 2 ^ 53)
    (low : -1074 ≤ n.power) (high : n.power ≤ 1023) :
    s.pull = (some (.token ⟨.number n.value, s.position, s.position.shift n.text.length⟩),
        { s with position := s.position.shift n.text.length, ahead := rest })
      ∧ RoundsTo n.rational n.value
      ∧ (∀ units (isDouble : IsDouble units), n.rational = ofUnits units → n.value = .finite units isDouble)
      ∧ (n.value = .infinite ↔ 2 ^ 1024 ≤ n.rational)
      ∧ ∀ e ∈ n.exponent,
          exp2 (e.sign == some (.of '-')) (accumulate 10 e.digits) = .powerOfTwo e.value := by
  obtain ⟨behind, ahead⟩ := cuts.begins_of_hexadecimal radix
  have begins : Lexeme.beginsNumeral (.of '0') (letter :: behind) = true := rfl
  have value : n.value = n.hexadecimal := by rw [Numeral.value, radix]
  have rounds : RoundsTo n.rational n.value := value ▸ Numeral.roundsTo_rational short small low high
  refine ⟨pull_of_cuts ahead begins cuts filled, rounds, fun units isDouble same => ?_, ?_, fun e _ => ?_⟩
  · rw [same] at rounds
    exact rounds.eq_finite isDouble
  · rw [rounds.eq_infinite_iff, Numeral.overflowBound_le_rational_iff short small low]
  · rw [exp2_accumulate, Numeral.Exponent.value]
    simp only [beq_iff_eq]

/-- Halfway between the two least doubles the number is rounded to the even one. -/
theorem pull_hexadecimal_tie :
    let s := ((start {} (spellingUnits "x=0X001.8P-1074")).pulls 2).2
    let n : Numeral := ⟨.hexadecimal (.of 'X'), spellingUnits "001", some (spellingUnits "8"),
      some ⟨.of 'P', some (.of '-'), spellingUnits "1074"⟩⟩
    let value : Binary64 := .finite 2 ⟨by decide, by decide⟩
    Numeral.Cuts s.ahead n [] ∧ ¬ n.LacksDigits ∧ n.fractionDigits.length ≤ 255
      ∧ n.significand < 2 ^ 53 ∧ -1074 ≤ n.power ∧ n.power ≤ 1023
      ∧ n.value = value ∧ RoundsTo n.rational value
      ∧ s.pull = (some (.token ⟨.number value, ⟨1, 0, 2⟩, ⟨1, 0, 15⟩⟩),
          { s with position := ⟨1, 0, 15⟩, ahead := [] }) := by
  intro s n value
  have cuts : Numeral.Cuts s.ahead n [] := Numeral.cuts_iff.2 (by decide +kernel)
  have filled : ¬ n.LacksDigits := Numeral.isWellFormed_iff.1 (by decide)
  have short : n.fractionDigits.length ≤ 255 := by decide
  have small : n.significand < 2 ^ 53 := by decide
  have low : -1074 ≤ n.power := by decide
  have high : n.power ≤ 1023 := by decide
  have same : n.value = value := by decide +kernel
  have position : s.position = ⟨1, 0, 2⟩ := by decide +kernel
  obtain ⟨pulled, rounds, -⟩ := pull_hexadecimal cuts rfl filled short small low high
  rw [same, position] at pulled
  exact ⟨cuts, filled, short, small, low, high, same, same ▸ rounds, pulled⟩

end Session

end LuaTokens
