import LuaTokens.Proofs.Number.Rounding
import LuaTokens.Proofs.Text.CodeUnit

/-! # Digits accumulated in doubles

A number is accumulated digit by digit, each step rounded once. Below `2 ^ 53` nothing is lost.
Beyond, the double passes a power of two just when the number itself comes within half of the
last spacing below it, provided the base is a power of two too: the next digit then cannot
carry a double over a threshold that the number has not reached.
-/

namespace LuaTokens.Binary64

-- Powers of natural numbers are those of the core library, also beside other monoids.
attribute [local instance (high)] instPowNat

theorem finite_congr {units other : Nat} {double : IsDouble units} {double' : IsDouble other}
    (same : units = other) : Binary64.finite units double = .finite other double' := by
  subst same
  rfl

section Exact

variable {units den significand exponent : Nat}

theorem nearest_mul_den (pos : 0 < den) (double : IsDouble units) :
    nearest (units * den) den = .finite units double := by
  have denominator : (den : ℚ) ≠ 0 := Nat.cast_ne_zero.2 pos.ne'
  have rounded : RoundsTo (((units * den : Nat) : ℚ) / den / 2 ^ 1074) _ := roundsTo_nearest pos
  rw [Nat.cast_mul, mul_div_cancel_right₀ _ denominator] at rounded
  exact rounded.eq_finite double

theorem isDouble_mul_two_pow (small : significand < 2 ^ 53) (fits : exponent ≤ topExponent + 1) :
    IsDouble (significand * 2 ^ exponent) := by
  refine isDouble_iff.2 ⟨?_, spacing_dvd_mul small.le⟩
  calc
    significand * 2 ^ exponent < 2 ^ 53 * 2 ^ exponent :=
      Nat.mul_lt_mul_of_pos_right small (Nat.two_pow_pos _)
    _ ≤ 2 ^ 53 * 2 ^ (topExponent + 1) := Nat.mul_le_mul_left _ (Nat.pow_le_pow_right (by decide) fits)
    _ = 2 ^ (topExponent + 54) := by rw [← Nat.pow_add, Nat.add_comm]

end Exact

/-- Two to this power is half of the units of the number one. -/
def halfExponent : Nat := 1073

theorem oneUnits_eq : oneUnits = 2 ^ (halfExponent + 1) := by
  unfold oneUnits
  rw [show halfExponent + 1 = 1074 from rfl]

theorem oneUnits_eq_two_mul : oneUnits = 2 * 2 ^ halfExponent := by
  rw [oneUnits_eq, Nat.pow_add, Nat.mul_comm]

theorem oneUnits_pos : 0 < oneUnits := by
  rw [oneUnits_eq]
  exact Nat.two_pow_pos _

-- The number is too large to be computed by accident.
attribute [local irreducible] oneUnits

theorem isDouble_natural {n : Nat} (small : n < 2 ^ 53) : IsDouble (n * oneUnits) :=
  oneUnits_eq ▸ isDouble_mul_two_pow small (by decide)

theorem nearest_natural {n : Nat} (small : n < 2 ^ 53) :
    nearest (n * oneUnits) 1 = .finite (n * oneUnits) (isDouble_natural small) := by
  have exactly := nearest_mul_den Nat.one_pos (isDouble_natural small)
  rwa [Nat.mul_one] at exactly

/-- The double has at least `2 ^ exponent` units. -/
def AtLeast (exponent : Nat) : Binary64 → Prop
  | .finite units _ => 2 ^ exponent ≤ units
  | .infinite => True
  | .notANumber => False

section AtLeast

variable {num den exponent : Nat} {x : Binary64}

theorem atLeast_nearest (pos : 0 < den) (le : exponent ≤ topExponent) :
    AtLeast (exponent + 54) (nearest num den) ↔ (2 ^ 54 - 1) * (2 ^ exponent * den) ≤ num := by
  rw [← two_pow_le_nearestUnits_iff pos]
  by_cases double : IsDouble (nearestUnits num den)
  · rw [nearest_of_isDouble double]
    rfl
  · rw [nearest_of_not_isDouble double]
    rw [isDouble_nearestUnits, Nat.not_lt] at double
    exact iff_of_true trivial
      ((Nat.pow_le_pow_right (by decide) (Nat.add_le_add_right le 54)).trans double)

theorem atLeast_top_iff : AtLeast (topExponent + 54) x ↔ x = .infinite := by
  cases x with
  | finite units double =>
      have small := (isDouble_iff.1 double).1
      exact iff_of_false (Nat.not_le.2 small) Binary64.noConfusion
  | infinite => exact iff_of_true trivial rfl
  | notANumber => exact iff_of_false id Binary64.noConfusion

end AtLeast

/-- Digits as a double, rounded after each digit. -/
def accumulate (base : Nat) (digits : List CodeUnit) : Binary64 :=
  digits.foldl (fun number digit => number.appendDigit base digit.digitValue) .zero

section Accumulate

open CodeUnit (numberOf numberOf_concat)

variable {base : Nat} {digits : List CodeUnit}

theorem accumulate_concat (base : Nat) (digits : List CodeUnit) (u : CodeUnit) :
    accumulate base (digits ++ [u]) = (accumulate base digits).appendDigit base u.digitValue := by
  rw [accumulate, List.foldl_append]
  rfl

theorem appendDigit_nearest {n : Nat} (small : n < 2 ^ 53) (base digit : Nat) :
    (nearest (n * oneUnits) 1).appendDigit base digit = nearest ((n * base + digit) * oneUnits) 1 := by
  rw [nearest_natural small, appendDigit]
  congr 1
  ring

theorem accumulate_exact (pos : 0 < base) (small : numberOf base digits < 2 ^ 53) :
    accumulate base digits = nearest (numberOf base digits * oneUnits) 1 := by
  induction digits using List.reverseRecOn with
  | nil => exact (finite_congr (Nat.zero_mul _).symm).trans (nearest_natural small).symm
  | append_singleton digits u ih =>
      rw [numberOf_concat] at small ⊢
      have before : numberOf base digits < 2 ^ 53 :=
        ((Nat.le_mul_of_pos_right _ pos).trans (Nat.le_add_right _ _)).trans_lt small
      rw [accumulate_concat, ih before, appendDigit_nearest before]

theorem le_units_of_atLeast {x : Binary64} {units : Nat} {double : IsDouble units} {exponent : Nat}
    (h : AtLeast exponent x) (same : x = .finite units double) : 2 ^ exponent ≤ units := by
  rwa [same] at h

theorem atLeast_accumulate (pos : 0 < base) (large : 2 ^ 53 ≤ numberOf base digits) :
    AtLeast (halfExponent + 54) (accumulate base digits) := by
  have half : halfExponent ≤ topExponent := by decide
  induction digits using List.reverseRecOn with
  | nil => exact absurd (show 2 ^ 53 ≤ 0 from large) (by decide)
  | append_singleton digits u ih =>
      rw [accumulate_concat]
      rw [numberOf_concat] at large
      by_cases small : numberOf base digits < 2 ^ 53
      · rw [accumulate_exact pos small, appendDigit_nearest small, atLeast_nearest Nat.one_pos half,
          oneUnits_eq_two_mul]
        have reached := Nat.mul_le_mul_right (2 * 2 ^ halfExponent) large
        omega
      · have before := ih (Nat.not_lt.1 small)
        cases accumulated : accumulate base digits with
        | finite units double =>
            have reached := le_units_of_atLeast before accumulated
            rw [appendDigit, atLeast_nearest Nat.one_pos half]
            have grown := Nat.le_mul_of_pos_right units pos
            rw [Nat.pow_add] at reached
            generalize 2 ^ halfExponent = p at reached ⊢
            omega
        | infinite => exact True.intro
        | notANumber =>
            rw [accumulated] at before
            exact before.elim

/-- One more hexadecimal digit does not carry a double over a threshold four powers of two higher,
    nor the number, before they have reached the lower one. -/
theorem le_appendDigit_iff {units n digit exponent : Nat} (double : IsDouble units) (hex : digit < 16)
    (half : halfExponent < exponent)
    (before : 2 ^ (exponent + 54) ≤ units ↔ (2 ^ 54 - 1) * 2 ^ exponent ≤ n * oneUnits) :
    (2 ^ 54 - 1) * 2 ^ (exponent + 4) ≤ units * 16 + digit * oneUnits
      ↔ (2 ^ 54 - 1) * 2 ^ (exponent + 4) ≤ (n * 16 + digit) * oneUnits := by
  obtain ⟨more, rfl⟩ : ∃ more, exponent = halfExponent + 1 + more := ⟨exponent - (halfExponent + 1), by omega⟩
  have scale : 2 ^ (halfExponent + 1 + more) = oneUnits * 2 ^ more := by rw [Nat.pow_add, oneUnits_eq]
  have high (width : Nat) : 2 ^ (halfExponent + 1 + more + width) = 2 ^ width * (oneUnits * 2 ^ more) := by
    rw [Nat.pow_add, scale, Nat.mul_comm]
  have gap : units < 2 ^ (halfExponent + 1 + more + 54) → _ := double.add_spacing_le
  rw [high, high] at gap
  rw [high, scale] at before
  rw [high, Nat.add_mul]
  have last : digit * oneUnits < 16 * oneUnits := Nat.mul_lt_mul_of_pos_right hex oneUnits_pos
  have least : oneUnits ≤ oneUnits * 2 ^ more := Nat.le_mul_of_pos_right _ (Nat.two_pow_pos more)
  -- The number counts whole ones, so below the threshold it is at least one away from it.
  have below : n * oneUnits < (2 ^ 54 - 1) * (oneUnits * 2 ^ more) →
      n * oneUnits + oneUnits ≤ (2 ^ 54 - 1) * (oneUnits * 2 ^ more) := by
    intro lt
    rw [Nat.mul_left_comm, Nat.mul_comm n] at lt
    have next := Nat.mul_le_mul_left oneUnits (Nat.succ_le_of_lt (Nat.lt_of_mul_lt_mul_left lt))
    rw [Nat.mul_left_comm, Nat.mul_comm n]
    exact next
  have scaled : n * 16 * oneUnits = 16 * (n * oneUnits) := by rw [Nat.mul_comm n, Nat.mul_assoc]
  rw [scaled]
  generalize oneUnits * 2 ^ more = p at *
  generalize digit * oneUnits = d at *
  generalize n * oneUnits = m at *
  omega

/-- Up to four powers of two above the exact numbers, every inexact number has reached the threshold. -/
theorem le_of_large {units exponent : Nat} (low : exponent ≤ halfExponent + 4)
    (large : 2 ^ (halfExponent + 54) ≤ units) : (2 ^ 54 - 1) * 2 ^ exponent ≤ units * 16 := by
  have bound : 2 ^ exponent ≤ 2 ^ (halfExponent + 4) := Nat.pow_le_pow_right (by decide) low
  rw [Nat.pow_add] at bound large
  generalize 2 ^ halfExponent = p at bound large
  omega

theorem le_appendDigit_iff_of_low {units n digit exponent : Nat} (low : exponent ≤ halfExponent + 4)
    (large : 2 ^ (halfExponent + 54) ≤ units) (inexact : 2 ^ 53 ≤ n) :
    (2 ^ 54 - 1) * 2 ^ exponent ≤ units * 16 + digit * oneUnits
      ↔ (2 ^ 54 - 1) * 2 ^ exponent ≤ (n * 16 + digit) * oneUnits := by
  have reached : 2 ^ (halfExponent + 54) ≤ n * oneUnits := by
    rw [Nat.pow_add, Nat.mul_comm, oneUnits_eq_two_mul]
    have := Nat.mul_le_mul_right (2 * 2 ^ halfExponent) inexact
    omega
  refine iff_of_true ((le_of_large low large).trans (Nat.le_add_right _ _)) ?_
  refine (le_of_large low reached).trans ?_
  rw [Nat.mul_right_comm, Nat.add_mul]
  exact Nat.le_add_right _ _

/-- Hexadecimal digits reach a power of two in doubles exactly if their number reaches half of the
    last spacing below it. -/
theorem atLeast_accumulate_iff (hex : ∀ u ∈ digits, u.isHexDigit = true) {exponent : Nat}
    (le : exponent ≤ topExponent) : AtLeast (exponent + 54) (accumulate 16 digits)
      ↔ (2 ^ 54 - 1) * 2 ^ exponent ≤ numberOf 16 digits * oneUnits := by
  have positive := Nat.two_pow_pos exponent
  induction digits using List.reverseRecOn generalizing exponent with
  | nil =>
      have none : ¬ 2 ^ (exponent + 54) ≤ 0 := Nat.not_le.2 (Nat.two_pow_pos _)
      refine iff_of_false none ?_
      rw [show numberOf 16 [] = 0 from rfl, Nat.zero_mul]
      omega
  | append_singleton digits u ih =>
      have earlier {exponent : Nat} (le : exponent ≤ topExponent) :=
        ih (fun v member => hex v (List.mem_append_left _ member)) le (Nat.two_pow_pos _)
      rw [accumulate_concat, numberOf_concat]
      by_cases small : numberOf 16 digits < 2 ^ 53
      · rw [accumulate_exact (by decide) small, appendDigit_nearest small, atLeast_nearest Nat.one_pos le,
          Nat.mul_one]
      have large := atLeast_accumulate (by decide) (Nat.not_lt.1 small)
      cases accumulated : accumulate 16 digits with
      | finite units double =>
          rw [accumulated] at large earlier
          rw [appendDigit, atLeast_nearest Nat.one_pos le, Nat.mul_one]
          by_cases low : exponent ≤ halfExponent + 4
          · exact le_appendDigit_iff_of_low low large (Nat.not_lt.1 small)
          · obtain ⟨lower, rfl⟩ : ∃ lower, exponent = lower + 4 := ⟨exponent - 4, by omega⟩
            exact le_appendDigit_iff double (CodeUnit.digitValue_lt (hex u (by simp))) (by omega)
              (earlier (by omega))
      | infinite =>
          refine iff_of_true True.intro ?_
          rw [accumulated] at earlier
          have top := (earlier (Nat.le_refl _)).1 True.intro
          calc
            (2 ^ 54 - 1) * 2 ^ exponent ≤ (2 ^ 54 - 1) * 2 ^ topExponent :=
              Nat.mul_le_mul_left _ (Nat.pow_le_pow_right (by decide) le)
            _ ≤ numberOf 16 digits * oneUnits := top
            _ ≤ (numberOf 16 digits * 16 + u.digitValue) * oneUnits :=
              Nat.mul_le_mul_right _ (by omega)
      | notANumber =>
          rw [accumulated] at large
          exact large.elim

theorem accumulate_eq_infinite_iff (hex : ∀ u ∈ digits, u.isHexDigit = true) :
    accumulate 16 digits = .infinite ↔ (2 ^ 54 - 1) * 2 ^ topExponent ≤ numberOf 16 digits * oneUnits := by
  rw [← atLeast_top_iff, atLeast_accumulate_iff hex (Nat.le_refl _)]

end Accumulate

end LuaTokens.Binary64
