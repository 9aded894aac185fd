import LuaTokens.Proofs.Number.Accumulation

/-! # Zero, infinity and what is not a number

Rounding never makes anything but a number. What is not one comes out of a sum or a product only
if it went in, or where zero meets infinity in a product.
-/

namespace LuaTokens.Binary64

-- Powers of natural numbers are those of the core library, also beside other monoids.
attribute [local instance (high)] instPowNat

attribute [local irreducible] oneUnits

section Nearest

variable {num den units : Nat}

theorem finite_eq_zero_iff {isDouble : IsDouble units} : Binary64.finite units isDouble = zero ↔ units = 0 := by
  rw [zero, Binary64.finite.injEq]

theorem nearest_ne_notANumber (num den : Nat) : nearest num den ≠ .notANumber := by
  unfold nearest
  split <;> exact Binary64.noConfusion

theorem nearest_eq_infinite_iff (pos : 0 < den) :
    nearest num den = .infinite ↔ (2 ^ 54 - 1) * (2 ^ topExponent * den) ≤ num := by
  rw [← atLeast_top_iff, atLeast_nearest pos (Nat.le_refl _)]

theorem nearest_ne_zero (pos : 0 < den) (le : den ≤ num) : nearest num den ≠ zero := by
  by_cases double : IsDouble (nearestUnits num den)
  · rw [nearest_of_isDouble double, Ne, finite_eq_zero_iff]
    have quotient : num / den ≠ 0 := (Nat.div_pos le pos).ne'
    exact ((Nat.two_pow_pos _).trans_le (two_pow_log2_le_nearestUnits pos quotient)).ne'
  · rw [nearest_of_not_isDouble double]
    exact Binary64.noConfusion

theorem nearest_zero (pos : 0 < den) : nearest 0 den = zero := by
  have exactly := nearest_mul_den pos isDouble_zero
  rwa [Nat.zero_mul] at exactly

theorem nearest_one_eq_zero_iff : nearest num 1 = zero ↔ num = 0 := by
  constructor
  · intro same
    by_contra nonzero
    exact nearest_ne_zero Nat.one_pos (Nat.pos_of_ne_zero nonzero) same
  · rintro rfl
    exact nearest_zero Nat.one_pos

end Nearest

section Operations

variable {x y : Binary64} {e : Int}

theorem add_eq_notANumber_iff : x.add y = .notANumber ↔ x = .notANumber ∨ y = .notANumber := by
  cases x <;> cases y <;> simp [add, nearest_ne_notANumber]

theorem add_eq_zero_iff : x.add y = zero ↔ x = zero ∧ y = zero := by
  cases x with
  | finite a =>
      cases y with
      | finite b =>
          rw [add, nearest_one_eq_zero_iff, finite_eq_zero_iff, finite_eq_zero_iff]
          exact Nat.add_eq_zero_iff
      | infinite | notANumber => exact iff_of_false Binary64.noConfusion fun both => Binary64.noConfusion both.2
  | infinite | notANumber =>
      refine iff_of_false ?_ fun both => Binary64.noConfusion both.1
      cases y <;> exact Binary64.noConfusion

theorem mul_eq_notANumber_iff : x.mul y = .notANumber
    ↔ x = .notANumber ∨ y = .notANumber ∨ (x = zero ∧ y = .infinite) ∨ (x = .infinite ∧ y = zero) := by
  cases x <;> cases y <;> simp [mul, nearest_ne_notANumber, zero]

theorem div_of_ne_zero {a b : Nat} {isDouble : IsDouble a} {isDouble' : IsDouble b} (divisor : b ≠ 0) :
    (Binary64.finite a isDouble).div (.finite b isDouble') = nearest (a * oneUnits) b :=
  if_pos divisor

theorem powerOfTwo_ne_notANumber (e : Int) : powerOfTwo e ≠ .notANumber := by
  unfold powerOfTwo
  split
  · exact Binary64.noConfusion
  · split <;> exact Binary64.noConfusion

theorem powerOfTwo_eq_infinite_iff : powerOfTwo e = .infinite ↔ 1024 ≤ e := by
  unfold powerOfTwo
  split
  · exact iff_of_false Binary64.noConfusion (by omega)
  · split
    · exact iff_of_false Binary64.noConfusion (by omega)
    · exact iff_of_true rfl (by omega)

theorem powerOfTwo_eq_zero_iff : powerOfTwo e = zero ↔ e < -1074 := by
  unfold powerOfTwo
  split
  next small => exact iff_of_true rfl small
  next large =>
    refine iff_of_false ?_ large
    split
    · rw [finite_eq_zero_iff]
      exact (Nat.two_pow_pos _).ne'
    · exact Binary64.noConfusion

theorem ofDecimal_ne_notANumber (d : Decimal) : ofDecimal d ≠ .notANumber := by
  unfold ofDecimal
  split
  · exact Binary64.noConfusion
  split
  · split
    · exact Binary64.noConfusion
    · exact nearest_ne_notANumber _ _
  · split
    · exact Binary64.noConfusion
    · exact nearest_ne_notANumber _ _

end Operations

end LuaTokens.Binary64
