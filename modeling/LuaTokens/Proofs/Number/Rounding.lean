import LuaTokens.Number.Binary64
import Mathlib.Algebra.Order.Field.Basic
import Mathlib.Data.Nat.Dist
import Mathlib.Data.Rat.Cast.Order
import Mathlib.Tactic.FieldSimp
import Mathlib.Tactic.Linarith
import Mathlib.Tactic.Positivity
import Mathlib.Tactic.Ring

/-! # Rounding to nearest

What it means that a double is the nearest one to a rational number, with halves to even
and with numbers out of range to infinity, and that the rounding of doubles does that. All
distances are compared as natural numbers, scaled by the denominator.
-/

namespace LuaTokens.Binary64

-- Powers of natural numbers are those of the core library, also beside other monoids.
attribute [local instance (high)] instPowNat

section HalfEven

variable {num den k : Nat}

theorem roundHalfEven_cases (num den : Nat) :
    (roundHalfEven num den = num / den ∧ 2 * (num % den) ≤ den
        ∧ (2 * (num % den) = den → num / den % 2 = 0))
      ∨ (roundHalfEven num den = num / den + 1 ∧ den ≤ 2 * (num % den)
        ∧ (2 * (num % den) = den → num / den % 2 = 1)) := by
  unfold roundHalfEven
  simp only [Bool.or_eq_true, Bool.and_eq_true, decide_eq_true_eq, beq_iff_eq]
  split <;> omega

theorem mul_cases (k quotient den : Nat) :
    k * den + den ≤ quotient * den ∨ k = quotient ∨ k = quotient + 1
      ∨ quotient * den + 2 * den ≤ k * den := by
  rcases Nat.lt_trichotomy k quotient with less | rfl | more
  · have := Nat.mul_le_mul_right den (Nat.succ_le_of_lt less)
    rw [Nat.succ_mul] at this
    exact .inl this
  · exact .inr (.inl rfl)
  · rcases Nat.eq_or_lt_of_le (Nat.succ_le_of_lt more) with next | further
    · exact .inr (.inr (.inl next.symm))
    · have := Nat.mul_le_mul_right den (Nat.succ_le_of_lt further)
      rw [Nat.succ_mul, Nat.succ_mul] at this
      omega

theorem dist_roundHalfEven_le (pos : 0 < den) (k : Nat) :
    Nat.dist (roundHalfEven num den * den) num ≤ Nat.dist (k * den) num := by
  have divided := Nat.div_add_mod' num den
  have small := Nat.mod_lt num pos
  have next : (num / den + 1) * den = num / den * den + den := Nat.succ_mul _ _
  unfold Nat.dist
  rcases roundHalfEven_cases num den with ⟨same, half, -⟩ | ⟨same, half, -⟩ <;>
    rcases mul_cases k (num / den) den with below | rfl | rfl | above <;> rw [same] <;> omega

theorem even_roundHalfEven (pos : 0 < den) (other : k ≠ roundHalfEven num den)
    (tie : Nat.dist (k * den) num = Nat.dist (roundHalfEven num den * den) num) :
    roundHalfEven num den % 2 = 0 := by
  have divided := Nat.div_add_mod' num den
  have small := Nat.mod_lt num pos
  have next : (num / den + 1) * den = num / den * den + den := Nat.succ_mul _ _
  unfold Nat.dist at tie
  rcases roundHalfEven_cases num den with ⟨same, half, even⟩ | ⟨same, half, odd⟩ <;>
    rcases mul_cases k (num / den) den with below | rfl | rfl | above <;>
    rw [same] at other tie ⊢ <;> omega

theorem le_roundHalfEven_iff (pos : 0 < den) (even : k % 2 = 0) :
    k ≤ roundHalfEven num den ↔ 2 * (k * den) ≤ 2 * num + den := by
  have divided := Nat.div_add_mod' num den
  have small := Nat.mod_lt num pos
  have next : (num / den + 1) * den = num / den * den + den := Nat.succ_mul _ _
  have below_iff : k * den ≤ num / den * den ↔ k ≤ num / den := Nat.mul_le_mul_right_iff pos
  have next_iff : k * den ≤ (num / den + 1) * den ↔ k ≤ num / den + 1 := Nat.mul_le_mul_right_iff pos
  rcases roundHalfEven_cases num den with ⟨same, half, tie⟩ | ⟨same, half, tie⟩ <;>
    rcases mul_cases k (num / den) den with below | rfl | rfl | above <;> rw [same] <;> omega

end HalfEven

section Spacing

variable {units other exponent : Nat}

theorem spacing_pos (units : Nat) : 0 < spacing units :=
  Nat.two_pow_pos _

theorem spacing_eq (units : Nat) : spacing units = 1 ∨ 2 ^ 52 * spacing units = 2 ^ units.log2 := by
  unfold spacing
  by_cases small : units.log2 ≤ 52
  · left
    rw [Nat.sub_eq_zero_of_le small, Nat.pow_zero]
  · right
    rw [← Nat.pow_add, Nat.add_sub_cancel' (by omega)]

theorem log2_eq (low : 2 ^ exponent ≤ units) (high : units < 2 ^ (exponent + 1)) :
    units.log2 = exponent :=
  (Nat.log2_eq_iff (by have := Nat.two_pow_pos exponent; omega)).2 ⟨low, high⟩

/-- A double lies on the grid of any spacing, or below all numbers with that spacing. -/
theorem IsDouble.dvd_or_lt (double : IsDouble other) (units : Nat) :
    spacing units ∣ other ∨ spacing units ≠ 1 ∧ other < 2 ^ 52 * spacing units := by
  by_cases le : units.log2 ≤ other.log2
  · left
    exact Nat.dvd_trans (Nat.pow_dvd_pow 2 (by omega)) double.2
  · rcases spacing_eq units with one | wide
    · left
      rw [one]
      exact Nat.one_dvd _
    · by_cases one : spacing units = 1
      · left
        rw [one]
        exact Nat.one_dvd _
      · right
        refine ⟨one, ?_⟩
        rw [wide]
        calc
          other < 2 ^ (other.log2 + 1) := Nat.lt_log2_self
          _ ≤ 2 ^ units.log2 := Nat.pow_le_pow_right (by decide) (by omega)

theorem IsDouble.add_spacing_le (double : IsDouble units) (lt : units < 2 ^ (exponent + 54)) :
    units + 2 ^ (exponent + 1) ≤ 2 ^ (exponent + 54) := by
  have halves : 2 ^ (exponent + 54) = 2 ^ (exponent + 53) + 2 ^ (exponent + 53) := by
    rw [Nat.pow_succ]
    omega
  by_cases low : units < 2 ^ (exponent + 53)
  · have : 2 ^ (exponent + 1) ≤ 2 ^ (exponent + 53) := Nat.pow_le_pow_right (by decide) (by omega)
    omega
  · have log : units.log2 = exponent + 53 := log2_eq (by omega) lt
    have grid : 2 ^ (exponent + 1) ∣ units := by
      have := double.2
      rwa [spacing, log, show exponent + 53 - 52 = exponent + 1 by omega] at this
    have power : 2 ^ (exponent + 1) ∣ 2 ^ (exponent + 54) := Nat.pow_dvd_pow 2 (by omega)
    have gap := Nat.le_of_dvd (by omega) (Nat.dvd_sub power grid)
    omega

end Spacing

section Nearest

variable {num den other : Nat}

theorem nearestUnits_mul (num den : Nat) : nearestUnits num den * den
    = roundHalfEven num (den * spacing (num / den)) * (den * spacing (num / den)) := by
  unfold nearestUnits
  ring

theorem le_num_of_spacing (wide : spacing (num / den) ≠ 1) :
    2 ^ 52 * (den * spacing (num / den)) ≤ num := by
  have positive : num / den ≠ 0 := by
    intro zero
    rw [zero] at wide
    exact wide rfl
  have power := (spacing_eq (num / den)).resolve_left wide
  calc
    2 ^ 52 * (den * spacing (num / den)) = den * (2 ^ 52 * spacing (num / den)) := by ring
    _ = den * 2 ^ (num / den).log2 := by rw [power]
    _ ≤ den * (num / den) := Nat.mul_le_mul_left den (Nat.log2_self_le positive)
    _ ≤ num := Nat.mul_div_le num den

theorem dist_lt_of_off_grid (pos : 0 < den) (wide : spacing (num / den) ≠ 1)
    (lt : other < 2 ^ 52 * spacing (num / den)) :
    Nat.dist (nearestUnits num den * den) num < Nat.dist (other * den) num := by
  have grid : 0 < den * spacing (num / den) := Nat.mul_pos pos (spacing_pos _)
  have nearest : Nat.dist (roundHalfEven num _ * _) num ≤ _ := dist_roundHalfEven_le grid (2 ^ 52)
  have least := le_num_of_spacing wide
  have below : other * den < 2 ^ 52 * (den * spacing (num / den)) := by
    have := Nat.mul_lt_mul_of_pos_right lt pos
    rwa [Nat.mul_assoc, Nat.mul_comm (spacing _) den] at this
  rw [nearestUnits_mul]
  unfold Nat.dist at nearest ⊢
  omega

theorem dist_nearestUnits_le (pos : 0 < den) (double : IsDouble other) :
    Nat.dist (nearestUnits num den * den) num ≤ Nat.dist (other * den) num := by
  rcases double.dvd_or_lt (num / den) with ⟨k, rfl⟩ | ⟨wide, lt⟩
  · rw [nearestUnits_mul, Nat.mul_comm (spacing _) k, Nat.mul_assoc, Nat.mul_comm (spacing _) den]
    exact dist_roundHalfEven_le (Nat.mul_pos pos (spacing_pos _)) k
  · exact (dist_lt_of_off_grid pos wide lt).le

theorem nearestUnits_eq (num den : Nat) :
    ∃ k, nearestUnits num den = k * spacing (num / den) ∧ k ≤ 2 ^ 53
      ∧ (spacing (num / den) ≠ 1 → 0 < den → 2 ^ 52 ≤ k)
      ∧ k = roundHalfEven num (den * spacing (num / den)) := by
  refine ⟨_, rfl, ?_, ?_, rfl⟩
  · have rounded := roundHalfEven_le num (den * spacing (num / den))
    have bound := div_spacing_lt (num / den)
    rw [Nat.div_div_eq_div_mul] at bound
    omega
  · intro wide pos
    rw [le_roundHalfEven_iff (Nat.mul_pos pos (spacing_pos _)) (by decide)]
    have := le_num_of_spacing wide
    omega

theorem spacing_mul {significand exponent : Nat} (small : significand < 2 ^ 53)
    (normal : exponent = 0 ∨ 2 ^ 52 ≤ significand) :
    spacing (significand * 2 ^ exponent) = 2 ^ exponent := by
  rcases normal with rfl | normal
  · rw [Nat.pow_zero, Nat.mul_one]
    rcases Nat.eq_zero_or_pos significand with rfl | positive
    · rfl
    · have := (Nat.log2_lt (by omega)).2 small
      rw [spacing, Nat.sub_eq_zero_of_le (by omega), Nat.pow_zero]
  · have log : (significand * 2 ^ exponent).log2 = exponent + 52 := by
      apply log2_eq
      · rw [Nat.pow_add, Nat.mul_comm]
        exact Nat.mul_le_mul_right _ normal
      · rw [Nat.add_assoc, Nat.pow_add, Nat.mul_comm]
        exact Nat.mul_lt_mul_of_pos_left small (Nat.two_pow_pos _)
    rw [spacing, log, Nat.add_sub_cancel]

/-- An even significand stays even where all 53 bits round up to a power of two. -/
theorem even_significand {k units : Nat} (le : k ≤ 2 ^ 53) (normal : spacing units ≠ 1 → 2 ^ 52 ≤ k)
    (even : k % 2 = 0) : k * spacing units / spacing (k * spacing units) % 2 = 0 := by
  rcases Nat.lt_or_eq_of_le le with less | rfl
  · have same : spacing (k * spacing units) = spacing units := by
      refine spacing_mul less ?_
      by_cases one : spacing units = 1
      · left
        by_contra nonzero
        have : 1 < spacing units := Nat.one_lt_two_pow nonzero
        omega
      · exact .inr (normal one)
    rw [same, Nat.mul_div_cancel _ (spacing_pos units)]
    exact even
  · have doubled : 2 ^ 53 * spacing units = 2 ^ 52 * 2 ^ (units.log2 - 52 + 1) := by
      rw [spacing, ← Nat.pow_add, ← Nat.pow_add]
      congr 1
      omega
    have half : 2 ^ 52 * 2 ^ (units.log2 - 52 + 1) / 2 ^ (units.log2 - 52 + 1) = 2 ^ 52 :=
      Nat.mul_div_cancel _ (Nat.two_pow_pos _)
    rw [doubled, spacing_mul (by decide) (.inr (Nat.le_refl _)), half]
    decide

theorem even_nearestUnits (pos : 0 < den) (double : IsDouble other)
    (differs : other ≠ nearestUnits num den)
    (tie : Nat.dist (other * den) num = Nat.dist (nearestUnits num den * den) num) :
    nearestUnits num den / spacing (nearestUnits num den) % 2 = 0 := by
  obtain ⟨k, units, le, normal, rounded⟩ := nearestUnits_eq num den
  rw [units]
  apply even_significand le fun wide => normal wide pos
  rcases double.dvd_or_lt (num / den) with ⟨j, rfl⟩ | ⟨wide, lt⟩
  · rw [nearestUnits_mul, Nat.mul_comm (spacing _) j, Nat.mul_assoc, Nat.mul_comm (spacing _) den] at tie
    rw [rounded]
    refine even_roundHalfEven (Nat.mul_pos pos (spacing_pos _)) ?_ tie
    rintro rfl
    apply differs
    rw [units, rounded, Nat.mul_comm]
  · exact absurd tie (dist_lt_of_off_grid pos wide lt).ne'

/-- A power of two above the spacing is an even number of spacings, so it is reached from half a
    spacing below it. -/
theorem le_nearestUnits_iff (pos : 0 < den) {exponent : Nat} (above : (num / den).log2 - 52 < exponent) :
    2 ^ exponent ≤ nearestUnits num den
      ↔ 2 * (2 ^ exponent * den) ≤ 2 * num + den * spacing (num / den) := by
  obtain ⟨rest, same⟩ : ∃ rest, exponent = rest + 1 + ((num / den).log2 - 52) :=
    ⟨exponent - ((num / den).log2 - 52) - 1, by omega⟩
  have power : 2 ^ exponent = 2 ^ (rest + 1) * spacing (num / den) := by
    rw [spacing, ← Nat.pow_add, ← same]
  have even : 2 ^ (rest + 1) % 2 = 0 := by
    rw [Nat.pow_succ]
    omega
  have scaled : 2 ^ exponent * den = 2 ^ (rest + 1) * (den * spacing (num / den)) := by
    rw [power]
    ring
  rw [scaled, ← le_roundHalfEven_iff (Nat.mul_pos pos (spacing_pos _)) even, power]
  exact Nat.mul_le_mul_right_iff (spacing_pos _)

theorem two_pow_log2_le_nearestUnits (pos : 0 < den) (nonzero : num / den ≠ 0) :
    2 ^ (num / den).log2 ≤ nearestUnits num den := by
  have low : 2 ^ (num / den).log2 * den ≤ num :=
    (Nat.le_div_iff_mul_le pos).1 (Nat.log2_self_le nonzero)
  by_cases one : (num / den).log2 = 0
  · have unit : spacing (num / den) = 1 := by simp only [spacing, one, Nat.zero_sub, Nat.pow_zero]
    have quotient : 1 ≤ num / den := Nat.pos_of_ne_zero nonzero
    rw [one, nearestUnits, unit, Nat.mul_one, Nat.mul_one, Nat.pow_zero]
    rcases roundHalfEven_cases num den with ⟨same, -⟩ | ⟨same, -⟩
    · rwa [same]
    · rw [same]
      exact Nat.le_add_left 1 _
  · rw [le_nearestUnits_iff pos (by omega)]
    omega

theorem two_pow_le_nearestUnits_iff (pos : 0 < den) (exponent : Nat) :
    2 ^ (exponent + 54) ≤ nearestUnits num den ↔ (2 ^ 54 - 1) * (2 ^ exponent * den) ≤ num := by
  have positive : 0 < 2 ^ exponent * den := Nat.mul_pos (Nat.two_pow_pos _) pos
  have scaled (width : Nat) : 2 ^ (exponent + width) * den = 2 ^ width * (2 ^ exponent * den) := by
    rw [Nat.pow_add]
    ring
  by_cases large : exponent + 54 ≤ (num / den).log2
  · have nonzero : num / den ≠ 0 := by
      intro zero
      rw [zero, Nat.log2_zero] at large
      omega
    have power : 2 ^ (exponent + 54) ≤ 2 ^ (num / den).log2 := Nat.pow_le_pow_right (by decide) large
    have reached : 2 ^ (exponent + 54) * den ≤ num :=
      (Nat.le_div_iff_mul_le pos).1 (power.trans (Nat.log2_self_le nonzero))
    rw [scaled] at reached
    exact ⟨fun _ => by omega, fun _ => power.trans (two_pow_log2_le_nearestUnits pos nonzero)⟩
  · rw [le_nearestUnits_iff pos (by omega), scaled]
    by_cases last : (num / den).log2 = exponent + 53
    · have spaced : den * spacing (num / den) = 2 * (2 ^ exponent * den) := by
        rw [spacing, last, show exponent + 53 - 52 = exponent + 1 by omega, Nat.pow_succ]
        ring
      omega
    · have high : num < 2 ^ (exponent + 53) * den := by
        rw [← Nat.div_lt_iff_lt_mul pos]
        exact Nat.lt_log2_self.trans_le (Nat.pow_le_pow_right (by decide) (by omega))
      have spaced : den * spacing (num / den) ≤ 2 ^ exponent * den := by
        rw [Nat.mul_comm]
        exact Nat.mul_le_mul_right den (Nat.pow_le_pow_right (by decide) (by omega))
      rw [scaled] at high
      omega

end Nearest

/-- The last binade has a spacing of two to this power and one more, so half of it is a power too. -/
def topExponent : Nat := 2044

/-- The number that so many units are. -/
def ofUnits (units : Nat) : ℚ :=
  units / 2 ^ 1074

/-- From here on numbers are out of range: halfway between the largest double and `2 ^ 1024`. -/
def overflowBound : ℚ :=
  2 ^ 1024 - 2 ^ 970

/-- The double is the one nearest to `q`, and of two equally near ones that with the even
    significand. Out of range it is infinite. -/
inductive RoundsTo (q : ℚ) : Binary64 → Prop where
  | finite {units : Nat} (isDouble : IsDouble units) (inRange : q < overflowBound)
      (nearest : ∀ other, IsDouble other → |ofUnits units - q| ≤ |ofUnits other - q|)
      (even : ∀ other, IsDouble other → other ≠ units → |ofUnits other - q| = |ofUnits units - q| →
        units / spacing units % 2 = 0) :
      RoundsTo q (.finite units isDouble)
  | infinite (outOfRange : overflowBound ≤ q) : RoundsTo q .infinite

section RoundsTo

variable {num den units : Nat}

theorem isDouble_iff : IsDouble units ↔ units < 2 ^ (topExponent + 54) ∧ spacing units ∣ units := by
  unfold IsDouble
  refine and_congr_left fun _ => ?_
  have power := Nat.two_pow_pos (topExponent + 54)
  rcases Nat.eq_zero_or_pos units with rfl | positive
  · exact iff_of_true (by rw [Nat.log2_zero]; decide) power
  · change units.log2 < topExponent + 54 ↔ _
    exact Nat.log2_lt (by omega)

theorem isDouble_nearestUnits (num den : Nat) :
    IsDouble (nearestUnits num den) ↔ nearestUnits num den < 2 ^ (topExponent + 54) := by
  rw [isDouble_iff, and_iff_left (spacing_dvd_nearestUnits num den)]

theorem nearest_of_isDouble (double : IsDouble (nearestUnits num den)) :
    nearest num den = .finite (nearestUnits num den) double :=
  dif_pos double.1

theorem nearest_of_not_isDouble (huge : ¬ IsDouble (nearestUnits num den)) : nearest num den = .infinite :=
  dif_neg fun small => huge ⟨small, spacing_dvd_nearestUnits num den⟩

theorem cast_dist (m n : Nat) : (Nat.dist m n : ℚ) = |(m : ℚ) - n| := by
  rcases Nat.le_total m n with le | le
  · rw [Nat.dist_eq_sub_of_le le, Nat.cast_sub le, abs_sub_comm, abs_of_nonneg]
    exact sub_nonneg.2 (Nat.cast_le.2 le)
  · rw [Nat.dist_eq_sub_of_le_right le, Nat.cast_sub le, abs_of_nonneg]
    exact sub_nonneg.2 (Nat.cast_le.2 le)

theorem abs_ofUnits_sub (pos : 0 < den) (units : Nat) :
    |ofUnits units - (num : ℚ) / den / 2 ^ 1074|
      = (Nat.dist (units * den) num : ℚ) / (den * 2 ^ 1074) := by
  have denominator : (0 : ℚ) < den := Nat.cast_pos.2 pos
  have scale : (0 : ℚ) < 2 ^ 1074 := by positivity
  rw [cast_dist, ofUnits]
  generalize (2 : ℚ) ^ 1074 = unit at scale
  have joined : (units : ℚ) / unit - num / den / unit = (units * den - num) / (den * unit) := by
    field_simp
  rw [joined, abs_div, abs_of_pos (mul_pos denominator scale), Nat.cast_mul]

theorem mul_le_div_iff (pos : 0 < den) (count : Nat) :
    (count : ℚ) * 2 ^ 970 ≤ (num : ℚ) / den / 2 ^ 1074 ↔ count * (2 ^ topExponent * den) ≤ num := by
  have denominator : (0 : ℚ) < den := Nat.cast_pos.2 pos
  have scale : (0 : ℚ) < 2 ^ 1074 := by positivity
  have bound : (count : ℚ) * 2 ^ 970 * 2 ^ 1074 * den = (count * (2 ^ topExponent * den) : Nat) := by
    have power : (2 : ℚ) ^ topExponent = 2 ^ 970 * 2 ^ 1074 := by
      rw [show topExponent = 970 + 1074 from rfl, pow_add]
    rw [Nat.cast_mul, Nat.cast_mul, Nat.cast_pow, Nat.cast_ofNat, power]
    generalize (2 : ℚ) ^ 970 = p, (2 : ℚ) ^ 1074 = q
    ring
  rw [le_div_iff₀ scale, le_div_iff₀ denominator, bound, Nat.cast_le]

theorem two_pow_eq_mul : (2 : ℚ) ^ 1024 = (2 ^ 54 : Nat) * 2 ^ 970 := by
  rw [show 1024 = 54 + 970 from rfl, pow_add, Nat.cast_pow, Nat.cast_ofNat]

theorem overflowBound_eq_mul : overflowBound = (2 ^ 54 - 1 : Nat) * 2 ^ 970 := by
  rw [overflowBound, two_pow_eq_mul, Nat.cast_sub (by decide), Nat.cast_one]
  generalize (2 : ℚ) ^ 970 = p
  ring

theorem overflowBound_le_iff (pos : 0 < den) :
    overflowBound ≤ (num : ℚ) / den / 2 ^ 1074 ↔ (2 ^ 54 - 1) * (2 ^ topExponent * den) ≤ num := by
  rw [overflowBound_eq_mul, mul_le_div_iff pos]

theorem roundsTo_nearest (pos : 0 < den) : RoundsTo ((num : ℚ) / den / 2 ^ 1074) (nearest num den) := by
  have positive : (0 : ℚ) < den * 2 ^ 1074 := mul_pos (Nat.cast_pos.2 pos) (by positivity)
  by_cases double : IsDouble (nearestUnits num den)
  · rw [nearest_of_isDouble double]
    refine .finite double ?_ (fun other isDouble => ?_) fun other isDouble differs tie => ?_
    · rw [← not_le, overflowBound_le_iff pos, ← two_pow_le_nearestUnits_iff pos, Nat.not_le]
      exact (isDouble_nearestUnits num den).1 double
    · rw [abs_ofUnits_sub pos, abs_ofUnits_sub pos, div_le_div_iff_of_pos_right positive, Nat.cast_le]
      exact dist_nearestUnits_le pos isDouble
    · rw [abs_ofUnits_sub pos, abs_ofUnits_sub pos, div_left_inj' positive.ne', Nat.cast_inj] at tie
      exact even_nearestUnits pos isDouble differs tie
  · rw [nearest_of_not_isDouble double]
    refine .infinite ?_
    rw [overflowBound_le_iff pos, ← two_pow_le_nearestUnits_iff pos, ← Nat.not_lt,
      ← isDouble_nearestUnits]
    exact double

theorem RoundsTo.eq_finite {x : Binary64} (double : IsDouble units) (h : RoundsTo (ofUnits units) x) :
    x = .finite units double := by
  have scale : (0 : ℚ) < 2 ^ 1074 := by positivity
  cases h with
  | @finite nearest isDouble _ near _ =>
      have zero := near units double
      rw [sub_self, abs_zero, abs_nonpos_iff, sub_eq_zero, ofUnits, ofUnits, div_left_inj' scale.ne',
        Nat.cast_inj] at zero
      subst zero
      rfl
  | infinite outOfRange =>
      have reached : (2 ^ 54 - 1) * 2 ^ topExponent ≤ units := by
        have bound : overflowBound ≤ (units : ℚ) / (1 : ℕ) / 2 ^ 1074 ↔ _ := overflowBound_le_iff Nat.one_pos
        rw [Nat.cast_one, div_one, Nat.mul_one] at bound
        exact bound.1 outOfRange
      have gap := double.add_spacing_le (isDouble_iff.1 double).1
      rw [Nat.pow_add 2 topExponent 54, Nat.pow_add 2 topExponent 1] at gap
      have := Nat.two_pow_pos topExponent
      generalize 2 ^ topExponent = p at *
      omega

theorem RoundsTo.eq_infinite_iff {q : ℚ} {x : Binary64} (h : RoundsTo q x) :
    x = .infinite ↔ overflowBound ≤ q := by
  cases h with
  | finite _ inRange => exact iff_of_false Binary64.noConfusion (not_le.2 inRange)
  | infinite outOfRange => exact iff_of_true rfl outOfRange

end RoundsTo

end LuaTokens.Binary64
