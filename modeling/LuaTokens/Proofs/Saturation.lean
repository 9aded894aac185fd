import LuaTokens.Proofs.HexadecimalValue
import LuaTokens.Proofs.Spelling

/-! # Numerals that are not numbers

Digits and powers saturate at infinity, and each alone is harmless. But infinity is divided by
infinity where a fraction is out of range, and zero and infinity are multiplied where the
significand and the power saturate to opposite sides. These numerals, all hexadecimal, and no
others have a value that is not a number.
-/

namespace LuaTokens

-- Powers of natural numbers are those of the core library, also beside other monoids.
attribute [local instance (high)] instPowNat

attribute [local irreducible] Binary64.oneUnits

namespace Binary64

open CodeUnit (numberOf)

section Accumulate

variable {base : Nat} {digits : List CodeUnit}

theorem accumulate_ne_notANumber (pos : 0 < base) (digits : List CodeUnit) :
    accumulate base digits ≠ .notANumber := by
  by_cases small : numberOf base digits < 2 ^ 53
  · rw [accumulate_exact pos small]
    exact nearest_ne_notANumber _ _
  · intro same
    have large := atLeast_accumulate pos (Nat.not_lt.1 small)
    rw [same] at large
    exact large

theorem accumulate_eq_zero_iff (pos : 0 < base) : accumulate base digits = zero ↔ numberOf base digits = 0 := by
  by_cases small : numberOf base digits < 2 ^ 53
  · rw [accumulate_exact pos small, nearest_one_eq_zero_iff, Nat.mul_eq_zero, or_iff_left oneUnits_pos.ne']
  · refine iff_of_false (fun same => ?_) (by omega)
    have large := atLeast_accumulate pos (Nat.not_lt.1 small)
    rw [same] at large
    exact absurd large (Nat.not_le.2 (Nat.two_pow_pos _))

theorem le_units_of_accumulate {units : Nat} {isDouble : IsDouble units} (pos : 0 < base)
    (same : accumulate base digits = .finite units isDouble) (nonzero : numberOf base digits ≠ 0) :
    oneUnits ≤ units := by
  by_cases small : numberOf base digits < 2 ^ 53
  · rw [accumulate_exact pos small, nearest_natural small] at same
    cases same
    exact Nat.le_mul_of_pos_left _ (Nat.pos_of_ne_zero nonzero)
  · refine Nat.le_trans ?_ (le_units_of_atLeast (atLeast_accumulate pos (Nat.not_lt.1 small)) same)
    rw [oneUnits_eq]
    exact Nat.pow_le_pow_right (by decide) (by omega)

theorem overflowBound_le_natural_iff (n : Nat) :
    overflowBound ≤ (n : ℚ) ↔ (2 ^ 54 - 1) * 2 ^ topExponent ≤ n * oneUnits := by
  have bits : (0 : ℚ) < 2 ^ 1074 := by positivity
  have unit : (oneUnits : ℚ) = 2 ^ 1074 := by
    rw [oneUnits_eq, Nat.cast_pow, Nat.cast_ofNat]
    rfl
  have natural : (n : ℚ) = ((n * oneUnits : Nat) : ℚ) / (1 : Nat) / 2 ^ 1074 := by
    rw [Nat.cast_mul, unit, Nat.cast_one, div_one, mul_div_cancel_right₀ _ bits.ne']
  rw [natural, overflowBound_le_iff Nat.one_pos, Nat.mul_one]

end Accumulate

end Binary64

namespace Numeral

open Binary64 CodeUnit

/-- The units of the power by which the digits of a fraction are divided. -/
def scaleUnits (digits : List CodeUnit) : Nat :=
  2 ^ (4 * digits.length + (halfExponent + 1))

section Scaled

variable {digits : List CodeUnit} {units : Nat}

theorem scaleUnits_pos (digits : List CodeUnit) : 0 < scaleUnits digits :=
  Nat.two_pow_pos _

theorem scaleExponent_lt (short : digits.length ≤ 255) : 4 * digits.length + (halfExponent + 1) < 2098 := by
  simp only [halfExponent]
  omega

theorem isDouble_scaleUnits (short : digits.length ≤ 255) : IsDouble (scaleUnits digits) :=
  isDouble_two_pow (scaleExponent_lt short)

theorem powerOfTwo_of_short (short : digits.length ≤ 255) :
    powerOfTwo (4 * (digits.length : Int)) = .finite (scaleUnits digits) (isDouble_scaleUnits short) := by
  have shifted : 4 * (digits.length : Int) = ((4 * digits.length + (halfExponent + 1) : Nat) : Int) - 1074 := by
    simp only [halfExponent]
    omega
  rw [shifted]
  exact powerOfTwo_eq (scaleExponent_lt short)

theorem scaleUnits_le (short : digits.length ≤ 255) : scaleUnits digits ≤ oneUnits * oneUnits := by
  rw [scaleUnits, oneUnits_eq, ← Nat.pow_add]
  exact Nat.pow_le_pow_right (by decide) (by simp only [halfExponent]; omega)

variable (hex : ∀ u ∈ digits, u.isHexDigit = true)

include hex

theorem numberOf_mul_oneUnits_lt : numberOf 16 digits * oneUnits < scaleUnits digits := by
  rw [scaleUnits, Nat.pow_add, ← oneUnits_eq, Nat.pow_mul]
  exact Nat.mul_lt_mul_of_pos_right (numberOf_lt hex) oneUnits_pos

theorem length_of_infinite (overflows : accumulate 16 digits = .infinite) : 255 < digits.length := by
  by_contra short
  have reached := (accumulate_eq_infinite_iff hex).1 overflows
  have bounded : scaleUnits digits ≤ 2 ^ (topExponent + 53) :=
    Nat.pow_le_pow_right (by decide) (by simp only [halfExponent, topExponent]; omega)
  rw [Nat.pow_add] at bounded
  have small := (numberOf_mul_oneUnits_lt hex).trans_le bounded
  have positive := Nat.two_pow_pos topExponent
  generalize 2 ^ topExponent = p at *
  omega

/-- Rounding carries the digits of a fraction to no more than twice the power by which they are divided. -/
theorem lt_of_accumulate {isDouble : IsDouble units} (short : digits.length ≤ 255)
    (same : accumulate 16 digits = .finite units isDouble) : units < 2 * scaleUnits digits := by
  obtain ⟨e, power, le⟩ : ∃ e, 4 * digits.length + (halfExponent + 1) = e + 53 ∧ e ≤ topExponent := by
    refine ⟨4 * digits.length + (halfExponent + 1) - 53, ?_⟩
    simp only [halfExponent, topExponent]
    omega
  have small := numberOf_mul_oneUnits_lt hex
  have reached := atLeast_accumulate_iff hex le
  rw [same] at reached
  rw [scaleUnits, power] at small ⊢
  rw [← Nat.pow_succ']
  refine Nat.not_le.1 fun atLeast => absurd (reached.1 atLeast) (Nat.not_le.2 (small.trans_le ?_))
  rw [Nat.pow_add]
  omega

/-- A fraction that is divided by a finite power is far below the last spacing of doubles. -/
theorem not_atLeast_quotient {isDouble : IsDouble units} (short : digits.length ≤ 255)
    (same : accumulate 16 digits = .finite units isDouble) :
    ¬ AtLeast topExponent (nearest (units * oneUnits) (scaleUnits digits)) := by
  obtain ⟨low, split, le⟩ : ∃ low, topExponent = low + 54 ∧ halfExponent + 1 ≤ low := ⟨1990, rfl, by decide⟩
  rw [split, atLeast_nearest (scaleUnits_pos digits) (split ▸ Nat.le_add_right low 54), Nat.not_le]
  have one : oneUnits ≤ 2 ^ low := by
    rw [oneUnits_eq]
    exact Nat.pow_le_pow_right (by decide) le
  have bounded := Nat.mul_lt_mul_of_pos_right (lt_of_accumulate hex short same) oneUnits_pos
  have scale := Nat.mul_le_mul_right (scaleUnits digits) one
  rw [Nat.mul_assoc, Nat.mul_comm (scaleUnits digits)] at bounded
  generalize 2 ^ low * scaleUnits digits = p at *
  generalize oneUnits * scaleUnits digits = q at *
  omega

end Scaled

/-- What becomes of a fraction: what overflows is not a number, what is long without overflowing is
    nothing, and all else stays what it is. -/
inductive Scales (digits : List CodeUnit) : Binary64 → Prop where
  | overflow (overflows : accumulate 16 digits = .infinite) : Scales digits .notANumber
  | finite {units : Nat} (isDouble : IsDouble units) (fits : accumulate 16 digits ≠ .infinite)
      (small : units < 2 ^ topExponent) (zero : units = 0 ↔ 255 < digits.length ∨ numberOf 16 digits = 0) :
      Scales digits (.finite units isDouble)

section Scales

variable {digits : List CodeUnit} {units : Nat}

theorem quotient_eq_zero_iff {isDouble : IsDouble units} (short : digits.length ≤ 255)
    (same : accumulate 16 digits = .finite units isDouble) :
    nearest (units * oneUnits) (scaleUnits digits) = zero ↔ numberOf 16 digits = 0 := by
  refine ⟨fun vanishes => ?_, fun none => ?_⟩
  · by_contra nonzero
    have one := le_units_of_accumulate (by decide) same nonzero
    have reached := (scaleUnits_le short).trans (Nat.mul_le_mul_right oneUnits one)
    exact nearest_ne_zero (scaleUnits_pos digits) reached vanishes
  · rw [← accumulate_eq_zero_iff (show 0 < 16 by decide), same, finite_eq_zero_iff] at none
    rw [none, Nat.zero_mul]
    exact nearest_zero (scaleUnits_pos digits)

theorem scales_quotient (hex : ∀ u ∈ digits, u.isHexDigit = true) (short : digits.length ≤ 255)
    {isDouble : IsDouble units} (same : accumulate 16 digits = .finite units isDouble) :
    Scales digits (nearest (units * oneUnits) (scaleUnits digits)) := by
  have fits : accumulate 16 digits ≠ .infinite := by
    rw [same]
    exact Binary64.noConfusion
  have below := not_atLeast_quotient hex short same
  have vanishes := quotient_eq_zero_iff short same
  cases quotient : nearest (units * oneUnits) (scaleUnits digits) with
  | finite result double =>
      rw [quotient] at below vanishes
      refine .finite double fits (Nat.not_le.1 below) ?_
      exact finite_eq_zero_iff.symm.trans (vanishes.trans (or_iff_right (Nat.not_lt.2 short)).symm)
  | infinite =>
      rw [quotient] at below
      exact absurd True.intro below
  | notANumber => exact absurd quotient (nearest_ne_notANumber _ _)

theorem scales (hex : ∀ u ∈ digits, u.isHexDigit = true) : Scales digits (scaled digits) := by
  have number := accumulate_ne_notANumber (show 0 < 16 by decide) digits
  cases digits with
  | nil =>
      refine .finite isDouble_zero Binary64.noConfusion (Nat.two_pow_pos _) ?_
      exact iff_of_true rfl (.inr rfl)
  | cons digit more =>
      have length : 4 * ((more.length : Int) + 1) = 4 * ((digit :: more).length : Int) := by
        rw [List.length_cons, Nat.cast_add, Nat.cast_one]
      rw [scaled, length]
      generalize digit :: more = digits at *
      -- Only with 256 digits or more can the digits overflow, and then their power does too.
      by_cases short : digits.length ≤ 255
      · rw [powerOfTwo_of_short short]
        cases accumulated : accumulate 16 digits with
        | finite units double =>
            rw [div_of_ne_zero (scaleUnits_pos digits).ne']
            exact scales_quotient hex short accumulated
        | infinite => exact absurd (length_of_infinite hex accumulated) (Nat.not_lt.2 short)
        | notANumber => exact absurd accumulated number
      · rw [powerOfTwo_eq_infinite_iff.2 (by omega)]
        cases accumulated : accumulate 16 digits with
        | finite units double =>
            refine .finite isDouble_zero (accumulated ▸ Binary64.noConfusion) (Nat.two_pow_pos _) ?_
            exact iff_of_true rfl (.inl (Nat.not_le.1 short))
        | infinite => exact .overflow accumulated
        | notANumber => exact absurd accumulated number

section Sum

variable {whole x : Binary64} (scales : Scales digits x)

include scales

theorem Scales.eq_notANumber_iff : x = .notANumber ↔ accumulate 16 digits = .infinite := by
  cases scales with
  | overflow overflows => exact iff_of_true rfl overflows
  | finite isDouble fits => exact iff_of_false Binary64.noConfusion fits

theorem Scales.eq_zero_iff : x = zero ↔ accumulate 16 digits ≠ .infinite
    ∧ (255 < digits.length ∨ numberOf 16 digits = 0) := by
  cases scales with
  | overflow overflows => exact iff_of_false Binary64.noConfusion fun vanishes => vanishes.1 overflows
  | finite isDouble fits small vanishes =>
      rw [finite_eq_zero_iff, vanishes]
      exact (and_iff_right fits).symm

theorem Scales.add_eq_infinite_iff :
    whole.add x = .infinite ↔ whole = .infinite ∧ accumulate 16 digits ≠ .infinite := by
  cases scales with
  | overflow overflows =>
      refine iff_of_false (fun same => ?_) fun both => both.2 overflows
      have notANumber : whole.add .notANumber = .notANumber := add_eq_notANumber_iff.2 (.inr rfl)
      exact Binary64.noConfusion (notANumber.symm.trans same)
  | @finite units isDouble fits small =>
      cases whole with
      | finite a double =>
          refine iff_of_false (fun overflows => ?_) fun both => Binary64.noConfusion both.1
          have reached := (nearest_eq_infinite_iff Nat.one_pos).1 overflows
          have gap := double.add_spacing_le (isDouble_iff.1 double).1
          rw [Nat.pow_add 2 topExponent 54, Nat.pow_add 2 topExponent 1] at gap
          generalize 2 ^ topExponent = p at *
          omega
      | infinite => exact iff_of_true rfl ⟨rfl, fits⟩
      | notANumber => exact iff_of_false Binary64.noConfusion fun both => Binary64.noConfusion both.1

end Sum

end Scales

/-- What makes the value of a hexadecimal numeral no number. -/
inductive Indeterminate (n : Numeral) : Prop where
  /-- The digits of the fraction overflow, and so does the power by which they are divided. -/
  | quotient (fraction : overflowBound ≤ numberOf 16 n.fractionDigits)
  /-- The significand vanishes, because its digits are zeros or so many that dividing by their power
      leaves nothing, and the power of two overflows. -/
  | vanished (power : 1024 ≤ n.power) (whole : numberOf 16 n.whole = 0)
      (fraction : 255 < n.fractionDigits.length ∨ numberOf 16 n.fractionDigits = 0)
  /-- The whole part overflows, and the power of two vanishes. -/
  | overflown (power : n.power < -1074) (whole : overflowBound ≤ numberOf 16 n.whole)

section Value

variable {n : Numeral}

/-- The whole part and the fraction consist of hexadecimal digits. -/
structure HexDigits (n : Numeral) : Prop where
  whole : ∀ u ∈ n.whole, u.isHexDigit = true
  fraction : ∀ u ∈ n.fractionDigits, u.isHexDigit = true

theorem accumulate_eq_infinite_iff_le {digits : List CodeUnit} (hex : ∀ u ∈ digits, u.isHexDigit = true) :
    accumulate 16 digits = .infinite ↔ overflowBound ≤ numberOf 16 digits := by
  rw [accumulate_eq_infinite_iff hex, overflowBound_le_natural_iff]

theorem hexadecimal_eq_notANumber_iff (hex : n.HexDigits) :
    n.hexadecimal = .notANumber ↔ n.Indeterminate := by
  have fraction := scales hex.fraction
  have number := accumulate_ne_notANumber (show 0 < 16 by decide) n.whole
  rw [hexadecimal_eq_mul, mul_eq_notANumber_iff, add_eq_notANumber_iff, or_iff_right number,
    or_iff_right (powerOfTwo_ne_notANumber n.power), fraction.eq_notANumber_iff, add_eq_zero_iff,
    fraction.eq_zero_iff, fraction.add_eq_infinite_iff, powerOfTwo_eq_infinite_iff, powerOfTwo_eq_zero_iff,
    accumulate_eq_zero_iff (by decide), accumulate_eq_infinite_iff_le hex.whole]
  have overflow := accumulate_eq_infinite_iff_le hex.fraction
  constructor
  · rintro (quotient | ⟨⟨whole, -, fraction⟩, power⟩ | ⟨⟨whole, -⟩, power⟩)
    · exact .quotient (overflow.1 quotient)
    · exact .vanished power whole fraction
    · exact .overflown power whole
  · intro indeterminate
    -- A fraction that overflows spoils the sum before the power of two has a say.
    by_cases overflows : accumulate 16 n.fractionDigits = .infinite
    · exact .inl overflows
    · cases indeterminate with
      | quotient quotient => exact .inl (overflow.2 quotient)
      | vanished power whole fraction => exact .inr (.inl ⟨⟨whole, overflows, fraction⟩, power⟩)
      | overflown power whole => exact .inr (.inr ⟨⟨whole, overflows⟩, power⟩)

theorem Cuts.hexDigits {input rest : List CodeUnit} {letter : CodeUnit} (cuts : Cuts input n rest)
    (radix : n.radix = .hexadecimal letter) : n.HexDigits := by
  have inside {fraction : Option (List CodeUnit)} {afterWhole afterFraction : List CodeUnit}
      (pointed : CutsFraction CodeUnit.isHexDigit afterWhole fraction afterFraction) :
      ∀ u ∈ fraction.getD [], u.isHexDigit = true := by
    cases pointed with
    | absent => exact fun u member => absurd member List.not_mem_nil
    | present run => exact run.inside
  cases cuts with
  | filled marked run pointed =>
      cases radix
      exact ⟨run.inside, inside pointed⟩
  | empty marked none pointed =>
      cases radix
      exact ⟨fun u member => absurd member List.not_mem_nil, inside pointed⟩

theorem Cuts.value_eq_notANumber_iff {input rest : List CodeUnit} (cuts : Cuts input n rest) :
    n.value = .notANumber ↔ (∃ letter, n.radix = .hexadecimal letter) ∧ n.Indeterminate := by
  cases radix : n.radix with
  | decimal =>
      rw [value, radix]
      refine iff_of_false (ofDecimal_ne_notANumber _) ?_
      rintro ⟨⟨letter, same⟩, -⟩
      cases same
  | hexadecimal letter =>
      rw [value, radix, and_iff_right ⟨letter, rfl⟩]
      exact hexadecimal_eq_notANumber_iff (cuts.hexDigits radix)

end Value

end Numeral

theorem Lexeme.numeral_of_read {g : Grammar} {text rest : List CodeUnit} {number : Binary64}
    (h : read g (text ++ rest) = .read ⟨.token (.number number), text, rest⟩) :
    ∃ n, Numeral.Cuts (text ++ rest) n rest ∧ ¬ n.LacksDigits ∧ number = n.value := by
  have found := form g (text ++ rest)
  rw [h] at found
  generalize inputEq : text ++ rest = input at found
  generalize outcomeEq : Reading.read ⟨.token (.number number), text, rest⟩ = outcome at found
  cases found with
  | finished | space => cases outcomeEq
  | comment line =>
      rcases cut_of_readComment outcomeEq.symm with ⟨_, -, same⟩ | ⟨-, same⟩ <;> cases same
  | @word u tail first =>
      have same := Lexeme.token.inj (congrArg Cut.value (Reading.read.inj outcomeEq))
      cases wordKind_iff.2 same
  | quoted tail quote =>
      obtain ⟨inner, -, same⟩ := Reading.exists_of_ofToken outcomeEq.symm
      cases congrArg Cut.value same
  | @numeral u tail begins =>
      obtain ⟨⟨n, taken, left⟩, read, same⟩ := Reading.exists_of_ofToken outcomeEq.symm
      cases same
      have cuts := Numeral.cuts_take (u :: tail)
      have outcome := cuts.read_eq
      by_cases wellFormed : (Numeral.take (u :: tail)).value.isWellFormed = true
      · rw [if_pos wellFormed, read] at outcome
        cases outcome
        exact ⟨_, cuts, Numeral.isWellFormed_iff.1 wellFormed, rfl⟩
      · rw [if_neg wellFormed, read] at outcome
        cases outcome
  | longString tail begins =>
      obtain ⟨inner, -, same⟩ := cut_of_readLongString outcomeEq.symm
      cases congrArg Cut.value same
  | symbol tail =>
      rcases cut_of_readSymbol outcomeEq.symm with ⟨-, same⟩ | ⟨sign, -, -, -, same⟩
      all_goals cases congrArg Cut.value same

namespace Run

/-- Every number of a run is the value of the numeral that the grammar cuts there. It is a double or
    infinite, and not a number just if the numeral is hexadecimal and indeterminate. -/
theorem number_eq_notANumber_iff (o : Options) (source : List CodeUnit) {t : Token} {number : Binary64}
    (member : t ∈ (ofUnits o source).tokens) (kind : t.kind = .number number) :
    ∃ n, Numeral.Cuts (source.drop t.start.offset) n (source.drop t.stop.offset) ∧ ¬ n.LacksDigits
      ∧ number = n.value
      ∧ (number = .notANumber ↔ (∃ letter, n.radix = .hexadecimal letter) ∧ n.Indeterminate) := by
  rw [ofUnits_eq] at member
  obtain ⟨⟨value, units, start⟩, inTrace, token⟩ := List.mem_filterMap.1 member
  obtain ⟨before, after, readAt⟩ := readAt_of_mem_trace inTrace
  cases value with
  | space | comment => cases token
  | token value =>
      cases token
      cases kind
      obtain ⟨n, cuts, filled, rfl⟩ := Lexeme.numeral_of_read readAt.read
      have behind : source.drop (Piece.stop ⟨.token (.number n.value), units, start⟩).offset = after :=
        readAt.stop.drop_eq
      refine ⟨n, ?_, filled, rfl, cuts.value_eq_notANumber_iff⟩
      rw [readAt.place.drop_eq, behind]
      exact cuts

/-- Zero times a power of two that is just out of range. -/
theorem number_eq_notANumber_zero :
    let source := spellingUnits "x=0x0p1024"
    let t : Token := ⟨.number .notANumber, ⟨1, 0, 2⟩, ⟨1, 0, 10⟩⟩
    let n : Numeral := ⟨.hexadecimal (.of 'x'), [.of '0'], none, some ⟨.of 'p', none, spellingUnits "1024"⟩⟩
    t ∈ (ofUnits {} source).tokens ∧ Numeral.Cuts (source.drop 2) n [] ∧ n.Indeterminate := by
  intro source t n
  have member : t ∈ (ofUnits {} source).tokens := by decide +kernel
  have cuts : Numeral.Cuts (source.drop 2) n [] := Numeral.cuts_iff.2 (by decide +kernel)
  obtain ⟨m, cuts', -, -, notANumber⟩ := number_eq_notANumber_iff {} source member rfl
  obtain ⟨rfl, -⟩ := cuts.unique cuts'
  exact ⟨member, cuts, (notANumber.1 rfl).2⟩

/-- A numeral can saturate to what is not a number. -/
theorem not_forall_number_ne_notANumber : ¬ ∀ (o : Options) (source : List CodeUnit),
    ∀ t ∈ (ofUnits o source).tokens, t.kind ≠ .number .notANumber := by
  intro numbers
  have member : (⟨.number .notANumber, ⟨1, 0, 0⟩, ⟨1, 0, 9⟩⟩ : Token)
      ∈ (ofUnits {} (spellingUnits "0x0p99999")).tokens := by decide +kernel
  exact numbers {} _ _ member rfl

end Run

end LuaTokens
