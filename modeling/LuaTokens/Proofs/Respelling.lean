import LuaTokens.Proofs.HexadecimalValue
import Mathlib.Logic.Relation

/-! # Other spellings of a hexadecimal numeral

A hexadecimal numeral can be rewritten without a change of its value: letters in the other case,
more zeros in front of its digits or of its exponent, a plus, a point with nothing behind it, a
power of zero. No arithmetic is needed for that. The digits are accumulated by the same steps,
of which those for zeros in front do nothing, so it holds for numerals of any length and value.
-/

namespace LuaTokens

namespace CodeUnit

/-- A capital letter and the small letter that goes with it. -/
def Capital (u v : CodeUnit) : Prop :=
  0x41 ≤ u.toNat ∧ u.toNat ≤ 0x5A ∧ v.toNat = u.toNat + 0x20

instance (u v : CodeUnit) : Decidable (Capital u v) :=
  inferInstanceAs (Decidable (_ ∧ _ ∧ _))

/-- The same unit, or the same letter in the other case. -/
def SameLetter (u v : CodeUnit) : Prop :=
  u = v ∨ Capital u v ∨ Capital v u

instance (u v : CodeUnit) : Decidable (SameLetter u v) :=
  inferInstanceAs (Decidable (_ ∨ _ ∨ _))

variable {u v : CodeUnit} {digits others : List CodeUnit}

theorem isHexDigit_iff : u.isHexDigit = true ↔ 0x30 ≤ u.toNat ∧ u.toNat ≤ 0x39
    ∨ 0x41 ≤ u.toNat ∧ u.toNat ≤ 0x46 ∨ 0x61 ≤ u.toNat ∧ u.toNat ≤ 0x66 := by
  simp [isHexDigit, isDigit, UInt16.le_iff_toNat_le, or_assoc]

theorem SameLetter.digitValue_eq (same : SameLetter u v) (hex : u.isHexDigit = true) :
    v.isHexDigit = true ∧ v.digitValue = u.digitValue := by
  rcases same with rfl | letters
  · exact ⟨hex, rfl⟩
  · simp only [Capital] at letters
    have other : v.isHexDigit = true := by
      rw [isHexDigit_iff] at hex ⊢
      omega
    have values := toNat_of_isHexDigit hex
    have otherValues := toNat_of_isHexDigit other
    exact ⟨other, by omega⟩

theorem SameLetter.of_pair {small capital : CodeUnit} (pair : Capital capital small) (same : SameLetter u v)
    (h : u = small ∨ u = capital) : v = small ∨ v = capital := by
  obtain ⟨low, high, apart⟩ := pair
  simp only [← UInt16.toNat_inj] at h ⊢
  rcases same with rfl | ⟨_, _, value⟩ | ⟨_, _, value⟩ <;> omega

theorem digitValues_eq (same : List.Forall₂ SameLetter digits others)
    (hex : ∀ u ∈ digits, u.isHexDigit = true) :
    (∀ v ∈ others, v.isHexDigit = true) ∧ others.map digitValue = digits.map digitValue := by
  induction same with
  | nil => exact ⟨by simp, rfl⟩
  | @cons u v digits others letters same ih =>
      obtain ⟨digit, value⟩ := letters.digitValue_eq (hex u List.mem_cons_self)
      obtain ⟨later, values⟩ := ih fun w member => hex w (List.mem_cons_of_mem _ member)
      refine ⟨fun w member => ?_, by rw [List.map_cons, List.map_cons, value, values]⟩
      rcases List.mem_cons.1 member with rfl | member
      · exact digit
      · exact later w member

theorem forall_mem_zeros {p : CodeUnit → Bool} (zero : p (.of '0') = true) (run : ∀ u ∈ digits, p u = true)
    (count : Nat) : ∀ u ∈ List.replicate count (.of '0') ++ digits, p u = true := by
  intro u member
  rcases List.mem_append.1 member with inside | digit
  · rwa [List.eq_of_mem_replicate inside]
  · exact run u digit

end CodeUnit

namespace Binary64

open CodeUnit

theorem accumulate_congr {digits others : List CodeUnit} (base : Nat)
    (values : others.map digitValue = digits.map digitValue) :
    accumulate base others = accumulate base digits := by
  have steps (run : List CodeUnit) :
      accumulate base run = (run.map digitValue).foldl (fun number digit => number.appendDigit base digit) .zero := by
    rw [accumulate, List.foldl_map]
  rw [steps, steps, values]

/-- A zero behind nothing is nothing, in doubles too. -/
theorem accumulate_zeros (base count : Nat) (digits : List CodeUnit) :
    accumulate base (List.replicate count (.of '0') ++ digits) = accumulate base digits := by
  induction count with
  | zero => rfl
  | succ count ih =>
      have step : zero.appendDigit base (CodeUnit.of '0').digitValue = zero := by
        have none : (CodeUnit.of '0').digitValue = 0 := by decide
        rw [none, zero, appendDigit, Nat.zero_mul, Nat.zero_mul]
        exact nearest_zero Nat.one_pos
      rw [← ih]
      simp only [accumulate, List.replicate_succ, List.cons_append, List.foldl_cons, step]

end Binary64

namespace Numeral

open CodeUnit

/-- The exponent with its mark in either case. -/
def Exponent.Recased (e e' : Exponent) : Prop :=
  SameLetter e.mark e'.mark ∧ e'.sign = e.sign ∧ e'.digits = e.digits

/-- The ways to rewrite a hexadecimal numeral that stands before `rest`. Zeros come in front of the
    digits of the whole part and of the exponent, a plus comes and goes before the latter. -/
inductive Respells (rest : List CodeUnit) : Numeral → Numeral → Prop where
  /-- Any letters are put into the other case. -/
  | recase {letter letter' : CodeUnit} {whole whole' : List CodeUnit} {fraction fraction' : Option (List CodeUnit)}
      {exponent exponent' : Option Exponent} (letters : SameLetter letter letter')
      (wholes : List.Forall₂ SameLetter whole whole')
      (fractions : Option.Rel (List.Forall₂ SameLetter) fraction fraction')
      (exponents : Option.Rel Exponent.Recased exponent exponent') :
      Respells rest ⟨.hexadecimal letter, whole, fraction, exponent⟩
        ⟨.hexadecimal letter', whole', fraction', exponent'⟩
  | zeros {radix : Radix} {whole : List CodeUnit} {fraction : Option (List CodeUnit)} {exponent : Option Exponent}
      (count : Nat) :
      Respells rest ⟨radix, whole, fraction, exponent⟩
        ⟨radix, List.replicate count (.of '0') ++ whole, fraction, exponent⟩
  | exponentZeros {radix : Radix} {whole : List CodeUnit} {fraction : Option (List CodeUnit)} {e : Exponent}
      (count : Nat) :
      Respells rest ⟨radix, whole, fraction, some e⟩
        ⟨radix, whole, fraction, some { e with digits := List.replicate count (.of '0') ++ e.digits }⟩
  | addPlus {radix : Radix} {whole : List CodeUnit} {fraction : Option (List CodeUnit)} {mark : CodeUnit}
      {digits : List CodeUnit} :
      Respells rest ⟨radix, whole, fraction, some ⟨mark, none, digits⟩⟩
        ⟨radix, whole, fraction, some ⟨mark, some (.of '+'), digits⟩⟩
  | dropPlus {radix : Radix} {whole : List CodeUnit} {fraction : Option (List CodeUnit)} {mark : CodeUnit}
      {digits : List CodeUnit} :
      Respells rest ⟨radix, whole, fraction, some ⟨mark, some (.of '+'), digits⟩⟩
        ⟨radix, whole, fraction, some ⟨mark, none, digits⟩⟩
  /-- The point has nothing behind it. At the end of the numeral another point that follows would
      take its place. -/
  | dropPoint {radix : Radix} {whole : List CodeUnit} {exponent : Option Exponent} (digits : whole ≠ [])
      (apart : exponent = none → Stops (· == .of '.') rest) :
      Respells rest ⟨radix, whole, some [], exponent⟩ ⟨radix, whole, none, exponent⟩
  | appendPower {radix : Radix} {whole : List CodeUnit} {fraction : Option (List CodeUnit)} {mark : CodeUnit}
      {sign : Option CodeUnit} (marks : mark = .of 'p' ∨ mark = .of 'P') (signs : sign = none ∨ sign = some (.of '-')) :
      Respells rest ⟨radix, whole, fraction, none⟩ ⟨radix, whole, fraction, some ⟨mark, sign, [.of '0']⟩⟩

/-- A zero, an x of either case and what is written as a numeral behind it. -/
structure IsHexadecimal (n : Numeral) : Prop where
  marked : ∃ letter, n.radix = .hexadecimal letter ∧ (letter = .of 'x' ∨ letter = .of 'X')
  written : n.IsWritten

variable {n n' : Numeral} {input rest : List CodeUnit} {letter : CodeUnit}

theorem IsHexadecimal.cuts (h : n.IsHexadecimal) (ends : n.Ends rest) : Cuts (n.text ++ rest) n rest := by
  obtain ⟨letter, radix, marks⟩ := h.marked
  refine h.written.cuts ?_ ends
  rw [text_eq, radix]
  exact if_pos (by simpa using marks)

theorem Cuts.isHexadecimal (cuts : Cuts input n rest) (radix : n.radix = .hexadecimal letter)
    (filled : ¬ n.LacksDigits) : n.IsHexadecimal := by
  have marked : CutsRadix input (.hexadecimal letter) _ := cutsRadix_iff.2 ⟨cuts.radix_eq.symm.trans radix, rfl⟩
  refine ⟨⟨letter, radix, ?_⟩, cuts.isWritten filled⟩
  cases marked with
  | hexadecimal marks => exact marks

section Recase

variable {whole whole' : List CodeUnit} {fraction fraction' : Option (List CodeUnit)}
  {exponent exponent' : Option Exponent} {e e' : Exponent}

theorem getD_fraction (fractions : Option.Rel (List.Forall₂ SameLetter) fraction fraction') :
    List.Forall₂ SameLetter (fraction.getD []) (fraction'.getD []) := by
  cases fractions with
  | none => exact .nil
  | some same => exact same

theorem recased_digits (wholes : List.Forall₂ SameLetter whole whole')
    (fractions : Option.Rel (List.Forall₂ SameLetter) fraction fraction') :
    List.Forall₂ SameLetter (whole ++ fraction.getD []) (whole' ++ fraction'.getD []) :=
  List.rel_append wholes (getD_fraction fractions)

theorem Exponent.Recased.isWritten (recased : e.Recased e') (h : e.IsWritten (.hexadecimal letter))
    (letter' : CodeUnit) : e'.IsWritten (.hexadecimal letter') := by
  obtain ⟨marks, sign, digits⟩ := recased
  have mark := h.mark
  simp only [Radix.isExponentMark, Bool.or_eq_true, beq_iff_eq] at mark
  refine ⟨?_, sign ▸ h.sign, digits ▸ h.digits, digits ▸ h.filled⟩
  simp only [Radix.isExponentMark, Bool.or_eq_true, beq_iff_eq]
  exact marks.of_pair (by decide) mark

theorem scaled_congr {digits others : List CodeUnit} (same : List.Forall₂ SameLetter digits others)
    (hex : ∀ u ∈ digits, u.isHexDigit = true) : scaled others = scaled digits := by
  obtain ⟨-, values⟩ := digitValues_eq same hex
  have length := same.length_eq
  cases same with
  | nil => rfl
  | cons =>
      rw [List.length_cons, List.length_cons, Nat.add_right_cancel_iff] at length
      rw [scaled, scaled, Binary64.accumulate_congr 16 values, length]

theorem power_eq (exponents : Option.Rel Exponent.Recased exponent exponent') :
    (exponent'.map Exponent.value).getD 0 = (exponent.map Exponent.value).getD 0 := by
  cases exponents with
  | none => rfl
  | some recased =>
      obtain ⟨-, sign, digits⟩ := recased
      simp only [Option.map_some, Option.getD_some, Exponent.value, sign, digits]

end Recase

namespace Exponent

variable {radix : Radix} {e : Exponent} {mark : CodeUnit} {sign : Option CodeUnit} {digits : List CodeUnit}

theorem IsWritten.signed (h : e.IsWritten radix) (signs : ∀ u ∈ sign, isSign u = true) :
    IsWritten radix { e with sign := sign } :=
  ⟨h.mark, signs, h.digits, h.filled⟩

theorem IsWritten.zeros (h : e.IsWritten radix) (count : Nat) :
    IsWritten radix { e with digits := List.replicate count (.of '0') ++ e.digits } :=
  ⟨h.mark, h.sign, forall_mem_zeros (by decide) h.digits count, List.append_ne_nil_of_right_ne_nil _ h.filled⟩

theorem isWritten_zero (marks : radix.isExponentMark mark = true) (signs : ∀ u ∈ sign, isSign u = true) :
    IsWritten radix ⟨mark, sign, [.of '0']⟩ :=
  ⟨marks, signs, forall_mem_zeros (by decide) (by simp) 1, by simp⟩

theorem value_plus : value ⟨mark, some (.of '+'), digits⟩ = value ⟨mark, none, digits⟩ := by
  simp [value, show CodeUnit.of '+' ≠ CodeUnit.of '-' by decide]

theorem value_zeros (e : Exponent) (count : Nat) :
    value { e with digits := List.replicate count (.of '0') ++ e.digits } = e.value := by
  simp only [value, numberOf_zeros]

theorem value_zero : value ⟨mark, sign, [.of '0']⟩ = 0 := by
  have none : numberOf 10 [.of '0'] = 0 := by decide
  simp [value, none]

end Exponent

theorem IsHexadecimal.of_exponent (h : n.IsHexadecimal) {exponent : Option Exponent}
    (behind : ∀ e ∈ exponent, e.IsWritten n.radix) : IsHexadecimal { n with exponent := exponent } :=
  ⟨h.marked, h.written.digits, h.written.filled, behind⟩

theorem IsHexadecimal.zeros (h : n.IsHexadecimal) (count : Nat) :
    IsHexadecimal { n with whole := List.replicate count (.of '0') ++ n.whole } := by
  obtain ⟨⟨letter, radix, marks⟩, digits, filled, exponent⟩ := h
  have zero : n.radix.isDigit (.of '0') = true := radix ▸ rfl
  refine ⟨⟨letter, radix, marks⟩, ?_, ?_, exponent⟩
  · simpa only [Numeral.digits, List.append_assoc] using forall_mem_zeros zero digits count
  · rw [Numeral.digits, List.append_assoc]
    exact List.append_ne_nil_of_right_ne_nil _ filled

theorem hexadecimal_congr (whole : Binary64.accumulate 16 n'.whole = Binary64.accumulate 16 n.whole)
    (fraction : scaled n'.fractionDigits = scaled n.fractionDigits) (power : n'.power = n.power) :
    n'.hexadecimal = n.hexadecimal := by
  rw [hexadecimal_eq_mul, hexadecimal_eq_mul, whole, fraction, power]

section Step

variable (respells : Respells rest n n')

include respells

theorem Respells.isHexadecimal (h : n.IsHexadecimal) : n'.IsHexadecimal := by
  cases respells with
  | recase letters wholes fractions exponents =>
      obtain ⟨⟨letter, radix, marks⟩, digits, filled, exponent⟩ := h
      cases radix
      have recased := recased_digits wholes fractions
      refine ⟨⟨_, rfl, letters.of_pair (by decide) marks⟩, (digitValues_eq recased digits).1, ?_, ?_⟩
      · intro none
        exact filled (List.length_eq_zero_iff.1 (recased.length_eq.trans (congrArg List.length none)))
      · rintro e' same
        cases exponents with
        | none => cases same
        | some recased =>
            cases same
            exact recased.isWritten (exponent _ rfl) _
  | zeros count => exact h.zeros count
  | exponentZeros count =>
      refine h.of_exponent ?_
      rintro e' ⟨⟩
      exact (h.written.exponent _ rfl).zeros count
  | addPlus =>
      refine h.of_exponent ?_
      rintro e' ⟨⟩
      exact (h.written.exponent _ rfl).signed (by rintro u ⟨⟩; decide)
  | dropPlus =>
      refine h.of_exponent ?_
      rintro e' ⟨⟩
      exact (h.written.exponent _ rfl).signed (by simp)
  | dropPoint => exact ⟨h.marked, h.written.digits, h.written.filled, h.written.exponent⟩
  | appendPower power signs =>
      refine h.of_exponent ?_
      rintro e' ⟨⟩
      obtain ⟨letter, radix, -⟩ := h.marked
      refine Exponent.isWritten_zero ?_ ?_
      · rw [radix]
        simpa [Radix.isExponentMark] using power
      · rcases signs with rfl | rfl
        · simp
        · rintro u ⟨⟩
          decide

theorem Respells.ends (h : n.IsHexadecimal) (ends : n.Ends rest) : n'.Ends rest := by
  cases respells with
  | @recase _ _ _ _ fraction fraction' exponent exponent' letters wholes fractions exponents =>
      have none : exponent' = none ↔ exponent = none := by cases exponents <;> simp
      have pointless : fraction' = .none ↔ fraction = .none := by cases fractions <;> simp
      exact ⟨fun raised => ends.raised (mt none.2 raised), fun bare => ends.digit (none.1 bare),
        fun bare => ends.mark (none.1 bare), fun bare same => ends.point (none.1 bare) (pointless.1 same)⟩
  | zeros count => exact ⟨ends.raised, ends.digit, ends.mark, ends.point⟩
  | exponentZeros | addPlus | dropPlus =>
      exact ⟨fun _ => ends.raised (by simp), by simp, by simp, by simp⟩
  | dropPoint filled apart => exact ⟨ends.raised, ends.digit, ends.mark, fun bare _ => apart bare⟩
  | appendPower =>
      obtain ⟨letter, radix, -⟩ := h.marked
      obtain rfl : _ = Radix.hexadecimal letter := radix
      refine ⟨fun _ u first => ?_, by simp, by simp, by simp⟩
      have noDigit := ends.digit rfl u first
      simp only [Radix.isDigit, CodeUnit.isHexDigit, Bool.or_eq_false_iff] at noDigit
      exact noDigit.1.1

theorem Respells.hexadecimal_eq (h : n.IsHexadecimal) : n'.hexadecimal = n.hexadecimal := by
  cases respells with
  | recase letters wholes fractions exponents =>
      obtain ⟨⟨letter, radix, -⟩, digits, -⟩ := h
      cases radix
      have values := (digitValues_eq wholes fun u member => digits u (List.mem_append_left _ member)).2
      exact hexadecimal_congr (Binary64.accumulate_congr 16 values)
        (scaled_congr (getD_fraction fractions) fun u member => digits u (List.mem_append_right _ member))
        (power_eq exponents)
  | zeros count => exact hexadecimal_congr (Binary64.accumulate_zeros 16 count _) rfl rfl
  | exponentZeros count => exact hexadecimal_congr rfl rfl (Exponent.value_zeros _ count)
  | addPlus => exact hexadecimal_congr rfl rfl Exponent.value_plus
  | dropPlus => exact hexadecimal_congr rfl rfl Exponent.value_plus.symm
  | dropPoint => exact hexadecimal_congr rfl rfl rfl
  | appendPower => exact hexadecimal_congr rfl rfl Exponent.value_zero

end Step

/-- However often it is rewritten, a numeral stays one and keeps its value. -/
theorem respelled (steps : Relation.ReflTransGen (Respells rest) n n') (h : n.IsHexadecimal) (ends : n.Ends rest) :
    n'.IsHexadecimal ∧ n'.Ends rest ∧ n'.hexadecimal = n.hexadecimal := by
  induction steps with
  | refl => exact ⟨h, ends, rfl⟩
  | tail _ step ih =>
      obtain ⟨now, ends, same⟩ := ih
      exact ⟨step.isHexadecimal now, step.ends now ends, (step.hexadecimal_eq now).trans same⟩

theorem IsHexadecimal.value_eq (h : n.IsHexadecimal) : n.value = n.hexadecimal := by
  obtain ⟨letter, radix, -⟩ := h.marked
  rw [value, radix]

end Numeral

namespace Session

open Numeral

variable {s : Session} {n n' : Numeral} {rest : List CodeUnit} {letter : CodeUnit}

theorem pull_of_isHexadecimal (h : n.IsHexadecimal) (ends : n.Ends rest) (ahead : s.ahead = n.text ++ rest) :
    s.pull = (some (.token ⟨.number n.value, s.position, s.position.shift n.text.length⟩),
      { s with position := s.position.shift n.text.length, ahead := rest }) := by
  obtain ⟨letter, radix, -⟩ := h.marked
  have cuts := h.cuts ends
  rw [← ahead] at cuts
  obtain ⟨behind, begins⟩ := cuts.begins_of_hexadecimal radix
  exact pull_of_cuts begins rfl cuts h.written.not_lacksDigits

/-- A hexadecimal numeral that a pull accepts can be rewritten step by step, and wherever the other
    spelling stands before the same text, it is accepted as a whole with the same value: the same
    double, infinity or no number at all. -/
theorem pull_respelled (cuts : Cuts s.ahead n rest) (radix : n.radix = .hexadecimal letter)
    (filled : ¬ n.LacksDigits) (steps : Relation.ReflTransGen (Respells rest) n n') :
    s.pull = (some (.token ⟨.number n.value, s.position, s.position.shift n.text.length⟩),
        { s with position := s.position.shift n.text.length, ahead := rest })
      ∧ n'.value = n.value ∧ Cuts (n'.text ++ rest) n' rest ∧ ¬ n'.LacksDigits
      ∧ ∀ t : Session, t.ahead = n'.text ++ rest →
          t.pull = (some (.token ⟨.number n.value, t.position, t.position.shift n'.text.length⟩),
            { t with position := t.position.shift n'.text.length, ahead := rest }) := by
  have accepted := cuts.isHexadecimal radix filled
  have ends := cuts.ends accepted.written.filled
  obtain ⟨now, endsNow, same⟩ := respelled steps accepted ends
  have value : n'.value = n.value := by rw [now.value_eq, accepted.value_eq, same]
  refine ⟨pull_of_isHexadecimal accepted ends cuts.text_append.symm, value, now.cuts endsNow,
    now.written.not_lacksDigits, fun t ahead => ?_⟩
  rw [← value]
  exact pull_of_isHexadecimal now endsNow ahead

/-- Letters, zeros on both sides of the mark, a point and a plus, where the number is infinite. -/
theorem pull_respelled_infinite :
    let rest := spellingUnits "-y"
    let whole := spellingUnits "Fa"
    let power := spellingUnits "9999"
    let n : Numeral := ⟨.hexadecimal (.of 'x'), whole, some [], some ⟨.of 'p', some (.of '+'), power⟩⟩
    let whole' := spellingUnits "fA"
    let n' : Numeral := ⟨.hexadecimal (.of 'X'), List.replicate 1 (.of '0') ++ whole', none,
      some ⟨.of 'P', none, List.replicate 2 (.of '0') ++ power⟩⟩
    let s := start {} (spellingUnits "0xFa.p+9999-y")
    let t := start {} (spellingUnits "0X0fAP009999-y")
    Cuts s.ahead n rest ∧ ¬ n.LacksDigits ∧ Relation.ReflTransGen (Respells rest) n n'
      ∧ s.pull.1 = some (.token ⟨.number .infinite, {}, ⟨1, 0, 11⟩⟩)
      ∧ t.pull.1 = some (.token ⟨.number .infinite, {}, ⟨1, 0, 12⟩⟩) := by
  intro rest whole power n whole' n' s t
  have cuts : Cuts s.ahead n rest := cuts_iff.2 (by decide +kernel)
  have filled : ¬ n.LacksDigits := isWellFormed_iff.1 (by decide)
  have recased : Respells rest n ⟨.hexadecimal (.of 'X'), whole', some [], some ⟨.of 'P', some (.of '+'), power⟩⟩ :=
    .recase (by decide) (.cons (by decide) (.cons (by decide) .nil)) (.some .nil) (.some ⟨by decide, rfl, rfl⟩)
  have steps : Relation.ReflTransGen (Respells rest) n n' :=
    .head recased (.head (.zeros 1) (.head (.dropPoint (by decide) (by simp))
      (.head .dropPlus (.single (.exponentZeros 2)))))
  have infinite : n.value = .infinite := by decide +kernel
  obtain ⟨pulled, -, -, -, other⟩ := pull_respelled cuts rfl filled steps
  have respelled := other t (by decide +kernel)
  rw [infinite] at pulled respelled
  exact ⟨cuts, filled, steps, congrArg Prod.fst pulled, congrArg Prod.fst respelled⟩

end Session

end LuaTokens
