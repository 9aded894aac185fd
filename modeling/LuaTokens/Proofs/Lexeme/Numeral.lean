import LuaTokens.Lexeme.Numeral.Read
import LuaTokens.Proofs.Text.Follow

/-! # Where a numeral ends

A numeral is taken whole when each of its parts is a run that what follows does not
continue. White space continues no part, so a numeral is taken alike before any white
space.
-/

namespace LuaTokens

namespace Radix

theorem isDigit_spaces (r : Radix) : ∀ v ∈ CodeUnit.spaces, r.isDigit v = false := by
  cases r with
  | decimal => exact CodeUnit.isDigit_spaces
  | hexadecimal letter => exact CodeUnit.isHexDigit_spaces

theorem isExponentMark_spaces (r : Radix) :
    ∀ v ∈ CodeUnit.spaces, r.isExponentMark v = false := by
  cases r with
  | decimal => exact CodeUnit.forall_of_any (by decide)
  | hexadecimal letter =>
      have unmarked : ∀ v ∈ CodeUnit.spaces, (v == .of 'p' || v == .of 'P') = false :=
        CodeUnit.forall_of_any (by decide)
      exact unmarked

theorem isDigit_point (r : Radix) : r.isDigit (.of '.') = false := by
  cases r <;> rfl

theorem isExponentMark_point (r : Radix) : r.isExponentMark (.of '.') = false := by
  cases r <;> rfl

theorem isDigit_of_isExponentMark {r : Radix} {u : CodeUnit} (marks : r.isExponentMark u = true) :
    r.isDigit u = false := by
  cases r with
  | decimal =>
      simp only [isExponentMark, Bool.or_eq_true, beq_iff_eq] at marks
      rcases marks with rfl | rfl <;> rfl
  | hexadecimal letter =>
      simp only [isExponentMark, Bool.or_eq_true, beq_iff_eq] at marks
      rcases marks with rfl | rfl <;> rfl

theorem ofUnits_append {text rest other : List CodeUnit} (nonempty : text ≠ [])
    (follows : Follows rest other) (h : ofUnits (text ++ rest) = .decimal) :
    ofUnits (text ++ other) = .decimal := by
  match text with
  | [u] =>
      cases other with
      | nil => rfl
      | cons letter tail =>
          simp only [List.cons_append, List.nil_append, ofUnits]
          split
          next mark =>
            simp only [Bool.and_eq_true, Bool.or_eq_true, decide_eq_true_eq] at mark
            have solid : letter.isSpace = false := by
              rcases mark.2 with rfl | rfl <;> decide
            obtain ⟨more, rfl⟩ := List.head?_eq_some_iff.1 (follows.head_of_not_space rfl solid)
            simp [ofUnits, mark] at h
          · rfl
  | _ :: _ :: _ => exact h

end Radix

namespace Numeral

def isSign (u : CodeUnit) : Bool :=
  u == .of '+' || u == .of '-'

theorem isSign_spaces : ∀ v ∈ CodeUnit.spaces, isSign v = false :=
  CodeUnit.forall_of_any (by decide)

theorem isPoint_spaces : ∀ v ∈ CodeUnit.spaces, (v == .of '.') = false :=
  CodeUnit.forall_of_any (by decide)

def fractionText (n : Numeral) : List CodeUnit :=
  (n.fraction.map (.of '.' :: ·)).getD []

def exponentText (n : Numeral) : List CodeUnit :=
  (n.exponent.map Exponent.text).getD []

theorem text_eq (n : Numeral) :
    n.text = n.radix.text ++ (n.whole ++ (n.fractionText ++ n.exponentText)) := by
  simp [text, significandText, fractionText, exponentText]

/-- The digits behind the point end where the text behind them does not go on. -/
def FractionEnds (radix : Radix) (rest : List CodeUnit) : Option (List CodeUnit) → Prop
  | none => Stops (· == .of '.') rest
  | some digits => (∀ u ∈ digits, radix.isDigit u = true) ∧ Stops radix.isDigit rest

def SignEnds (rest : List CodeUnit) : Option CodeUnit → Prop
  | none => Stops isSign rest
  | some sign => isSign sign = true

def ExponentEnds (radix : Radix) (rest : List CodeUnit) : Option Exponent → Prop
  | none => Stops radix.isExponentMark rest
  | some e => radix.isExponentMark e.mark = true ∧ SignEnds (e.digits ++ rest) e.sign
      ∧ (∀ u ∈ e.digits, u.isDigit = true) ∧ Stops CodeUnit.isDigit rest

/-- Every part of the numeral is as long as it can be before `rest`. -/
structure Maximal (n : Numeral) (rest : List CodeUnit) : Prop where
  digits_ne_nil : n.digits ≠ []
  radix_eq : Radix.ofUnits (n.text ++ rest) = n.radix
  whole_digits : ∀ u ∈ n.whole, n.radix.isDigit u = true
  whole_ends : Stops n.radix.isDigit (n.fractionText ++ (n.exponentText ++ rest))
  fraction_ends : FractionEnds n.radix (n.exponentText ++ rest) n.fraction
  exponent_ends : ExponentEnds n.radix rest n.exponent

section Reading

variable {radix : Radix} {input rest other : List CodeUnit}

theorem readFraction_append {fraction : Option (List CodeUnit)}
    (ends : FractionEnds radix rest fraction) :
    readFraction radix ((fraction.map (.of '.' :: ·)).getD [] ++ rest) = (fraction, rest) := by
  cases fraction with
  | none =>
      cases rest with
      | nil => rfl
      | cons u tail =>
          have other : u ≠ .of '.' := by simpa using ends u rfl
          simp [readFraction, other]
  | some digits =>
      simp only [Option.map_some, Option.getD_some, List.cons_append, readFraction, if_pos]
      rw [ends.2.takeWhile_append ends.1, ends.2.dropWhile_append ends.1]

theorem fractionEnds_readFraction (radix : Radix) (input : List CodeUnit) :
    FractionEnds radix (readFraction radix input).2 (readFraction radix input).1 := by
  unfold readFraction
  split
  · intro u first
    cases first
  · split
    · exact ⟨fun u member => List.mem_takeWhile_imp member, stops_dropWhile _⟩
    next other =>
      intro u first
      cases first
      simpa using other

theorem readSign_append {sign : Option CodeUnit} (ends : SignEnds rest sign) :
    readSign (sign.toList ++ rest) = (sign, rest) := by
  cases sign with
  | none =>
      cases rest with
      | nil => rfl
      | cons u tail =>
          have other : isSign u = false := ends u rfl
          simp only [isSign, Bool.or_eq_false_iff, beq_eq_false_iff_ne, ne_eq] at other
          simp [readSign, other]
  | some sign =>
      have mark : isSign sign = true := ends
      simp only [isSign, Bool.or_eq_true, beq_iff_eq] at mark
      simp [readSign, mark]

theorem signEnds_readSign (input : List CodeUnit) :
    SignEnds (readSign input).2 (readSign input).1 := by
  unfold readSign
  split
  · intro u first
    cases first
  · split
    next mark => simpa [SignEnds, isSign] using mark
    next other =>
      intro u first
      cases first
      simpa [isSign] using other

theorem readExponent_append {exponent : Option Exponent}
    (ends : ExponentEnds radix rest exponent) :
    readExponent radix ((exponent.map Exponent.text).getD [] ++ rest) = (exponent, rest) := by
  cases exponent with
  | none =>
      cases rest with
      | nil => rfl
      | cons u tail => simp [readExponent, ends u rfl]
  | some e =>
      obtain ⟨mark, sign, digits, stops⟩ := ends
      simp only [Option.map_some, Option.getD_some, Exponent.text, List.cons_append,
        List.append_assoc, readExponent, mark, if_true, readSign_append sign]
      rw [stops.takeWhile_append digits, stops.dropWhile_append digits]

theorem exponentEnds_readExponent (radix : Radix) (input : List CodeUnit) :
    ExponentEnds radix (readExponent radix input).2 (readExponent radix input).1 := by
  unfold readExponent
  split
  · intro u first
    cases first
  next mark afterMark =>
    split
    next marks =>
      refine ⟨marks, ?_, fun u member => List.mem_takeWhile_imp member, stops_dropWhile _⟩
      simp only [List.takeWhile_append_dropWhile]
      exact signEnds_readSign afterMark
    next unmarked =>
      intro u first
      cases first
      simpa using unmarked

end Reading

theorem digits_take (input : List CodeUnit) :
    let radix := Radix.ofUnits input
    let afterRadix := input.drop radix.text.length
    (take input).value.digits = afterRadix.takeWhile radix.isDigit
      ++ (readFraction radix (afterRadix.dropWhile radix.isDigit)).1.getD [] :=
  rfl

theorem take_of_behind {input : List CodeUnit} {behind : Option Exponent × List CodeUnit} :
    let radix := Radix.ofUnits input
    let afterRadix := input.drop radix.text.length
    let whole := afterRadix.takeWhile radix.isDigit
    let fraction := readFraction radix (afterRadix.dropWhile radix.isDigit)
    (if whole ++ fraction.1.getD [] = [] then (none, fraction.2) else readExponent radix fraction.2)
        = behind →
      take input = ⟨⟨radix, whole, fraction.1, behind.1⟩, text ⟨radix, whole, fraction.1, behind.1⟩,
        behind.2⟩ := by
  rintro _ _ _ _ rfl
  rfl

theorem take_of_digits {input : List CodeUnit} (digits : (take input).value.digits ≠ []) :
    let radix := Radix.ofUnits input
    let afterRadix := input.drop radix.text.length
    let fraction := readFraction radix (afterRadix.dropWhile radix.isDigit)
    let exponent := readExponent radix fraction.2
    take input = ⟨⟨radix, afterRadix.takeWhile radix.isDigit, fraction.1, exponent.1⟩,
      text ⟨radix, afterRadix.takeWhile radix.isDigit, fraction.1, exponent.1⟩, exponent.2⟩ := by
  intro radix afterRadix fraction exponent
  exact take_of_behind (if_neg digits)

theorem read_of_no_digits {input : List CodeUnit} (none : (take input).value.digits = []) :
    let radix := Radix.ofUnits input
    let afterRadix := input.drop radix.text.length
    let fraction := (readFraction radix afterRadix).1
    Stops radix.isDigit afterRadix ∧ fraction.getD [] = []
      ∧ read input = .error ⟨.malformedNumber, [], significandText radix [] fraction⟩ := by
  intro radix afterRadix fraction
  obtain ⟨whole, point⟩ := List.append_eq_nil_iff.1 ((digits_take input).symm.trans none)
  have stops : Stops radix.isDigit afterRadix := by
    have all := stops_dropWhile (p := radix.isDigit) afterRadix
    have same := List.takeWhile_append_dropWhile (p := radix.isDigit) (l := afterRadix)
    rw [whole, List.nil_append] at same
    rwa [same] at all
  have text : (take input).text
      = significandText radix (afterRadix.takeWhile radix.isDigit)
        (readFraction radix (afterRadix.dropWhile radix.isDigit)).1 :=
    (congrArg Cut.text (take_of_behind (if_pos none))).trans (List.append_nil _)
  rw [stops.dropWhile_eq] at point text
  rw [whole] at text
  refine ⟨stops, point, ?_⟩
  rw [read, if_neg, text]
  simp [isWellFormed, none]

theorem maximal_take {input : List CodeUnit} (digits : (take input).value.digits ≠ []) :
    Maximal (take input).value (take input).rest := by
  have whole := text_append_rest_take input
  have same := take_of_digits digits
  simp only at same
  generalize radixEq : Radix.ofUnits input = radix at same
  generalize afterEq : (input.drop radix.text.length) = afterRadix at same
  generalize fractionEq : readFraction radix (afterRadix.dropWhile radix.isDigit) = fraction at same
  have fractionText := text_readFraction radix (afterRadix.dropWhile radix.isDigit)
  have exponentText := text_readExponent radix fraction.2
  rw [fractionEq] at fractionText
  have text : (take input).text = (take input).value.text := by rw [same]
  have exponentRest : (take input).value.exponentText ++ (take input).rest = fraction.2 := by
    rw [same]
    exact exponentText
  constructor
  · exact digits
  · rw [← text, whole, radixEq, same]
  · rw [same]
    exact fun u member => List.mem_takeWhile_imp member
  · rw [exponentRest, same]
    simp only [Numeral.fractionText]
    rw [fractionText]
    exact stops_dropWhile _
  · rw [exponentRest, same]
    simp only [← fractionEq]
    exact fractionEnds_readFraction radix _
  · rw [same]
    exact exponentEnds_readExponent radix fraction.2

theorem Maximal.take_append {n : Numeral} {rest : List CodeUnit} (h : Maximal n rest) :
    take (n.text ++ rest) = ⟨n, n.text, rest⟩ := by
  have afterRadix : (n.text ++ rest).drop n.radix.text.length
      = n.whole ++ (n.fractionText ++ (n.exponentText ++ rest)) := by
    rw [text_eq]
    simp
  have fraction := readFraction_append h.fraction_ends
  have exponent := readExponent_append h.exponent_ends
  have filled : ¬ n.whole ++ n.fraction.getD [] = [] := h.digits_ne_nil
  simp only [take, h.radix_eq, afterRadix, h.whole_ends.takeWhile_append h.whole_digits,
    h.whole_ends.dropWhile_append h.whole_digits]
  rw [fractionText, fraction]
  simp only [if_neg filled]
  rw [exponentText, exponent]

theorem Maximal.exists_digit {n : Numeral} {rest : List CodeUnit} (h : Maximal n rest) :
    ∃ d ∈ n.text, n.radix.isDigit d = true := by
  obtain ⟨d, more, digits⟩ := List.exists_cons_of_ne_nil h.digits_ne_nil
  have member : d ∈ n.digits := by
    rw [digits]
    exact List.mem_cons_self
  rw [Numeral.digits, List.mem_append] at member
  rcases member with whole | fraction
  · exact ⟨d, by simp [text_eq, whole], h.whole_digits d whole⟩
  · have ends := h.fraction_ends
    cases same : n.fraction with
    | none => simp [same] at fraction
    | some digits =>
        rw [same] at ends fraction
        exact ⟨d, by simp [text_eq, fractionText, same, show d ∈ digits from fraction],
          ends.1 d fraction⟩

theorem Maximal.of_follows {n : Numeral} {rest other : List CodeUnit} (h : Maximal n rest)
    (follows : Follows rest other) : Maximal n other := by
  have behindFraction := follows.append n.exponentText
  have behindWhole := behindFraction.append n.fractionText
  constructor
  · exact h.digits_ne_nil
  · have old := h.radix_eq
    cases same : n.radix with
    | decimal =>
        rw [same] at old
        exact Radix.ofUnits_append (text_ne_nil_of_digits h.digits_ne_nil) follows old
    | hexadecimal letter =>
        rw [text_eq, same] at old ⊢
        exact old
  · exact h.whole_digits
  · exact behindWhole.stops n.radix.isDigit_spaces h.whole_ends
  · have old := h.fraction_ends
    cases same : n.fraction with
    | none =>
        rw [same] at old
        exact behindFraction.stops isPoint_spaces old
    | some digits =>
        rw [same] at old
        exact ⟨old.1, behindFraction.stops n.radix.isDigit_spaces old.2⟩
  · have old := h.exponent_ends
    cases same : n.exponent with
    | none =>
        rw [same] at old
        exact follows.stops n.radix.isExponentMark_spaces old
    | some e =>
        rw [same] at old
        obtain ⟨mark, sign, digits, stops⟩ := old
        refine ⟨mark, ?_, digits, follows.stops CodeUnit.isDigit_spaces stops⟩
        cases signed : e.sign with
        | none =>
            rw [signed] at sign
            exact (follows.append e.digits).stops isSign_spaces sign
        | some s =>
            rw [signed] at sign
            exact sign

end Numeral

end LuaTokens
