import LuaTokens.Proofs.Lexeme.Numeral

/-! # The grammar of numerals

A numeral is cut out of its surroundings part by part: the mark of its radix, the longest run
of digits, a point with the longest run of digits behind it, and an exponent. Each part is
there exactly if its first unit is. What is taken is the only numeral cut in this way.
-/

namespace LuaTokens

/-- The units in front that satisfy `p`, as many as there are, and what is behind them. -/
structure LongestRun (p : CodeUnit → Bool) (input run rest : List CodeUnit) : Prop where
  divided : input = run ++ rest
  inside : ∀ u ∈ run, p u = true
  stops : Stops p rest

theorem longestRun_iff {p : CodeUnit → Bool} {input run rest : List CodeUnit} :
    LongestRun p input run rest ↔ input.takeWhile p = run ∧ input.dropWhile p = rest := by
  constructor
  · rintro ⟨rfl, inside, stops⟩
    exact ⟨stops.takeWhile_append inside, stops.dropWhile_append inside⟩
  · rintro ⟨rfl, rfl⟩
    exact ⟨List.takeWhile_append_dropWhile.symm, fun u member => List.mem_takeWhile_imp member,
      stops_dropWhile input⟩

namespace Numeral

/-- A zero and an x of either case mark a hexadecimal numeral. -/
inductive CutsRadix : List CodeUnit → Radix → List CodeUnit → Prop where
  | hexadecimal {letter : CodeUnit} {rest : List CodeUnit} (marks : letter = .of 'x' ∨ letter = .of 'X') :
      CutsRadix (.of '0' :: letter :: rest) (.hexadecimal letter) rest
  | decimal {input : List CodeUnit} (unmarked : ∀ letter rest, input = .of '0' :: letter :: rest →
      letter ≠ .of 'x' ∧ letter ≠ .of 'X') : CutsRadix input .decimal input

/-- A point with the longest run of digits behind it, if there is a point. -/
inductive CutsFraction (isDigit : CodeUnit → Bool) :
    List CodeUnit → Option (List CodeUnit) → List CodeUnit → Prop where
  | absent {input : List CodeUnit} (pointless : input.head? ≠ some (.of '.')) :
      CutsFraction isDigit input none input
  | present {input digits rest : List CodeUnit} (run : LongestRun isDigit input digits rest) :
      CutsFraction isDigit (.of '.' :: input) (some digits) rest

/-- A plus or a minus, if there is one. -/
inductive CutsSign : List CodeUnit → Option CodeUnit → List CodeUnit → Prop where
  | absent {input : List CodeUnit} (unsigned : input.head? ≠ some (.of '+') ∧ input.head? ≠ some (.of '-')) :
      CutsSign input none input
  | present {sign : CodeUnit} {rest : List CodeUnit} (signs : sign = .of '+' ∨ sign = .of '-') :
      CutsSign (sign :: rest) (some sign) rest

/-- The mark of an exponent, a sign and the longest run of decimal digits, if there is a mark. -/
inductive CutsExponent (isMark : CodeUnit → Bool) :
    List CodeUnit → Option Exponent → List CodeUnit → Prop where
  | absent {input : List CodeUnit} (unmarked : Stops isMark input) : CutsExponent isMark input none input
  | present {mark : CodeUnit} {input afterSign digits rest : List CodeUnit} {sign : Option CodeUnit}
      (marks : isMark mark = true) (signed : CutsSign input sign afterSign)
      (run : LongestRun CodeUnit.isDigit afterSign digits rest) :
      CutsExponent isMark (mark :: input) (some ⟨mark, sign, digits⟩) rest

/-- How a numeral is cut off the front of the input. Behind a significand without digits
    nothing is taken. -/
inductive Cuts : List CodeUnit → Numeral → List CodeUnit → Prop where
  | filled {radix : Radix} {input afterRadix whole afterWhole afterFraction rest : List CodeUnit}
      {fraction : Option (List CodeUnit)} {exponent : Option Exponent}
      (marked : CutsRadix input radix afterRadix) (run : LongestRun radix.isDigit afterRadix whole afterWhole)
      (pointed : CutsFraction radix.isDigit afterWhole fraction afterFraction)
      (digits : whole ≠ [] ∨ fraction.getD [] ≠ [])
      (raised : CutsExponent radix.isExponentMark afterFraction exponent rest) :
      Cuts input ⟨radix, whole, fraction, exponent⟩ rest
  | empty {radix : Radix} {input afterRadix rest : List CodeUnit} {fraction : Option (List CodeUnit)}
      (marked : CutsRadix input radix afterRadix) (none : Stops radix.isDigit afterRadix)
      (pointed : CutsFraction radix.isDigit afterRadix fraction rest) (pointless : fraction.getD [] = []) :
      Cuts input ⟨radix, [], fraction, .none⟩ rest

/-- Some part of the numeral lacks the digits that it needs. -/
def LacksDigits (n : Numeral) : Prop :=
  n.digits = [] ∨ ∃ e ∈ n.exponent, e.digits = []

section Cuts

variable {radix : Radix} {input rest afterRadix : List CodeUnit}

theorem cutsRadix_iff : CutsRadix input radix afterRadix
    ↔ Radix.ofUnits input = radix ∧ input.drop radix.text.length = afterRadix := by
  constructor
  · intro h
    cases h with
    | hexadecimal marks => exact ⟨if_pos (by simpa using marks), rfl⟩
    | decimal unmarked =>
        refine ⟨?_, rfl⟩
        unfold Radix.ofUnits
        split
        next u letter tail =>
          split
          next mark =>
            simp only [Bool.and_eq_true, Bool.or_eq_true, decide_eq_true_eq] at mark
            obtain ⟨noSmall, noLarge⟩ := unmarked letter tail (by rw [mark.1])
            exact absurd mark.2 (not_or.2 ⟨noSmall, noLarge⟩)
          · rfl
        · rfl
  · rintro ⟨rfl, rfl⟩
    unfold Radix.ofUnits
    split
    next u letter tail =>
      split
      next mark =>
        simp only [Bool.and_eq_true, Bool.or_eq_true, decide_eq_true_eq] at mark
        obtain ⟨rfl, marks⟩ := mark
        exact .hexadecimal marks
      next noMark =>
        refine .decimal fun first rest same => ?_
        cases same
        simpa using noMark
    next short => exact .decimal fun first rest same => absurd same (short _ _ _)

theorem cutsFraction_iff {fraction : Option (List CodeUnit)} :
    CutsFraction radix.isDigit input fraction rest ↔ readFraction radix input = (fraction, rest) := by
  constructor
  · intro h
    cases h with
    | absent pointless =>
        have ends : FractionEnds radix input none := by
          intro u first
          rw [show input.head? = some u from first] at pointless
          simpa using pointless
        exact readFraction_append ends
    | present run =>
        obtain ⟨digits, behind⟩ := longestRun_iff.1 run
        rw [readFraction, if_pos rfl, digits, behind]
  · intro same
    unfold readFraction at same
    split at same
    · cases same
      exact .absent (by simp)
    · split at same
      next point =>
        cases same
        subst point
        exact .present (longestRun_iff.2 ⟨rfl, rfl⟩)
      next other =>
        cases same
        exact .absent (by simpa using other)

theorem cutsSign_iff {sign : Option CodeUnit} : CutsSign input sign rest ↔ readSign input = (sign, rest) := by
  constructor
  · intro h
    cases h with
    | absent unsigned =>
        have ends : SignEnds input none := by
          intro u first
          rw [show input.head? = some u from first] at unsigned
          simpa [isSign] using unsigned
        exact readSign_append ends
    | present signs => exact if_pos (by simpa using signs)
  · intro same
    unfold readSign at same
    split at same
    · cases same
      exact .absent (by simp)
    · split at same
      next signs =>
        cases same
        exact .present (by simpa using signs)
      next other =>
        cases same
        exact .absent (by simpa using other)

theorem cutsExponent_iff {exponent : Option Exponent} :
    CutsExponent radix.isExponentMark input exponent rest ↔ readExponent radix input = (exponent, rest) := by
  constructor
  · intro h
    cases h with
    | absent unmarked => exact readExponent_append (show ExponentEnds radix input none from unmarked)
    | present marks signed run =>
        obtain ⟨digits, behind⟩ := longestRun_iff.1 run
        simp only [readExponent, marks, if_true, cutsSign_iff.1 signed, digits, behind]
  · intro same
    unfold readExponent at same
    split at same
    · cases same
      exact .absent Stops.nil
    next mark behind =>
      split at same
      next marks =>
        cases same
        exact .present marks (cutsSign_iff.2 rfl) (longestRun_iff.2 ⟨rfl, rfl⟩)
      next unmarked =>
        cases same
        refine .absent fun u first => ?_
        cases first
        simpa using unmarked

theorem cuts_take (input : List CodeUnit) : Cuts input (take input).value (take input).rest := by
  have marked : CutsRadix input (Radix.ofUnits input) _ := cutsRadix_iff.2 ⟨rfl, rfl⟩
  by_cases none : (take input).value.digits = []
  · obtain ⟨stops, pointless, -⟩ := read_of_no_digits none
    have same := take_of_behind (if_pos none)
    simp only [stops.takeWhile_eq_nil, stops.dropWhile_eq] at same
    rw [same]
    exact .empty marked stops (cutsFraction_iff.2 rfl) pointless
  · have digits : _ ∨ _ := not_and_or.1 (mt List.append_eq_nil_iff.2 none)
    rw [take_of_digits none]
    exact .filled marked (longestRun_iff.2 ⟨rfl, rfl⟩) (cutsFraction_iff.2 rfl) digits (cutsExponent_iff.2 rfl)

/-- A numeral is cut in one way, and this is how it is taken. -/
theorem cuts_iff {n : Numeral} : Cuts input n rest ↔ take input = ⟨n, n.text, rest⟩ := by
  constructor
  · intro h
    cases h with
    | @filled radix _ afterRadix whole _ _ _ fraction _ marked run pointed digits raised =>
        obtain ⟨rfl, rfl⟩ := cutsRadix_iff.1 marked
        obtain ⟨taken, behind⟩ := longestRun_iff.1 run
        have filled : ¬ whole ++ fraction.getD [] = [] := by
          rw [List.append_eq_nil_iff, not_and_or]
          exact digits
        simp only [take, taken, behind, cutsFraction_iff.1 pointed, if_neg filled, cutsExponent_iff.1 raised]
    | @empty radix _ afterRadix _ fraction marked none pointed pointless =>
        obtain ⟨rfl, rfl⟩ := cutsRadix_iff.1 marked
        simp only [take, none.takeWhile_eq_nil, none.dropWhile_eq, cutsFraction_iff.1 pointed,
          List.nil_append, pointless, if_true]
  · intro same
    have cuts := cuts_take input
    rwa [same] at cuts

theorem Cuts.text_append {n : Numeral} (h : Cuts input n rest) : n.text ++ rest = input := by
  have whole := text_append_rest_take input
  rwa [cuts_iff.1 h] at whole

theorem Cuts.unique {n other : Numeral} {rest' : List CodeUnit} (h : Cuts input n rest)
    (h' : Cuts input other rest') : other = n ∧ rest' = rest := by
  have same := (cuts_iff.1 h').symm.trans (cuts_iff.1 h)
  exact ⟨congrArg Cut.value same, congrArg Cut.rest same⟩

theorem isWellFormed_iff {n : Numeral} : n.isWellFormed = true ↔ ¬ n.LacksDigits := by
  cases exponent : n.exponent <;> simp [isWellFormed, LacksDigits, exponent]

theorem Cuts.read_eq {n : Numeral} (h : Cuts input n rest) :
    read input = if n.isWellFormed then .ok ⟨n, n.text, rest⟩ else .error ⟨.malformedNumber, [], n.text⟩ := by
  rw [read, cuts_iff.1 h]

end Cuts

section Written

/-- The mark of an exponent, an optional sign and at least one digit. -/
structure Exponent.IsWritten (radix : Radix) (e : Exponent) : Prop where
  mark : radix.isExponentMark e.mark = true
  sign : ∀ u ∈ e.sign, isSign u = true
  digits : ∀ u ∈ e.digits, u.isDigit = true
  filled : e.digits ≠ []

/-- Digits of the radix, at least one, with at most one point among them, and at most an exponent
    behind them. -/
structure IsWritten (n : Numeral) : Prop where
  digits : ∀ u ∈ n.digits, n.radix.isDigit u = true
  filled : n.digits ≠ []
  exponent : ∀ e ∈ n.exponent, e.IsWritten n.radix

/-- The text behind the numeral does not go on with it. -/
structure Ends (n : Numeral) (rest : List CodeUnit) : Prop where
  raised : n.exponent ≠ none → Stops CodeUnit.isDigit rest
  digit : n.exponent = none → Stops n.radix.isDigit rest
  mark : n.exponent = none → Stops n.radix.isExponentMark rest
  point : n.exponent = none → n.fraction = none → Stops (· == .of '.') rest

variable {n : Numeral} {input rest : List CodeUnit}

theorem Ends.nil (n : Numeral) : n.Ends [] :=
  ⟨fun _ => Stops.nil, fun _ => Stops.nil, fun _ => Stops.nil, fun _ _ => Stops.nil⟩

theorem IsWritten.not_lacksDigits (h : n.IsWritten) : ¬ n.LacksDigits := by
  rintro (none | ⟨e, member, none⟩)
  · exact h.filled none
  · exact (h.exponent e member).filled none

/-- No sign is a digit, so the sign of an exponent is told from its digits. -/
theorem Exponent.IsWritten.signEnds {radix : Radix} {e : Exponent} (h : e.IsWritten radix)
    (rest : List CodeUnit) : SignEnds (e.digits ++ rest) e.sign := by
  cases signed : e.sign with
  | some u => exact h.sign u signed
  | none =>
      obtain ⟨d, more, digits⟩ := List.exists_cons_of_ne_nil h.filled
      have digit := h.digits d (digits ▸ List.mem_cons_self)
      intro u first
      rw [digits] at first
      obtain rfl : d = u := Option.some.inj first
      rw [← Bool.not_eq_true]
      intro sign
      simp only [isSign, Bool.or_eq_true, beq_iff_eq] at sign
      rcases sign with rfl | rfl <;> cases digit

theorem IsWritten.stops_exponentText (h : n.IsWritten) {p : CodeUnit → Bool}
    (marks : ∀ u, n.radix.isExponentMark u = true → p u = false) (behind : n.exponent = none → Stops p rest) :
    Stops p (n.exponentText ++ rest) := by
  cases written : n.exponent with
  | none =>
      rw [exponentText, written]
      exact behind written
  | some e =>
      intro u first
      rw [exponentText, written] at first
      obtain rfl : e.mark = u := Option.some.inj first
      exact marks _ (h.exponent e written).mark

theorem IsWritten.maximal (h : n.IsWritten) (marked : Radix.ofUnits (n.text ++ rest) = n.radix)
    (ends : n.Ends rest) : Maximal n rest := by
  have digitEnds : Stops n.radix.isDigit (n.exponentText ++ rest) :=
    h.stops_exponentText (fun _ => Radix.isDigit_of_isExponentMark) ends.digit
  refine ⟨h.filled, marked, fun u member => h.digits u (List.mem_append_left _ member), ?_, ?_, ?_⟩
  · cases written : n.fraction with
    | none =>
        rw [fractionText, written]
        exact digitEnds
    | some digits =>
        intro u first
        rw [fractionText, written] at first
        obtain rfl : .of '.' = u := Option.some.inj first
        exact Radix.isDigit_point n.radix
  · cases written : n.fraction with
    | none =>
        refine h.stops_exponentText (fun u marks => ?_) fun none => ends.point none written
        rw [beq_eq_false_iff_ne]
        rintro rfl
        rw [Radix.isExponentMark_point] at marks
        cases marks
    | some digits =>
        refine ⟨fun u member => h.digits u ?_, digitEnds⟩
        rw [Numeral.digits, written]
        exact List.mem_append_right _ member
  · cases written : n.exponent with
    | none => exact ends.mark written
    | some e =>
        have raised := h.exponent e written
        exact ⟨raised.mark, raised.signEnds rest, raised.digits, ends.raised (by simp [written])⟩

theorem IsWritten.cuts (h : n.IsWritten) (marked : Radix.ofUnits (n.text ++ rest) = n.radix)
    (ends : n.Ends rest) : Cuts (n.text ++ rest) n rest :=
  cuts_iff.2 (h.maximal marked ends).take_append

theorem Cuts.maximal (cuts : Cuts input n rest) (filled : n.digits ≠ []) : Maximal n rest := by
  have maximal : (take input).value.digits ≠ [] → Maximal (take input).value (take input).rest := maximal_take
  rw [cuts_iff.1 cuts] at maximal
  exact maximal filled

theorem Cuts.isWritten (cuts : Cuts input n rest) (filled : ¬ n.LacksDigits) : n.IsWritten := by
  obtain ⟨digits, exponents⟩ := not_or.1 filled
  have maximal := cuts.maximal digits
  refine ⟨fun u member => ?_, digits, fun e written => ?_⟩
  · rcases List.mem_append.1 member with whole | fraction
    · exact maximal.whole_digits u whole
    · have inside := maximal.fraction_ends
      cases written : n.fraction with
      | none => simp [written] at fraction
      | some behind =>
          rw [written] at inside fraction
          exact inside.1 u fraction
  · have raised := maximal.exponent_ends
    rw [show n.exponent = some e from written] at raised
    obtain ⟨mark, sign, digits, -⟩ := raised
    refine ⟨mark, fun u signed => ?_, digits, fun none => exponents ⟨e, written, none⟩⟩
    rwa [show e.sign = some u from signed] at sign

theorem Cuts.ends (cuts : Cuts input n rest) (filled : n.digits ≠ []) : n.Ends rest := by
  have maximal := cuts.maximal filled
  have behind (none : n.exponent = none) : n.exponentText ++ rest = rest := by
    rw [exponentText, none]
    rfl
  refine ⟨fun raised => ?_, fun none => ?_, fun none => ?_, fun none pointless => ?_⟩
  · have ends := maximal.exponent_ends
    obtain ⟨e, written⟩ := Option.ne_none_iff_exists'.1 raised
    rw [written] at ends
    exact ends.2.2.2
  · have ends := maximal.fraction_ends
    cases written : n.fraction with
    | none =>
        have whole := maximal.whole_ends
        rw [behind none, fractionText, written] at whole
        exact whole
    | some digits =>
        rw [behind none, written] at ends
        exact ends.2
  · have ends := maximal.exponent_ends
    rwa [none] at ends
  · have ends := maximal.fraction_ends
    rwa [behind none, pointless] at ends

end Written

/-- An exponent to base ten with an optional sign and at least one digit. -/
structure Exponent.IsDecimal (e : Exponent) : Prop where
  mark : e.mark = .of 'e' ∨ e.mark = .of 'E'
  sign : ∀ u ∈ e.sign, u = .of '+' ∨ u = .of '-'
  digits : ∀ u ∈ e.digits, u.isDigit = true
  filled : e.digits ≠ []

/-- Decimal digits, at least one, with at most one point among them, and at most an exponent
    behind them. -/
structure IsDecimal (n : Numeral) : Prop where
  radix : n.radix = .decimal
  digits : ∀ u ∈ n.digits, u.isDigit = true
  filled : n.digits ≠ []
  exponent : ∀ e ∈ n.exponent, e.IsDecimal

section Decimal

variable {n : Numeral} {input rest : List CodeUnit}

theorem Exponent.isDecimal_iff {e : Exponent} : e.IsDecimal ↔ e.IsWritten .decimal := by
  constructor
  · rintro ⟨mark, sign, digits, filled⟩
    exact ⟨by simpa [Radix.isExponentMark] using mark, by simpa [isSign] using sign, digits, filled⟩
  · rintro ⟨mark, sign, digits, filled⟩
    exact ⟨by simpa [Radix.isExponentMark] using mark, by simpa [isSign] using sign, digits, filled⟩

theorem isDecimal_iff : n.IsDecimal ↔ n.radix = .decimal ∧ n.IsWritten := by
  constructor
  · rintro ⟨radix, digits, filled, exponent⟩
    refine ⟨radix, ?_, filled, fun e member => ?_⟩
    · rwa [radix]
    · rw [radix]
      exact Exponent.isDecimal_iff.1 (exponent e member)
  · rintro ⟨radix, digits, filled, exponent⟩
    rw [radix] at digits exponent
    exact ⟨radix, digits, filled, fun e member => Exponent.isDecimal_iff.2 (exponent e member)⟩

theorem Cuts.isDecimal (h : Cuts input n rest) (decimal : n.radix = .decimal) (filled : ¬ n.LacksDigits) :
    n.IsDecimal :=
  isDecimal_iff.2 ⟨decimal, h.isWritten filled⟩

/-- The units of decimal numerals other than digits. -/
def decimalMarks : List CodeUnit :=
  [.of '.', .of 'e', .of 'E', .of '+', .of '-']

theorem Exponent.IsDecimal.mem_text {e : Exponent} (h : e.IsDecimal) :
    ∀ u ∈ e.text, u.isDigit = true ∨ u ∈ decimalMarks := by
  intro u member
  simp only [Exponent.text, List.cons_append, List.mem_cons, List.mem_append, Option.mem_toList] at member
  rcases member with rfl | sign | digit
  · rcases h.mark with mark | mark <;> simp [decimalMarks, mark]
  · rcases h.sign u sign with rfl | rfl <;> simp [decimalMarks]
  · exact .inl (h.digits u digit)

theorem IsDecimal.mem_text (h : n.IsDecimal) : ∀ u ∈ n.text, u.isDigit = true ∨ u ∈ decimalMarks := by
  intro u member
  rw [text_eq, h.radix, Radix.text, List.nil_append, List.mem_append, List.mem_append] at member
  rcases member with whole | fraction | exponent
  · exact .inl (h.digits u (List.mem_append_left _ whole))
  · cases written : n.fraction with
    | none => simp [fractionText, written] at fraction
    | some digits =>
        simp only [fractionText, written, Option.map_some, Option.getD_some, List.mem_cons] at fraction
        rcases fraction with rfl | digit
        · simp [decimalMarks]
        · exact .inl (h.digits u (List.mem_append_right _ (by simpa [written] using digit)))
  · cases written : n.exponent with
    | none => simp [exponentText, written] at exponent
    | some e =>
        rw [exponentText, written] at exponent
        exact (h.exponent e written).mem_text u exponent

theorem IsDecimal.unmarked (h : n.IsDecimal) : CutsRadix n.text .decimal n.text := by
  refine .decimal fun letter tail same => ?_
  have member := h.mem_text letter (by simp [same])
  constructor <;>
    · rintro rfl
      revert member
      decide

theorem IsDecimal.cuts (h : n.IsDecimal) : Cuts n.text n [] := by
  have marked := (cutsRadix_iff.1 h.unmarked).1
  rw [← h.radix, ← List.append_nil n.text] at marked
  have cuts := (isDecimal_iff.1 h).2.cuts marked (Ends.nil n)
  rwa [List.append_nil] at cuts

theorem IsDecimal.not_lacksDigits (h : n.IsDecimal) : ¬ n.LacksDigits :=
  (isDecimal_iff.1 h).2.not_lacksDigits

end Decimal

end Numeral

end LuaTokens
