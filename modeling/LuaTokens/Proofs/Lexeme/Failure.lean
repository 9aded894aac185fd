import LuaTokens.Proofs.Lexeme.Lookahead
import LuaTokens.Proofs.Lexeme.Seam

/-! # What a failure looks at

A lexeme that cannot be read is found to be so by its own units and the one behind them.
So reading fails alike before any text that begins like the old one, with the same fault
and the same offending part.
-/

namespace LuaTokens

namespace Quoted

variable {features : FeatureSet} {quote : CodeUnit} {input rest other : List CodeUnit}

theorem step_misread_append {fault : Fault} {culprit : List CodeUnit}
    (h : step features quote (culprit ++ rest) = .ending (.misread fault culprit))
    (same : other.head? = rest.head?) :
    step features quote (culprit ++ other) = .ending (.misread fault culprit) := by
  cases rest with
  | nil =>
      obtain rfl := List.head?_eq_none_iff.1 same
      exact h
  | cons w more =>
      have found := form features quote (culprit ++ w :: more)
      rw [h] at found
      generalize inputEq : culprit ++ w :: more = whole at found
      generalize endingEq : Step.ending (.misread fault culprit) = ending at found
      cases found with
      | finished | closed | lineBreak | bare => cases endingEq
      | plain => cases endingEq
      | escape => cases endingEq
      | @misread v _ tail inside error =>
          cases endingEq
          -- The escape ends before the source, so it takes as many units as it is wide.
          obtain ⟨n, width⟩ : ∃ n, (Escape.read features v tail).width = n + 1 :=
            ⟨_, (Nat.succ_pred_eq_of_pos (Escape.width_pos features v tail)).symm⟩
          rw [width, List.take_succ_cons] at inputEq ⊢
          have behind : tail.take n ++ w :: more = tail := (List.cons.inj (List.cons.inj inputEq).2).2
          have length : (tail.take n).length = n := by
            have fits := congrArg List.length behind
            simp only [List.length_append, List.length_take, List.length_cons] at fits ⊢
            omega
          have now : Escape.read features v (tail.take n ++ other) = Escape.read features v tail := by
            have reading : Escape.read features v (tail.take n ++ other)
                = Escape.read features v (tail.take n ++ w :: more) :=
              Escape.read_append (by rw [behind, length, width]) same
            rwa [behind] at reading
          have still : (Escape.read features v (tail.take n ++ other)).outcome = .error fault := by
            rw [now, error]
          have misread := step_misread inside still
          rw [now, width, List.take_succ_cons, List.take_left' length] at misread
          exact misread

theorem step_cutOff_append {tail : List CodeUnit}
    (h : step features quote (tail ++ rest) = .ending (.cutOff tail)) (same : other.head? = rest.head?) :
    step features quote (tail ++ other) = .ending (.cutOff tail) := by
  cases rest with
  | nil =>
      obtain rfl := List.head?_eq_none_iff.1 same
      exact h
  | cons w more =>
      obtain ⟨after, rfl⟩ := List.head?_eq_some_iff.1 same
      have found := form features quote (tail ++ w :: more)
      rw [h] at found
      generalize inputEq : tail ++ w :: more = whole at found
      generalize endingEq : Step.ending (.cutOff tail) = ending at found
      cases found with
      | finished => simp at inputEq
      | closed | misread => cases endingEq
      | plain | escape => cases endingEq
      | lineBreak _ inside broken =>
          cases endingEq
          obtain ⟨rfl, -⟩ := List.cons.inj inputEq
          simp [step, inside, broken]
      | bare =>
          cases endingEq
          cases inputEq

theorem body_append_of_part {part : List CodeUnit} {ending : Ending}
    (divided : input = (body features quote input).text ++ (part ++ rest))
    (same : other.head? = rest.head?)
    (ends : step features quote (part ++ other) = .ending ending) :
    body features quote ((body features quote input).text ++ (part ++ other))
      = ⟨(body features quote input).elements, ending, part ++ other⟩ := by
  apply body_append _ ends
  rw [rest_body_eq divided, List.head?_append, List.head?_append, same]

theorem read_append_of_error {m : Misreading} (h : read features quote input = .error m)
    (divided : quote :: input = m.lead ++ (m.culprit ++ rest)) (same : other.head? = rest.head?) :
    ∃ after, m.lead ++ (m.culprit ++ other) = quote :: after
      ∧ read features quote after = .error m := by
  rcases misreading_of_read h with ⟨tail, behind, rfl, parted, cutOff⟩ | ⟨behind, lead, parted, misread⟩
  · simp only [List.nil_append, List.cons_append, List.cons.injEq, true_and, List.append_assoc] at divided ⊢
    obtain rfl : behind = rest := by simpa using parted.symm.trans divided
    have now := body_append_of_part divided same (step_cutOff_append cutOff same)
    exact ⟨_, rfl, by simp only [read, now]; rfl⟩
  · obtain ⟨fault, _, culprit⟩ := m
    cases lead
    simp only [List.cons_append, List.cons.injEq, true_and] at divided ⊢
    obtain rfl : behind = rest := by simpa using parted.symm.trans divided
    have now := body_append_of_part divided same (step_misread_append misread same)
    exact ⟨_, rfl, by simp only [read, now]; rfl⟩

end Quoted

namespace Numeral

variable {text rest other : List CodeUnit} {m : Misreading}

theorem read_pointed {radix : Radix} {fraction : Option (List CodeUnit)}
    (radix_eq : Radix.ofUnits (significandText radix [] fraction ++ rest) = radix)
    (empty : fraction.getD [] = []) (ends : FractionEnds radix rest fraction)
    (stops : Stops radix.isDigit ((fraction.map (.of '.' :: ·)).getD [] ++ rest)) :
    read (significandText radix [] fraction ++ rest)
      = .error ⟨.malformedNumber, [], significandText radix [] fraction⟩ := by
  have dropped : (significandText radix [] fraction ++ rest).drop radix.text.length
      = (fraction.map (.of '.' :: ·)).getD [] ++ rest := by
    simp [significandText]
  have digits : (take (significandText radix [] fraction ++ rest)).value.digits = [] := by
    have all := digits_take (significandText radix [] fraction ++ rest)
    simp only [radix_eq, dropped, stops.takeWhile_eq_nil, stops.dropWhile_eq,
      readFraction_append ends, empty] at all
    exact all
  obtain ⟨-, -, failed⟩ := read_of_no_digits digits
  simpa only [radix_eq, dropped, readFraction_append ends] using failed

theorem radix_append {radix : Radix} {tail : List CodeUnit} (nonempty : radix.text ++ tail ≠ [])
    (follows : Follows rest other) (h : Radix.ofUnits (radix.text ++ tail ++ rest) = radix) :
    Radix.ofUnits (radix.text ++ tail ++ other) = radix := by
  cases radix with
  | decimal => exact Radix.ofUnits_append nonempty follows h
  | hexadecimal letter => exact h

theorem read_append_of_no_digits (none : (take (text ++ rest)).value.digits = [])
    (h : read (text ++ rest) = .error ⟨.malformedNumber, [], text⟩) (nonempty : text ≠ [])
    (follows : Follows rest other) :
    read (text ++ other) = .error ⟨.malformedNumber, [], text⟩ := by
  obtain ⟨stops, empty, failed⟩ := read_of_no_digits none
  have front := text_radix_ofUnits (text ++ rest)
  generalize radixEq : Radix.ofUnits (text ++ rest) = radix at *
  generalize afterEq : (text ++ rest).drop radix.text.length = afterRadix at *
  have ends := fractionEnds_readFraction radix afterRadix
  have behind := text_readFraction radix afterRadix
  generalize fractionEq : readFraction radix afterRadix = fraction at *
  obtain rfl : text = significandText radix [] fraction.1 := by
    simpa only [h, Except.error.injEq, Misreading.mk.injEq, true_and] using failed
  have same : fraction.2 = rest := by
    rw [← behind, significandText, List.append_nil, ← List.append_assoc] at front
    exact List.append_cancel_left front
  rw [same] at ends behind
  rw [← behind] at stops
  apply read_pointed _ empty
  · cases found : fraction.1 with
    | none =>
        rw [found] at ends
        exact follows.stops isPoint_spaces ends
    | some digits =>
        rw [found] at ends
        exact ⟨ends.1, follows.stops radix.isDigit_spaces ends.2⟩
  · exact (follows.append _).stops radix.isDigit_spaces stops
  · rw [significandText, List.append_nil] at radixEq nonempty ⊢
    exact radix_append nonempty follows radixEq

theorem read_append_of_error (h : read (text ++ rest) = .error ⟨.malformedNumber, [], text⟩)
    (nonempty : text ≠ []) (follows : Follows rest other) :
    read (text ++ other) = .error ⟨.malformedNumber, [], text⟩ := by
  by_cases none : (take (text ++ rest)).value.digits = []
  · exact read_append_of_no_digits none h nonempty follows
  have whole := text_append_rest_take (text ++ rest)
  have maximal := maximal_take none
  have taken := take_of_digits none
  have same : (take (text ++ rest)).text = (take (text ++ rest)).value.text := by rw [taken]
  unfold read at h
  simp only at h
  split at h
  · cases h
  next malformed =>
    simp only [Except.error.injEq, Misreading.mk.injEq, true_and] at h
    rw [h] at whole same
    rw [List.append_cancel_left whole] at maximal
    have now := (maximal.of_follows follows).take_append
    rw [← same] at now
    simp only [read, now, malformed]
    rfl

end Numeral

namespace Lexeme

variable {g : Grammar} {u : CodeUnit} {tail rest other : List CodeUnit} {m : Misreading}

theorem readLongString_append_of_failed
    (h : readLongString (.of '[' :: (tail ++ rest))
      = .failed ⟨.invalidDelimiter, [], .of '[' :: tail⟩)
    (follows : Follows rest other) :
    readLongString (.of '[' :: (tail ++ other))
      = .failed ⟨.invalidDelimiter, [], .of '[' :: tail⟩ := by
  rcases misreading_of_readLongString h with ⟨-, same⟩ | ⟨absent, same⟩
  · cases congrArg Misreading.fault same
  have signs : (tail ++ rest).takeWhile (· == .of '=') = tail := by
    simp only [LongBracket.equalsSigns, List.drop_succ_cons, List.drop_zero, Nat.add_comm 1,
      List.take_succ_cons, Misreading.mk.injEq, true_and, List.cons.injEq] at same
    rw [← List.prefix_iff_eq_take.1 (List.takeWhile_prefix _)] at same
    exact same.symm
  have all : ∀ v ∈ tail, (v == .of '=') = true := by
    intro v member
    rw [← signs] at member
    exact List.mem_takeWhile_imp (p := fun v : CodeUnit => v == .of '=') member
  have noSign : ∀ v ∈ CodeUnit.spaces, (v == .of '=') = false := CodeUnit.forall_of_any (by decide)
  have now : LongBracket.equalsSigns (tail ++ other) = tail :=
    (follows.stops noSign (stops_of_takeWhile_append signs)).takeWhile_append all
  have still : LongBracket.level? (.of '[' :: (tail ++ other)) = none := by
    have unopened := LongBracket.read_eq_absent_iff.1 absent
    simp only [LongBracket.level?, LongBracket.equalsSigns, signs, List.drop_left] at unopened
    simp only [LongBracket.level?, now, List.drop_left]
    refine if_neg fun opens => ?_
    simp only [Bool.and_eq_true, decide_eq_true_eq, true_and] at opens
    rw [follows.head_of_not_space opens (by decide)] at unopened
    simp at unopened
  rw [readLongString, LongBracket.read_eq_absent_iff.2 still]
  simp only [List.drop_succ_cons, List.drop_zero, now, Nat.add_comm 1, List.take_succ_cons,
    List.take_left]

theorem readSymbol_append_of_failed (h : readSymbol g (u :: rest) = .failed m)
    (follows : Follows rest other) : readSymbol g (u :: other) = .failed m := by
  obtain ⟨-, missing, rfl⟩ := misreading_of_readSymbol h
  have still : Punctuator.leading? g.features (u :: other) = none := by
    rw [Punctuator.leading?, List.find?_eq_none] at missing ⊢
    intro sign member fits
    apply missing sign member
    simp only [Bool.and_eq_true, List.isPrefixOf_iff_prefix] at fits ⊢
    have short : sign.units.length ≤ [u].length + 1 := sign.length_units.2
    exact ⟨fits.1, follows.prefix_append sign.isSpace_units short fits.2⟩
  have noDots : ¬ varargUnits.isPrefixOf (u :: other) = true := by
    intro dots
    have dot : Punctuator.dot.units <+: u :: other :=
      List.IsPrefix.trans (by decide) (List.isPrefixOf_iff_prefix.1 dots)
    rw [Punctuator.leading?, List.find?_eq_none] at still
    apply still .dot (Punctuator.mem_all .dot)
    simpa [List.isPrefixOf_iff_prefix] using ⟨rfl, dot⟩
  rw [readSymbol, if_neg noDots, still]
  rfl

theorem exists_text_of_readNumeral (h : Numeral.read (u :: rest) = .error m)
    (begins : beginsNumeral u rest = true) :
    ∃ tail, m = ⟨.malformedNumber, [], u :: tail⟩ ∧ ∃ behind, rest = tail ++ behind := by
  have nonempty := text_ne_nil_of_beginsNumeral begins
  have whole := Numeral.text_append_rest_take (u :: rest)
  obtain ⟨v, tail, text⟩ := List.exists_cons_of_ne_nil nonempty
  rw [text, List.cons_append] at whole
  obtain ⟨rfl, behind⟩ := List.cons.inj whole
  refine ⟨tail, ?_, _, behind.symm⟩
  unfold Numeral.read at h
  simp only at h
  split at h
  · cases h
  · rw [← text]
    exact (Except.error.inj h).symm

theorem exists_signs_of_readLongString {rest : List CodeUnit}
    (h : readLongString (.of '[' :: rest) = .failed m) :
    m = ⟨.unfinishedLongString, [], .of '[' :: rest⟩
      ∨ ∃ tail behind, m = ⟨.invalidDelimiter, [], .of '[' :: tail⟩ ∧ rest = tail ++ behind := by
  rcases misreading_of_readLongString h with ⟨-, rfl⟩ | ⟨-, rfl⟩
  · exact .inl rfl
  · rw [Nat.add_comm, List.take_succ_cons]
    exact .inr ⟨_, _, rfl, (List.take_append_drop _ rest).symm⟩

section Behind

variable (same : other.head? = rest.head?)
include same

theorem read_append_of_malformed (begins : beginsNumeral u (tail ++ rest) = true)
    (failed : Numeral.read (u :: (tail ++ rest)) = .error ⟨.malformedNumber, [], u :: tail⟩) :
    read g (u :: (tail ++ other)) = .failed ⟨.malformedNumber, [], u :: tail⟩ := by
  have misread : Numeral.read (u :: tail ++ rest) = .error ⟨.malformedNumber, [], u :: tail⟩ := failed
  have now := Numeral.read_append_of_error misread (List.cons_ne_nil u tail) (Follows.of_head_eq same)
  rw [List.cons_append] at now
  have stillBegins : beginsNumeral u (tail ++ other) = true := by
    rw [beginsNumeral, List.head?_append, same, ← List.head?_append]
    exact begins
  rw [read_numeral stillBegins, now]
  rfl

theorem read_append_of_unopened (begins : beginsLongString (.of '[') (tail ++ rest) = true)
    (failed : readLongString (.of '[' :: (tail ++ rest))
      = .failed ⟨.invalidDelimiter, [], .of '[' :: tail⟩) :
    read g (.of '[' :: (tail ++ other)) = .failed ⟨.invalidDelimiter, [], .of '[' :: tail⟩ := by
  have stillBegins : beginsLongString (.of '[') (tail ++ other) = true := by
    rw [beginsLongString, List.head?_append, same, ← List.head?_append]
    exact begins
  rw [read_longString stillBegins]
  exact readLongString_append_of_failed failed (Follows.of_head_eq same)

end Behind

/-- A lexeme that cannot be read cannot be read before any text that begins like the old one,
    and for the same reason. -/
theorem read_append_of_failed (h : read g (m.lead ++ (m.culprit ++ rest)) = .failed m)
    (same : other.head? = rest.head?) : read g (m.lead ++ (m.culprit ++ other)) = .failed m := by
  have follows := Follows.of_head_eq same
  cases rest with
  | nil =>
      obtain rfl := List.head?_eq_none_iff.1 same
      exact h
  | cons w more =>
      have found := form g (m.lead ++ (m.culprit ++ w :: more))
      rw [h] at found
      generalize inputEq : m.lead ++ (m.culprit ++ w :: more) = input at found
      generalize outcomeEq : Reading.failed m = outcome at found
      cases found with
      | finished | space | word => cases outcomeEq
      | comment line =>
          obtain ⟨-, rfl⟩ := misreading_of_readComment outcomeEq.symm
          simp at inputEq
      | @quoted u line quote =>
          have failed := Reading.error_of_ofToken outcomeEq.symm
          obtain ⟨after, divided, now⟩ := Quoted.read_append_of_error failed inputEq.symm same
          rw [divided, read_quoted quote, now, failed]
      | numeral line begins =>
          have failed := Reading.error_of_ofToken outcomeEq.symm
          obtain ⟨tail, rfl, -⟩ := exists_text_of_readNumeral failed begins
          obtain rfl : tail ++ w :: more = line := (List.cons.inj inputEq).2
          exact (read_append_of_malformed same begins failed).trans outcomeEq
      | longString line begins =>
          obtain ⟨rfl, second⟩ := beginsLongString_iff.1 begins
          rcases exists_signs_of_readLongString outcomeEq.symm with rfl | ⟨tail, behind, rfl, rfl⟩
          · simp at inputEq
          · obtain rfl : w :: more = behind := List.append_cancel_left (List.cons.inj inputEq).2
            exact (read_append_of_unopened same begins outcomeEq.symm).trans outcomeEq
      | @symbol u line unspaced noComment noWord noQuote noNumeral noLongString =>
          have failed := outcomeEq.symm
          obtain ⟨-, -, rfl⟩ := misreading_of_readSymbol failed
          obtain rfl : w :: more = line := (List.cons.inj inputEq).2
          show read g (u :: other) = _
          rw [read_symbol unspaced (beginsComment_of_follows follows noComment) noWord noQuote
            (beginsNumeral_of_follows follows noNumeral)
            (beginsLongString_of_follows follows noLongString)]
          exact (readSymbol_append_of_failed failed follows).trans failed.symm

end Lexeme

end LuaTokens
