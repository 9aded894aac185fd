import LuaTokens.Proofs.Lexeme.Seam
import LuaTokens.Proofs.Text.Point

/-! # What a fault is about

Reading fails at the construct that the fault names: at the quote of a string without an
end, at the bracket of a long one, at the backslash of an escape behind the elements of a
string, or at the lexeme that cannot be read as a whole. What an escape can be blamed for
depends on the unit behind its backslash and on the features of the dialect.
-/

namespace LuaTokens

namespace Escape

/-- Where an escape can have the fault: the unit behind the backslash, and the features. -/
def FaultyAt (features : FeatureSet) (u : CodeUnit) : Fault → Prop
  | .decimalEscapeTooLarge => u.isDigit = true
  | .hexDigitExpected =>
      u = .of 'x' ∧ .hexEscapes ∈ features ∨ u = .of 'u' ∧ .codePointEscapes ∈ features
  | .missingInEscape expected =>
      u = .of 'u' ∧ .codePointEscapes ∈ features ∧ (expected = '\x7b' ∨ expected = '\x7d')
  | .tooLargeCodePoint => u = .of 'u' ∧ .codePointEscapes ∈ features
  | .invalidEscape => isSelf u = false ∧ .strictEscapes ∈ features
  | _ => False

variable {features : FeatureSet} {u : CodeUnit} {rest input : List CodeUnit} {fault : Fault}

theorem FaultyAt.atEnd (h : FaultyAt features u fault) : fault.atEnd = false := by
  cases fault <;> first | rfl | cases h

theorem fault_of_decimal (error : (decimal input).outcome = .error fault) :
    fault = .decimalEscapeTooLarge := by
  simp only [decimal] at error
  split at error <;> cases error
  rfl

theorem fault_of_hexadecimal (error : (hexadecimal input).outcome = .error fault) :
    fault = .hexDigitExpected := by
  unfold hexadecimal at error
  split at error
  · split at error
    · exact (Except.error.inj error).symm
    split at error
    · exact (Except.error.inj error).symm
    · cases error
  · exact (Except.error.inj error).symm

theorem faultyAt_of_codePoint (letter : u = .of 'u') (has : .codePointEscapes ∈ features)
    (error : (codePoint input).outcome = .error fault) : FaultyAt features u fault := by
  have missing (expected : Char) (brace : expected = '\x7b' ∨ expected = '\x7d') :
      FaultyAt features u (.missingInEscape expected) := ⟨letter, has, brace⟩
  have digit : FaultyAt features u .hexDigitExpected := .inr ⟨letter, has⟩
  have large : FaultyAt features u .tooLargeCodePoint := ⟨letter, has⟩
  simp only [codePoint] at error
  split at error
  · cases error
    exact missing _ (.inl rfl)
  split at error
  · cases error
    exact digit
  split at error
  · cases error
    exact large
  split at error
  · split at error <;> cases error
    exact large
  split at error
  · cases error
    exact missing _ (.inr rfl)
  · cases error
    exact digit

/-- An escape is blamed only for what its letter and the dialect allow to be wrong. -/
theorem faultyAt_of_error (error : (read features u rest).outcome = .error fault) :
    FaultyAt features u fault := by
  unfold read at error
  split at error
  · cases error
  split at error
  · cases error
  split at error
  next digit =>
    rw [fault_of_decimal error]
    exact digit
  split at error
  · cases error
  split at error
  next hex =>
    rw [fault_of_hexadecimal error]
    exact .inl (by simpa using hex)
  split at error
  next braces =>
    simp only [Bool.and_eq_true, decide_eq_true_eq] at braces
    exact faultyAt_of_codePoint braces.1 braces.2 error
  split at error
  next strict =>
    cases error
    simp only [Bool.and_eq_true, Bool.not_eq_true', decide_eq_true_eq] at strict
    exact strict
  · cases error

end Escape

theorem Quoted.escape_of_misread {features : FeatureSet} {quote : CodeUnit} {input : List CodeUnit}
    {fault : Fault} {culprit : List CodeUnit}
    (h : step features quote input = .ending (.misread fault culprit)) :
    ∃ u more rest, culprit = .of '\\' :: u :: more ∧ input = culprit ++ rest
      ∧ Escape.FaultyAt features u fault := by
  have found := form features quote input
  rw [h] at found
  cases found with
  | @misread u _ rest _ error =>
      have positive := Escape.width_pos features u rest
      obtain ⟨n, width⟩ := Nat.exists_eq_succ_of_ne_zero (Nat.pos_iff_ne_zero.1 positive)
      refine ⟨u, rest.take n, rest.drop n, ?_, ?_, Escape.faultyAt_of_error error⟩
      · rw [width, List.take_succ_cons]
      · rw [width, List.take_succ_cons, List.cons_append, List.cons_append, List.take_append_drop]

theorem LongBracket.head_of_unclosed {input : List CodeUnit} (unclosed : read input = .unclosed) :
    input.head? = some (.of '[') := by
  unfold read at unclosed
  split at unclosed
  · cases unclosed
  next level opens =>
    rw [← opener_append_of_level? opens]
    rfl

namespace Lexeme

/-- The ways in which reading a lexeme fails, with what stands at the lexeme. -/
inductive Failing (g : Grammar) : List CodeUnit → Misreading → Prop where
  | unfinishedString {quote : CodeUnit} (text rest : List CodeUnit) (isQuote : quote.isQuote = true)
      (cutOff : ∀ u ∈ rest.head?, u.isBreak = true) :
      Failing g (quote :: (text ++ rest)) ⟨.unfinishedString, [], quote :: text⟩
  | escape {quote u : CodeUnit} {fault : Fault} {input : List CodeUnit} (more rest : List CodeUnit)
      (isQuote : quote.isQuote = true)
      (divided : input = (Quoted.body g.features quote input).text ++ (.of '\\' :: u :: more ++ rest))
      (faulty : Escape.FaultyAt g.features u fault) :
      Failing g (quote :: input)
        ⟨fault, quote :: (Quoted.body g.features quote input).text, .of '\\' :: u :: more⟩
  | longString {input : List CodeUnit} (unclosed : LongBracket.read input = .unclosed) :
      Failing g input ⟨.unfinishedLongString, [], input⟩
  | longComment {input : List CodeUnit} (unclosed : LongBracket.read input = .unclosed) :
      Failing g (.of '-' :: .of '-' :: input) ⟨.unfinishedLongComment, [.of '-', .of '-'], input⟩
  | delimiter (count : Nat) (rest : List CodeUnit) :
      Failing g (.of '[' :: List.replicate (count + 1) (.of '=') ++ rest)
        ⟨.invalidDelimiter, [], .of '[' :: List.replicate (count + 1) (.of '=')⟩
  | numeral {u : CodeUnit} {rest : List CodeUnit} (begins : beginsNumeral u rest = true) :
      Failing g (u :: rest) ⟨.malformedNumber, [], (Numeral.take (u :: rest)).text⟩
  | symbol {u : CodeUnit} {rest : List CodeUnit}
      (missing : Punctuator.leading? g.features (u :: rest) = none) :
      Failing g (u :: rest) ⟨.unexpectedSymbol, [], [u]⟩

section Failing

variable {g : Grammar} {input rest : List CodeUnit} {u quote : CodeUnit} {m : Misreading}

theorem failing_of_quoted (isQuote : quote.isQuote = true)
    (h : Quoted.read g.features quote input = .error m) : Failing g (quote :: input) m := by
  rcases Quoted.misreading_of_read h with ⟨tail, rest, rfl, divided, cutOff⟩ | ⟨rest, lead, divided, misread⟩
  · obtain ⟨_, same, -, ends⟩ := Quoted.tail_of_cutOff cutOff
    rw [List.append_cancel_left_eq] at same
    subst same
    have failing := Failing.unfinishedString (g := g)
      ((Quoted.body g.features quote input).text ++ tail) rest isQuote ends
    rwa [List.append_assoc, ← divided] at failing
  · obtain ⟨u, more, _, culprit, -, faulty⟩ := Quoted.escape_of_misread misread
    obtain ⟨fault, _, _⟩ := m
    cases lead
    cases culprit
    exact .escape more rest isQuote divided faulty

theorem exists_signs_of_absent (begins : beginsLongString u rest = true)
    (absent : LongBracket.level? (u :: rest) = none) :
    u = .of '[' ∧ ∃ count, (LongBracket.equalsSigns rest).length = count + 1 := by
  obtain ⟨rfl, second⟩ := beginsLongString_iff.1 begins
  refine ⟨rfl, ?_⟩
  rcases second with bracket | sign
  · obtain ⟨tail, rfl⟩ := List.head?_eq_some_iff.1 bracket
    have noSign : LongBracket.equalsSigns (.of '[' :: tail) = [] := rfl
    simp [LongBracket.level?, noSign] at absent
  · obtain ⟨tail, rfl⟩ := List.head?_eq_some_iff.1 sign
    exact ⟨_, rfl⟩

theorem failing_of_longString (begins : beginsLongString u rest = true)
    (h : readLongString (u :: rest) = .failed m) : Failing g (u :: rest) m := by
  rcases misreading_of_readLongString h with ⟨unclosed, rfl⟩ | ⟨absent, rfl⟩
  · exact .longString unclosed
  · obtain ⟨rfl, count, length⟩ := exists_signs_of_absent begins (LongBracket.read_eq_absent_iff.1 absent)
    have run := LongBracket.equalsSigns_append rest
    rw [length] at run
    have signs : rest.take (count + 1) = List.replicate (count + 1) (.of '=') := by
      rw [← run, List.take_left' List.length_replicate]
    have failing := Failing.delimiter (g := g) count (rest.drop (count + 1))
    rw [List.cons_append, run] at failing
    rw [List.drop_one, List.tail_cons, length, Nat.add_comm, List.take_succ_cons, signs]
    exact failing

theorem failing_of_failed (h : read g input = .failed m) : Failing g input m := by
  have found := form g input
  rw [h] at found
  generalize outcomeEq : Reading.failed m = outcome at found
  cases found with
  | finished | space | word => cases outcomeEq
  | comment line =>
      obtain ⟨unclosed, rfl⟩ := misreading_of_readComment outcomeEq.symm
      exact .longComment unclosed
  | quoted rest quote => exact failing_of_quoted quote (Reading.error_of_ofToken outcomeEq.symm)
  | @numeral u rest begins =>
      have failed := Reading.error_of_ofToken outcomeEq.symm
      unfold Numeral.read at failed
      simp only at failed
      split at failed
      · cases failed
      · cases failed
        exact .numeral begins
  | longString rest begins => exact failing_of_longString begins outcomeEq.symm
  | symbol rest =>
      obtain ⟨-, missing, rfl⟩ := misreading_of_readSymbol outcomeEq.symm
      exact .symbol missing

theorem Failing.lead_culprit_of_atEnd (h : Failing g input m) (atEnd : m.fault.atEnd = true) :
    m.lead ++ m.culprit = input := by
  cases h with
  | longString | longComment => rfl
  | escape _ _ _ _ faulty =>
      have inside : _ = false := faulty.atEnd
      rw [inside] at atEnd
      cases atEnd
  | _ => cases atEnd

/-- No other offending part begins like the word for the end of the source. -/
theorem Failing.head?_culprit_ne (h : Failing g input m) (inside : m.fault.atEnd = false) :
    m.culprit.head? ≠ some (.of '<') := by
  intro first
  cases h with
  | unfinishedString text rest isQuote =>
      cases first
      cases isQuote
  | escape => cases first
  | longString | longComment => cases inside
  | delimiter => cases first
  | @numeral u rest begins =>
      obtain ⟨tail, text⟩ : ∃ tail, (Numeral.take (u :: rest)).text = .of '<' :: tail :=
        List.head?_eq_some_iff.1 first
      have whole := Numeral.text_append_rest_take (u :: rest)
      rw [text, List.cons_append] at whole
      obtain ⟨rfl, -⟩ := List.cons.inj whole
      cases begins
  | symbol missing =>
      cases first
      rw [Punctuator.leading?, List.find?_eq_none] at missing
      exact missing .less (Punctuator.mem_all .less) rfl

end Failing

end Lexeme

end LuaTokens
