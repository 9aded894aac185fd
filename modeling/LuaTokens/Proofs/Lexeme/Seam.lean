import LuaTokens.Proofs.Lexeme.Form
import LuaTokens.Proofs.Lexeme.LongBracket
import LuaTokens.Proofs.Lexeme.Numeral
import LuaTokens.Proofs.Lexeme.Quoted
import LuaTokens.Proofs.Position.LineBreak

/-! # Lexemes end at seams

No line break spans the end of a lexeme, since a lexeme other than white space ends in
a unit of its own and white space takes all line breaks that there are. When reading
fails, the offending part begins at a seam as well.
-/

namespace LuaTokens

theorem LongBracket.getLast?_closedText (level : Nat) (lead body : List CodeUnit) :
    (closedText level lead body).getLast? = some (.of ']') := by
  have shape : closedText level lead body
      = opener level ++ (lead ++ (body ++ .of ']' :: List.replicate level (.of '='))) ++ [.of ']'] := by
    simp [closedText, closer]
  rw [shape, List.getLast?_concat]

theorem LongBracket.seam_of_read {input : List CodeUnit} {cut : Cut (List CodeUnit)}
    (h : read input = .closed cut) (before after : List CodeUnit) :
    Seam (before ++ cut.text) after := by
  obtain ⟨level, lead, _, text, _⟩ := exists_isClosed_of_read h
  apply Seam.of_getLast
  intro u last
  rw [text, List.getLast?_append, getLast?_closedText] at last
  cases last
  decide

namespace Numeral

theorem isBreak_radix {input : List CodeUnit} :
    ∀ u ∈ (Radix.ofUnits input).text, u.isBreak = false := by
  apply CodeUnit.forall_of_any
  unfold Radix.ofUnits
  split
  next letter _ =>
    split
    next mark =>
      simp only [Bool.and_eq_true, Bool.or_eq_true, decide_eq_true_eq] at mark
      rcases mark.2 with rfl | rfl <;> decide
    · decide
  · decide

theorem Maximal.isBreak_text {n : Numeral} {rest : List CodeUnit} (h : Maximal n rest) :
    ∀ u ∈ n.text, u.isBreak = false := by
  intro u member
  rw [text_eq, List.mem_append, List.mem_append, List.mem_append] at member
  rcases member with radix | whole | fraction | exponent
  · rw [← h.radix_eq] at radix
    exact isBreak_radix u radix
  · exact CodeUnit.isBreak_eq_false n.radix.isDigit_spaces (h.whole_digits u whole)
  · have ends := h.fraction_ends
    cases same : n.fraction with
    | none => simp [fractionText, same] at fraction
    | some digits =>
        rw [same] at ends
        simp only [fractionText, same, Option.map_some, Option.getD_some, List.mem_cons] at fraction
        rcases fraction with rfl | digit
        · decide
        · exact CodeUnit.isBreak_eq_false n.radix.isDigit_spaces (ends.1 u digit)
  · have ends := h.exponent_ends
    cases same : n.exponent with
    | none => simp [exponentText, same] at exponent
    | some e =>
        rw [same] at ends
        obtain ⟨mark, sign, digits, -⟩ := ends
        simp only [exponentText, same, Option.map_some, Option.getD_some, Exponent.text,
          List.cons_append, List.mem_cons, List.mem_append, Option.mem_toList] at exponent
        rcases exponent with rfl | signed | digit
        · exact CodeUnit.isBreak_eq_false n.radix.isExponentMark_spaces mark
        · rw [show e.sign = some u from signed] at sign
          exact CodeUnit.isBreak_eq_false isSign_spaces sign
        · exact CodeUnit.isBreak_eq_false CodeUnit.isDigit_spaces (digits u digit)

theorem isBreak_of_misread {input text : List CodeUnit}
    (h : read input = .error ⟨.malformedNumber, [], text⟩) : ∀ u ∈ text, u.isBreak = false := by
  by_cases none : (take input).value.digits = []
  · obtain ⟨-, empty, failed⟩ := read_of_no_digits none
    simp only [h, Except.error.injEq, Misreading.mk.injEq, true_and] at failed
    intro u member
    rw [failed, significandText, List.append_nil, List.mem_append] at member
    rcases member with radix | point
    · exact isBreak_radix u radix
    · generalize (readFraction _ _).1 = fraction at empty point
      cases fraction with
      | none => cases point
      | some digits =>
          obtain rfl : digits = [] := empty
          obtain rfl := List.mem_singleton.1 point
          decide
  · have same : (take input).text = (take input).value.text := by rw [take_of_digits none]
    have unbroken := (maximal_take none).isBreak_text
    unfold read at h
    simp only at h
    split at h
    · cases h
    · simp only [Except.error.injEq, Misreading.mk.injEq, true_and] at h
      rw [← h, same]
      exact unbroken

end Numeral

namespace Lexeme

theorem seam_of_readComment {dashes input : List CodeUnit} {cut : Cut Lexeme}
    (unbroken : ∀ u ∈ dashes, u.isBreak = false) (h : readComment dashes input = .read cut) :
    Seam cut.text cut.rest := by
  rcases cut_of_readComment h with ⟨inner, closed, rfl⟩ | ⟨-, rfl⟩
  · exact LongBracket.seam_of_read closed dashes _
  · apply Seam.of_forall
    intro u member
    rcases List.mem_append.1 member with dash | inside
    · exact unbroken u dash
    · simpa using List.mem_takeWhile_imp inside

theorem isBreak_punctuator (p : Punctuator) : ∀ u ∈ p.units, u.isBreak = false := by
  apply CodeUnit.forall_of_any
  cases p <;> decide

theorem isBreak_of_readSymbol {g : Grammar} {input : List CodeUnit} {cut : Cut Lexeme}
    (h : readSymbol g input = .read cut) : ∀ u ∈ cut.text, u.isBreak = false := by
  intro u member
  rcases cut_of_readSymbol h with ⟨dots, rfl⟩ | ⟨sign, _, _, fits, rfl⟩
  · rw [Cut.ofWidth, ← List.prefix_iff_eq_take.1 dots] at member
    have unbroken : ∀ v ∈ varargUnits, v.isBreak = false := CodeUnit.forall_of_any (by decide)
    exact unbroken u member
  · rw [Cut.ofWidth, ← List.prefix_iff_eq_take.1 fits] at member
    exact isBreak_punctuator sign u member

theorem seam_of_readQuoted {features : FeatureSet} {quote : CodeUnit} {input : List CodeUnit}
    {cut : Cut ByteString} (isQuote : quote.isQuote = true)
    (h : Quoted.read features quote input = .ok cut) : Seam cut.text cut.rest := by
  apply Seam.of_getLast
  intro u last
  unfold Quoted.read at h
  simp only at h
  split at h
  · cases h
    rw [List.getLast?_concat] at last
    cases last
    exact CodeUnit.isBreak_of_isQuote isQuote
  all_goals cases h

theorem isBreak_of_readNumeral {input : List CodeUnit} {cut : Cut Numeral}
    (h : Numeral.read input = .ok cut) : ∀ u ∈ cut.text, u.isBreak = false := by
  unfold Numeral.read at h
  simp only at h
  split at h
  next wellFormed =>
    cases h
    simp only [Numeral.isWellFormed, Bool.and_eq_true, decide_eq_true_eq] at wellFormed
    exact (Numeral.maximal_take wellFormed.1).isBreak_text
  · cases h

theorem isBreak_readWord (g : Grammar) (input : List CodeUnit) :
    ∀ u ∈ (readWord g input).text, u.isBreak = false := by
  intro u member
  exact CodeUnit.isBreak_eq_false (CodeUnit.isNamePart_spaces _) (List.mem_takeWhile_imp member)

/-- No line break spans the end of a lexeme. -/
theorem seam_of_read {g : Grammar} {input : List CodeUnit} {cut : Cut Lexeme}
    (h : read g input = .read cut) : Seam cut.text cut.rest := by
  have found := form g input
  rw [h] at found
  generalize outcomeEq : Reading.read cut = outcome at found
  cases found with
  | finished => cases outcomeEq
  | space rest space =>
      cases outcomeEq
      apply Seam.of_head
      intro v first
      cases broken : v.isBreak with
      | false => rfl
      | true =>
          have unspaced := stops_dropWhile _ v first
          rw [CodeUnit.isSpace_of_isBreak broken] at unspaced
          cases unspaced
  | comment rest => exact seam_of_readComment (CodeUnit.forall_of_any (by decide)) outcomeEq.symm
  | @word u rest first =>
      cases outcomeEq
      exact Seam.of_forall (isBreak_readWord g (u :: rest)) _
  | quoted rest quote =>
      obtain ⟨inner, read, rfl⟩ := Reading.exists_of_ofToken outcomeEq.symm
      exact seam_of_readQuoted quote read
  | numeral rest begins =>
      obtain ⟨inner, read, rfl⟩ := Reading.exists_of_ofToken outcomeEq.symm
      exact Seam.of_forall (isBreak_of_readNumeral read) _
  | longString rest begins =>
      obtain ⟨inner, closed, rfl⟩ := cut_of_readLongString outcomeEq.symm
      exact LongBracket.seam_of_read closed [] _
  | symbol rest => exact Seam.of_forall (isBreak_of_readSymbol outcomeEq.symm) _

theorem isBreak_of_token {g : Grammar} {input : List CodeUnit} {cut : Cut Lexeme}
    {kind : Token.Kind} (h : read g input = .read cut) (token : cut.value = .token kind)
    (noString : kind.isString = false) : ∀ u ∈ cut.text, u.isBreak = false := by
  have found := form g input
  rw [h] at found
  generalize outcomeEq : Reading.read cut = outcome at found
  cases found with
  | finished => cases outcomeEq
  | space rest space =>
      cases outcomeEq
      cases token
  | comment rest =>
      rcases cut_of_readComment outcomeEq.symm with ⟨inner, -, rfl⟩ | ⟨-, rfl⟩ <;> cases token
  | @word u rest first =>
      cases outcomeEq
      exact isBreak_readWord g (u :: rest)
  | quoted rest quote =>
      obtain ⟨inner, -, rfl⟩ := Reading.exists_of_ofToken outcomeEq.symm
      cases token
      cases noString
  | numeral rest begins =>
      obtain ⟨inner, read, rfl⟩ := Reading.exists_of_ofToken outcomeEq.symm
      exact isBreak_of_readNumeral read
  | longString rest begins =>
      obtain ⟨inner, -, rfl⟩ := cut_of_readLongString outcomeEq.symm
      cases token
      cases noString
  | symbol rest => exact isBreak_of_readSymbol outcomeEq.symm

end Lexeme

/-- The offending part is not empty, stands in the input behind the lead, and begins
    at a seam. -/
structure Misreading.Splits (m : Misreading) (input : List CodeUnit) : Prop where
  lead_culprit : ∃ rest, input = m.lead ++ (m.culprit ++ rest)
  culprit_ne_nil : m.culprit ≠ []
  seam : ∀ rest, Seam m.lead (m.culprit ++ rest)

namespace Lexeme

theorem splits_of_whole {fault : Fault} {culprit input : List CodeUnit} (front : culprit <+: input)
    (nonempty : culprit ≠ []) : (Misreading.mk fault [] culprit).Splits input := by
  obtain ⟨rest, rfl⟩ := front
  exact ⟨⟨rest, rfl⟩, nonempty, fun _ => Seam.nil_left _⟩

theorem misread_of_readQuoted {features : FeatureSet} {quote : CodeUnit} {input : List CodeUnit}
    {m : Misreading} (h : Quoted.read features quote input = .error m) :
    m.Splits (quote :: input) := by
  rcases Quoted.misreading_of_read h with ⟨tail, rest, rfl, divided, -⟩ | ⟨rest, lead, divided, misread⟩
  · rw [← List.append_assoc] at divided
    exact splits_of_whole ⟨rest, congrArg (quote :: ·) divided.symm⟩ (List.cons_ne_nil _ _)
  · obtain ⟨escape, _, backslash, -⟩ := Quoted.culprit_of_misread misread
    refine ⟨⟨rest, ?_⟩, by simp [backslash], fun after => ?_⟩
    · rw [lead]
      exact congrArg (quote :: ·) divided
    · apply Seam.of_head
      rw [backslash]
      intro u first
      cases first
      decide

theorem text_ne_nil_of_beginsNumeral {u : CodeUnit} {rest : List CodeUnit}
    (begins : beginsNumeral u rest = true) : (Numeral.take (u :: rest)).text ≠ [] := by
  intro empty
  simp only [Numeral.take, Numeral.text, Numeral.significandText, List.append_eq_nil_iff] at empty
  obtain ⟨⟨⟨prefixEmpty, whole⟩, fraction⟩, -⟩ := empty
  have decimal : Radix.ofUnits (u :: rest) = .decimal := by
    cases same : Radix.ofUnits (u :: rest) with
    | decimal => rfl
    | hexadecimal letter => rw [same] at prefixEmpty; cases prefixEmpty
  rw [decimal] at whole fraction
  simp only [Radix.text, List.length_nil, List.drop_zero, Radix.isDigit] at whole fraction
  have noDigit : u.isDigit = false := by
    cases digit : u.isDigit with
    | false => rfl
    | true => simp [digit] at whole
  have point : u = .of '.' := by
    simp only [beginsNumeral, noDigit, Bool.false_or, Bool.and_eq_true, decide_eq_true_eq] at begins
    exact begins.1
  rw [List.dropWhile_cons_of_neg (by simp [noDigit])] at fraction
  simp [Numeral.readFraction, point] at fraction

theorem misread_of_readNumeral {u : CodeUnit} {rest : List CodeUnit} {m : Misreading}
    (begins : beginsNumeral u rest = true) (h : Numeral.read (u :: rest) = .error m) :
    m.Splits (u :: rest) := by
  have whole := Numeral.text_append_rest_take (u :: rest)
  unfold Numeral.read at h
  simp only at h
  split at h
  · cases h
  · cases h
    exact splits_of_whole ⟨_, whole⟩ (text_ne_nil_of_beginsNumeral begins)

theorem misread_of_readLongString {u : CodeUnit} {rest : List CodeUnit} {m : Misreading}
    (h : readLongString (u :: rest) = .failed m) : m.Splits (u :: rest) := by
  rcases misreading_of_readLongString h with ⟨-, rfl⟩ | ⟨-, rfl⟩
  · exact splits_of_whole (List.prefix_refl _) (by simp)
  · apply splits_of_whole (List.take_prefix _ _)
    rw [Nat.add_comm, List.take_succ_cons]
    simp

theorem misread_of_readComment {rest : List CodeUnit} {m : Misreading}
    (h : readComment [.of '-', .of '-'] rest = .failed m) :
    m.Splits (.of '-' :: .of '-' :: rest) := by
  obtain ⟨unclosed, rfl⟩ := misreading_of_readComment h
  have nonempty : rest ≠ [] := by
    rintro rfl
    cases unclosed
  have dashes : ∀ u ∈ [CodeUnit.of '-', .of '-'], u.isBreak = false :=
    CodeUnit.forall_of_any (by decide)
  exact ⟨⟨[], by simp⟩, nonempty, fun _ => Seam.of_forall dashes _⟩

theorem splits_of_failed {g : Grammar} {input : List CodeUnit} {m : Misreading}
    (h : read g input = .failed m) : m.Splits input := by
  have found := form g input
  rw [h] at found
  generalize outcomeEq : Reading.failed m = outcome at found
  cases found with
  | finished => cases outcomeEq
  | space rest space => cases outcomeEq
  | comment rest => exact misread_of_readComment outcomeEq.symm
  | word rest first => cases outcomeEq
  | quoted rest quote => exact misread_of_readQuoted (Reading.error_of_ofToken outcomeEq.symm)
  | numeral rest begins =>
      exact misread_of_readNumeral begins (Reading.error_of_ofToken outcomeEq.symm)
  | longString rest begins => exact misread_of_readLongString outcomeEq.symm
  | symbol rest =>
      obtain ⟨-, -, rfl⟩ := misreading_of_readSymbol outcomeEq.symm
      exact splits_of_whole (List.take_prefix _ _) (by simp)

end Lexeme

end LuaTokens
