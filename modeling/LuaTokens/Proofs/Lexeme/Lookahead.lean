import LuaTokens.Proofs.Lexeme.Form
import LuaTokens.Proofs.Lexeme.LongBracket
import LuaTokens.Proofs.Lexeme.Numeral
import LuaTokens.Proofs.Lexeme.Quoted
import LuaTokens.Proofs.Token.Punctuator

/-! # Lookahead

No reader depends on more of what follows its lexeme than the first unit, and all of
them take white space for the end of the lexeme, except that a comment without a long
bracket ends with its line.
-/

namespace LuaTokens

theorem Cut.ofRun_append {α : Type} {p : CodeUnit → Bool} {text rest other : List CodeUnit}
    (h : text = (text ++ rest).takeWhile p) (stops : Stops p other) (value : α) :
    Cut.ofRun p (text ++ other) value = ⟨value, text, other⟩ := by
  have all : ∀ u ∈ text, p u = true := by
    intro u member
    rw [h] at member
    exact List.mem_takeWhile_imp member
  rw [Cut.ofRun, stops.takeWhile_append all, stops.dropWhile_append all]

namespace LongBracket

theorem level?_of_append {line rest : List CodeUnit} (absent : level? (line ++ rest) = none) :
    level? line = none := by
  cases found : level? line with
  | none => rfl
  | some level =>
      obtain ⟨opened, rfl⟩ := level?_eq_some_iff.1 found
      rw [List.append_assoc, level?_opener_append] at absent
      cases absent

theorem level?_append {line other : List CodeUnit} (absent : level? line = none)
    (ends : Stops (!·.isBreak) other) : level? (line ++ other) = none := by
  cases found : level? (line ++ other) with
  | none => rfl
  | some level =>
      obtain ⟨opened, divided⟩ := level?_eq_some_iff.1 found
      have inside : opener level <+: line := by
        rcases List.append_eq_append_iff.1 divided with ⟨more, opens, behind⟩ | ⟨more, same, -⟩
        · cases more with
          | nil => exact ⟨[], by rw [opens, List.append_nil, List.append_nil]⟩
          | cons u more =>
              have broken : u.isBreak = true := by simpa using ends u (by rw [behind]; rfl)
              have := isBreak_opener level u (by rw [opens]; simp)
              rw [broken] at this
              cases this
        · exact ⟨more, same.symm⟩
      obtain ⟨more, rfl⟩ := inside
      rw [level?_opener_append] at absent
      cases absent

end LongBracket

namespace Lexeme

variable {g : Grammar} {text rest other : List CodeUnit} {value : Lexeme}

theorem exists_line_of_readComment {dashes input : List CodeUnit} {cut : Cut Lexeme}
    (h : readComment dashes input = .read cut) :
    ∃ line body, cut.text = dashes ++ line ∧ cut.value = .comment body ∧ input = line ++ cut.rest := by
  rcases cut_of_readComment h with ⟨inner, closed, rfl⟩ | ⟨-, rfl⟩
  · exact ⟨_, _, rfl, rfl, (LongBracket.splits_of_read closed).text_append_rest.symm⟩
  · exact ⟨_, _, rfl, rfl, List.takeWhile_append_dropWhile.symm⟩

theorem readComment_append {dashes line : List CodeUnit}
    (h : readComment dashes (line ++ rest) = .read ⟨value, dashes ++ line, rest⟩)
    (ends : LongBracket.level? line = none → Stops (!·.isBreak) other) :
    readComment dashes (line ++ other) = .read ⟨value, dashes ++ line, other⟩ := by
  rcases cut_of_readComment h with ⟨cut, closed, same⟩ | ⟨absent, same⟩
  · obtain ⟨level, lead, isClosed, inner, -⟩ := LongBracket.exists_isClosed_of_read closed
    simp only [Cut.mk.injEq, List.append_cancel_left_eq] at same
    obtain ⟨rfl, rfl, -⟩ := same
    rw [inner, readComment, isClosed.read_append]
  · simp only [Cut.mk.injEq, List.append_cancel_left_eq] at same
    obtain ⟨rfl, same, -⟩ := same
    have noLevel := LongBracket.level?_of_append (LongBracket.read_eq_absent_iff.1 absent)
    have stops := ends noLevel
    have still := LongBracket.read_eq_absent_iff.2 (LongBracket.level?_append noLevel stops)
    simp only [readComment, still, Cut.ofRun_append same stops ()]
    rw [← same]

theorem readWord_append (h : readWord g (text ++ rest) = ⟨value, text, rest⟩)
    (follows : Follows rest other) : readWord g (text ++ other) = ⟨value, text, other⟩ := by
  simp only [readWord, Cut.map, Cut.ofRun, Cut.mk.injEq] at h ⊢
  obtain ⟨rfl, same, behind⟩ := h
  have old : Stops (CodeUnit.isNamePart g.extendedIdentifiers) rest := by
    rw [← behind]
    exact stops_dropWhile _
  have now := Cut.ofRun_append same.symm (follows.stops (CodeUnit.isNamePart_spaces _) old) ()
  simp only [Cut.ofRun, Cut.mk.injEq] at now
  rw [now.2.1, now.2.2, same]
  exact ⟨rfl, rfl, rfl⟩

theorem maximal_of_readNumeral {input : List CodeUnit} {cut : Cut Numeral}
    (h : Numeral.read input = .ok cut) : cut.value.Maximal cut.rest ∧ cut.text = cut.value.text := by
  unfold Numeral.read at h
  simp only at h
  split at h
  next wellFormed =>
    cases h
    simp only [Numeral.isWellFormed, Bool.and_eq_true, decide_eq_true_eq] at wellFormed
    exact ⟨Numeral.maximal_take wellFormed.1, by rw [Numeral.take_of_digits wellFormed.1]⟩
  · cases h

theorem isWellFormed_of_readNumeral {input : List CodeUnit} {cut : Cut Numeral}
    (h : Numeral.read input = .ok cut) : cut.value.isWellFormed = true := by
  unfold Numeral.read at h
  simp only at h
  split at h
  next wellFormed =>
    cases h
    exact wellFormed
  · cases h

theorem readNumeral_append {numeral : Numeral}
    (h : Numeral.read (text ++ rest) = .ok ⟨numeral, text, rest⟩) (follows : Follows rest other) :
    Numeral.read (text ++ other) = .ok ⟨numeral, text, other⟩ := by
  obtain ⟨maximal, same⟩ := maximal_of_readNumeral h
  have now := (maximal.of_follows follows).take_append
  rw [← same] at now
  rw [Numeral.read, now]
  exact if_pos (isWellFormed_of_readNumeral h)

theorem readQuoted_append {features : FeatureSet} {quote : CodeUnit} {tail : List CodeUnit}
    (h : Reading.ofToken .string (Quoted.read features quote (tail ++ rest))
      = .read ⟨value, quote :: tail, rest⟩) (other : List CodeUnit) :
    Reading.ofToken .string (Quoted.read features quote (tail ++ other))
      = .read ⟨value, quote :: tail, other⟩ := by
  obtain ⟨cut, inner, same⟩ := Reading.exists_of_ofToken h
  obtain ⟨text, whole, now⟩ := Quoted.read_append inner other
  simp only [Cut.map, Cut.mk.injEq, whole] at same
  obtain ⟨rfl, text_eq, -⟩ := same
  obtain ⟨-, rfl⟩ := List.cons.inj text_eq
  rw [now, whole]
  rfl

theorem readLongString_append (h : readLongString (text ++ rest) = .read ⟨value, text, rest⟩)
    (other : List CodeUnit) : readLongString (text ++ other) = .read ⟨value, text, other⟩ := by
  obtain ⟨cut, closed, same⟩ := cut_of_readLongString h
  obtain ⟨level, lead, isClosed, inner, -⟩ := LongBracket.exists_isClosed_of_read closed
  simp only [Cut.map, Cut.mk.injEq] at same
  obtain ⟨rfl, rfl, -⟩ := same
  rw [inner, readLongString, isClosed.read_append]
  rfl

theorem two_le_length_of_readLongString {input : List CodeUnit} {cut : Cut Lexeme}
    (h : readLongString input = .read cut) : 2 ≤ cut.text.length := by
  obtain ⟨inner, closed, rfl⟩ := cut_of_readLongString h
  obtain ⟨level, lead, _, text, _⟩ := LongBracket.exists_isClosed_of_read closed
  simp only [Cut.map, text, LongBracket.closedText, List.length_append, LongBracket.length_opener]
  omega

theorem varargUnits_append {features : FeatureSet} {sign : Punctuator}
    (found : Punctuator.leading? features (sign.units ++ rest) = some sign)
    (follows : Follows rest other) (noDots : ¬ varargUnits <+: sign.units ++ rest) :
    ¬ varargUnits <+: sign.units ++ other := by
  intro dots
  have solid : ∀ u ∈ varargUnits, u.isSpace = false := CodeUnit.forall_of_any (by decide)
  have twoDots : Punctuator.concat.units <+: sign.units ++ other :=
    List.IsPrefix.trans (by decide) dots
  by_cases long : sign.units.length = 2
  · exact noDots (follows.prefix_append solid (by rw [long]; decide) dots)
  · have length := sign.length_units
    have fits := follows.prefix_append Punctuator.concat.isSpace_units
      (by rw [show sign.units.length = 1 by omega]; decide) twoDots
    have longest := Punctuator.length_le_of_leading? found (by rfl) fits
    have : Punctuator.concat.units.length = 2 := by decide
    omega

theorem readSymbol_append (h : readSymbol g (text ++ rest) = .read ⟨value, text, rest⟩)
    (follows : Follows rest other) : readSymbol g (text ++ other) = .read ⟨value, text, other⟩ := by
  rcases cut_of_readSymbol h with ⟨dots, same⟩ | ⟨sign, noDots, found, fits, same⟩
  · simp only [Cut.ofWidth, Cut.mk.injEq, ← List.prefix_iff_eq_take.1 dots] at same
    obtain ⟨rfl, rfl, -⟩ := same
    rw [readSymbol, if_pos (List.isPrefixOf_iff_prefix.2 (List.prefix_append _ _)), Cut.ofWidth,
      List.take_left, List.drop_left]
  · simp only [Cut.ofWidth, Cut.mk.injEq, ← List.prefix_iff_eq_take.1 fits] at same
    obtain ⟨rfl, rfl, -⟩ := same
    have still := varargUnits_append found follows noDots
    rw [readSymbol, if_neg (fun dots => still (List.isPrefixOf_iff_prefix.1 dots)),
      Punctuator.leading?_append found follows]
    simp only [Cut.ofWidth, List.take_left, List.drop_left]

section Beginnings

variable {u : CodeUnit}

theorem beginsComment_of_follows (follows : Follows rest other)
    (h : beginsComment u rest = false) : beginsComment u other = false := by
  by_contra begins
  simp only [beginsComment, Bool.not_eq_false, Bool.and_eq_true, decide_eq_true_eq] at begins
  simp [beginsComment, begins.1, follows.head_of_not_space begins.2 (by decide)] at h

theorem beginsNumeral_of_follows (follows : Follows rest other)
    (h : beginsNumeral u rest = false) : beginsNumeral u other = false := by
  by_contra begins
  rw [Bool.not_eq_false, beginsNumeral_iff] at begins
  rcases begins with digit | ⟨point, v, first, digit⟩
  · simp [beginsNumeral, digit] at h
  · have solid : v.isSpace = false := by
      by_contra space
      rw [CodeUnit.eq_false_of_isSpace CodeUnit.isDigit_spaces (by simpa using space)] at digit
      cases digit
    simp [beginsNumeral, point, follows.head_of_not_space first solid, digit] at h

theorem beginsLongString_of_follows (follows : Follows rest other)
    (h : beginsLongString u rest = false) : beginsLongString u other = false := by
  by_contra begins
  rw [Bool.not_eq_false, beginsLongString_iff] at begins
  obtain ⟨bracket, second | second⟩ := begins
  · simp [beginsLongString, bracket, follows.head_of_not_space second (by decide)] at h
  · simp [beginsLongString, bracket, follows.head_of_not_space second (by decide)] at h

theorem head?_append_of_ne_nil {tail : List CodeUnit} (nonempty : tail ≠ []) :
    (tail ++ other).head? = (tail ++ rest).head? := by
  obtain ⟨v, more, rfl⟩ := List.exists_cons_of_ne_nil nonempty
  rfl

theorem beginsLongString_append {tail : List CodeUnit}
    (h : beginsLongString u (tail ++ rest) = true) (nonempty : tail ≠ [])
    (other : List CodeUnit) : beginsLongString u (tail ++ other) = true := by
  rw [beginsLongString_iff] at h ⊢
  rwa [head?_append_of_ne_nil nonempty]

theorem beginsNumeral_append {tail : List CodeUnit} {numeral : Numeral}
    (h : beginsNumeral u (tail ++ rest) = true)
    (inner : Numeral.read (u :: (tail ++ rest)) = .ok ⟨numeral, u :: tail, rest⟩)
    (other : List CodeUnit) : beginsNumeral u (tail ++ other) = true := by
  rw [beginsNumeral_iff] at h ⊢
  rcases h with digit | ⟨rfl, second⟩
  · exact .inl digit
  · have nonempty : tail ≠ [] := by
      rintro rfl
      obtain ⟨maximal, text⟩ := maximal_of_readNumeral inner
      obtain ⟨d, member, digit⟩ := maximal.exists_digit
      simp only at text
      rw [← text, List.mem_singleton] at member
      rw [member, numeral.radix.isDigit_point] at digit
      cases digit
    exact .inr ⟨rfl, by rwa [head?_append_of_ne_nil nonempty]⟩

end Beginnings

/-- A lexeme is read the same before another text that goes on like the old one or with
    white space. White space must not go on itself, and a comment that is not long must
    stand before the end of a line. -/
theorem read_append (h : read g (text ++ rest) = .read ⟨value, text, rest⟩)
    (follows : Follows rest other) (apart : value = .space → Stops CodeUnit.isSpace other)
    (ends : ∀ body, value = .comment body → LongBracket.level? (text.drop 2) = none →
      Stops (!·.isBreak) other) :
    read g (text ++ other) = .read ⟨value, text, other⟩ := by
  obtain ⟨u, tail, rfl⟩ := List.exists_cons_of_ne_nil (splits_of_read h).text_ne_nil
  rw [List.cons_append] at h ⊢
  have found := form g (u :: (tail ++ rest))
  rw [h] at found
  generalize inputEq : u :: (tail ++ rest) = input at h found
  generalize outcomeEq : Reading.read ⟨value, u :: tail, rest⟩ = outcome at h found
  cases found with
  | finished => cases inputEq
  | space _ space =>
      obtain ⟨rfl, rfl⟩ := List.cons.inj inputEq
      simp only [Reading.read.injEq, Cut.ofRun, Cut.mk.injEq] at outcomeEq
      obtain ⟨rfl, same, -⟩ := outcomeEq
      have taken : u :: tail = (u :: tail ++ rest).takeWhile CodeUnit.isSpace := same
      rw [read_space space]
      exact congrArg Reading.read (Cut.ofRun_append taken (apart rfl) Lexeme.space)
  | comment input =>
      obtain ⟨line, body, text_eq, comment, behind⟩ := exists_line_of_readComment outcomeEq.symm
      obtain ⟨rfl, rfl⟩ := List.cons.inj (show u :: tail = .of '-' :: .of '-' :: line from text_eq)
      subst behind
      have comment_eq : readComment [.of '-', .of '-'] (line ++ rest)
          = .read ⟨value, [.of '-', .of '-'] ++ line, rest⟩ := outcomeEq.symm
      exact readComment_append comment_eq (ends body comment)
  | word _ first =>
      obtain ⟨rfl, rfl⟩ := List.cons.inj inputEq
      have word : readWord g (u :: tail ++ rest) = ⟨value, u :: tail, rest⟩ :=
        (Reading.read.inj outcomeEq).symm
      rw [read_word first, ← List.cons_append, readWord_append word follows]
  | quoted _ quote =>
      obtain ⟨rfl, rfl⟩ := List.cons.inj inputEq
      rw [read_quoted quote]
      exact readQuoted_append outcomeEq.symm other
  | numeral _ begins =>
      obtain ⟨rfl, rfl⟩ := List.cons.inj inputEq
      obtain ⟨⟨numeral, _, _⟩, inner, same⟩ := Reading.exists_of_ofToken outcomeEq.symm
      simp only [Cut.map, Cut.mk.injEq] at same
      obtain ⟨rfl, rfl, rfl⟩ := same
      have taken : Numeral.read (u :: tail ++ rest) = .ok ⟨numeral, u :: tail, rest⟩ := inner
      rw [read_numeral (beginsNumeral_append begins inner other), ← List.cons_append,
        readNumeral_append taken follows]
      rfl
  | longString _ begins =>
      obtain ⟨rfl, rfl⟩ := List.cons.inj inputEq
      have nonempty : tail ≠ [] := by
        rintro rfl
        exact absurd (two_le_length_of_readLongString outcomeEq.symm) (Nat.not_succ_le_self 1)
      rw [read_longString (beginsLongString_append begins nonempty other)]
      have string : readLongString (u :: tail ++ rest) = .read ⟨value, u :: tail, rest⟩ :=
        outcomeEq.symm
      exact readLongString_append string other
  | symbol _ unspaced noComment noWord noQuote noNumeral noLongString =>
      obtain ⟨rfl, rfl⟩ := List.cons.inj inputEq
      have behind := follows.append tail
      rw [read_symbol unspaced (beginsComment_of_follows behind noComment) noWord noQuote
        (beginsNumeral_of_follows behind noNumeral) (beginsLongString_of_follows behind noLongString)]
      have symbol : readSymbol g (u :: tail ++ rest) = .read ⟨value, u :: tail, rest⟩ :=
        outcomeEq.symm
      exact readSymbol_append symbol follows

theorem stops_of_readComment {dashes line : List CodeUnit} {cut : Cut Lexeme}
    (h : readComment dashes line = .read cut)
    (absent : LongBracket.level? (cut.text.drop dashes.length) = none) :
    Stops (!·.isBreak) cut.rest := by
  rcases cut_of_readComment h with ⟨inner, closed, rfl⟩ | ⟨-, rfl⟩
  · obtain ⟨level, lead, -, text, -⟩ := LongBracket.exists_isClosed_of_read closed
    rw [List.drop_left, text, LongBracket.closedText, LongBracket.level?_opener_append] at absent
    cases absent
  · exact stops_dropWhile _

theorem read_append_of_head? (h : read g (text ++ rest) = .read ⟨value, text, rest⟩)
    (same : other.head? = rest.head?) : read g (text ++ other) = .read ⟨value, text, other⟩ := by
  apply read_append h (Follows.of_head_eq same)
  · intro space
    rcases cases_of_read h with run | ⟨line, -, comment⟩ | ⟨kind, token⟩
    · rw [show rest = _ from congrArg Cut.rest run] at same
      exact (stops_dropWhile _).of_head_eq same
    · obtain ⟨_, body, _, isComment, _⟩ := exists_line_of_readComment comment
      rw [show value = _ from isComment] at space
      cases space
    · rw [show value = _ from token] at space
      cases space
  · intro body isComment absent
    rcases cases_of_read h with run | ⟨line, -, comment⟩ | ⟨kind, token⟩
    · rw [show value = _ from congrArg Cut.value run] at isComment
      cases isComment
    · exact (stops_of_readComment comment absent).of_head_eq same
    · rw [show value = _ from token] at isComment
      cases isComment

end Lexeme

end LuaTokens
