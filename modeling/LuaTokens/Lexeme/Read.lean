import LuaTokens.Lexeme.Basic
import LuaTokens.Lexeme.LongBracket
import LuaTokens.Lexeme.Numeral.Read
import LuaTokens.Lexeme.Quoted

/-! # Reading lexemes

The first two units of a lexeme decide its kind, and each kind takes as much as it
can. Whatever is read, a lexeme and what follows it make up the input, and no lexeme
is empty.
-/

namespace LuaTokens.Lexeme

/-- The kind of token that a word is. -/
def classifyWord (features : FeatureSet) (name : ByteString) : Token.Kind :=
  match Keyword.live? features name with
  | some word => .keyword word
  | none =>
      if name = .ofString "true" then .boolean true
      else if name = .ofString "false" then .boolean false
      else if name = .ofString "nil" then .nil
      else .identifier name

/-- A name, keyword, boolean or nil. -/
def readWord (g : Grammar) (input : List CodeUnit) : Cut Lexeme :=
  let word := Cut.ofRun (CodeUnit.isNamePart g.extendedIdentifiers) input ()
  word.map fun _ => .token (classifyWord g.features (.ofUnits word.text))

/-- A comment, whose dashes stand before `input`. It is long if a long bracket
    opens right behind the dashes, and otherwise ends with the line. -/
def readComment (dashes : List CodeUnit) (input : List CodeUnit) : Reading :=
  match LongBracket.read input with
  | .closed cut => .read ⟨.comment cut.value, dashes ++ cut.text, cut.rest⟩
  | .unclosed => .failed ⟨.unfinishedLongComment, dashes, input⟩
  | .absent =>
      let line := Cut.ofRun (!·.isBreak) input ()
      .read ⟨.comment line.text, dashes ++ line.text, line.rest⟩

/-- A long string, at a bracket that cannot be anything else. -/
def readLongString (input : List CodeUnit) : Reading :=
  match LongBracket.read input with
  | .closed cut => .read (cut.map fun body => .token (.string (.ofUnits body)))
  | .unclosed => .failed ⟨.unfinishedLongString, [], input⟩
  | .absent =>
      let equalsSigns := LongBracket.equalsSigns (input.drop 1)
      .failed ⟨.invalidDelimiter, [], input.take (1 + equalsSigns.length)⟩

/-- The units of the three dots. -/
def varargUnits : List CodeUnit :=
  spellingUnits "..."

/-- The three dots, or the longest punctuator that the dialect has. -/
def readSymbol (g : Grammar) (input : List CodeUnit) : Reading :=
  if varargUnits.isPrefixOf input then .read (.ofWidth varargUnits.length input (.token .vararg))
  else
    match Punctuator.leading? g.features input with
    | some sign => .read (.ofWidth sign.units.length input (.token (.punctuator sign)))
    | none => .failed ⟨.unexpectedSymbol, [], input.take 1⟩

theorem readWord_splits {g : Grammar} {u : CodeUnit} {rest : List CodeUnit}
    (first : u.isNameStart g.extendedIdentifiers = true) :
    (readWord g (u :: rest)).Splits (u :: rest) :=
  (Cut.ofRun_splits (by simp [CodeUnit.isNamePart, first])).map _

theorem splits_of_readComment {dashes input : List CodeUnit} {cut : Cut Lexeme}
    (nonempty : dashes ≠ []) (h : readComment dashes input = .read cut) :
    cut.Splits (dashes ++ input) := by
  unfold readComment at h
  split at h
  next inner closed =>
    cases h
    have splits := LongBracket.splits_of_read closed
    exact ⟨by simp [splits.text_append_rest], by simp [nonempty]⟩
  · cases h
  · cases h
    exact ⟨by simp [Cut.ofRun], by simp [nonempty]⟩

theorem splits_of_readLongString {input : List CodeUnit} {cut : Cut Lexeme}
    (h : readLongString input = .read cut) : cut.Splits input := by
  unfold readLongString at h
  split at h
  next inner closed =>
    cases h
    exact (LongBracket.splits_of_read closed).map _
  · cases h
  · cases h

theorem splits_of_readSymbol {g : Grammar} {u : CodeUnit} {rest : List CodeUnit}
    {cut : Cut Lexeme} (h : readSymbol g (u :: rest) = .read cut) : cut.Splits (u :: rest) := by
  unfold readSymbol at h
  split at h
  · cases h
    exact Cut.ofWidth_splits (by decide) (by simp)
  · split at h
    next sign _ =>
      cases h
      exact Cut.ofWidth_splits (List.length_pos_iff.2 sign.units_ne_nil) (by simp)
    · cases h

/-- Read the lexeme that the input begins with. -/
def read (g : Grammar) : List CodeUnit → Reading
  | [] => .finished
  | u :: rest =>
      let input := u :: rest
      let next? := rest.head?
      if u.isSpace then .read (.ofRun CodeUnit.isSpace input .space)
      else if u = .of '-' && next? = some (.of '-') then readComment (input.take 2) (rest.drop 1)
      else if u.isNameStart g.extendedIdentifiers then .read (readWord g input)
      else if u.isQuote then .ofToken .string (Quoted.read g.features u rest)
      else if u.isDigit || (u = .of '.' && next?.any CodeUnit.isDigit) then
        .ofToken (fun numeral => .number numeral.value) (Numeral.read input)
      else if u = .of '[' && (next? = some (.of '[') || next? = some (.of '=')) then
        readLongString input
      else readSymbol g input

theorem splits_of_read {g : Grammar} {input : List CodeUnit} {cut : Cut Lexeme}
    (h : read g input = .read cut) : cut.Splits input := by
  cases input with
  | nil => cases h
  | cons u rest =>
    simp only [read] at h
    split at h
    next blank =>
      cases h
      exact Cut.ofRun_splits blank
    split at h
    next dashes =>
      simp only [Bool.and_eq_true, decide_eq_true_eq] at dashes
      obtain ⟨v, tail, rfl⟩ : ∃ v tail, rest = v :: tail := by
        cases rest with
        | nil => simp at dashes
        | cons v tail => exact ⟨v, tail, rfl⟩
      exact splits_of_readComment (by simp) h
    split at h
    next first =>
      cases h
      exact readWord_splits first
    split at h
    · exact Reading.splits_of_ofToken (fun _ => Quoted.splits_of_read) h
    split at h
    · exact Reading.splits_of_ofToken (fun _ => Numeral.splits_of_read) h
    split at h
    · exact splits_of_readLongString h
    · exact splits_of_readSymbol h

end LuaTokens.Lexeme
