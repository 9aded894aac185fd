import LuaTokens.Lexeme.Read
import LuaTokens.Proofs.Text.CodeUnit

/-! # The forms of lexemes

The first unit of a lexeme, and for a few of them the second, decide which reader takes
it. The classes of first units exclude each other, so each form is recognized by its
own condition alone.
-/

namespace LuaTokens

namespace CodeUnit

theorem isNameStart_spaces (extended : Bool) : ∀ v ∈ spaces, v.isNameStart extended = false := by
  apply forall_of_any
  cases extended <;> decide

theorem ne_of_class {p : CodeUnit → Bool} {u c : CodeUnit} (h : p u = true) (outside : p c = false) :
    u ≠ c := by
  rintro rfl
  rw [h] at outside
  cases outside

theorem isQuote_iff {u : CodeUnit} : u.isQuote = true ↔ u = of '"' ∨ u = of '\'' := by
  simp [isQuote]

def digits : List CodeUnit :=
  [0x30, 0x31, 0x32, 0x33, 0x34, 0x35, 0x36, 0x37, 0x38, 0x39]

theorem isDigit_iff {u : CodeUnit} : u.isDigit = true ↔ u ∈ digits := by
  simp only [isDigit, Bool.and_eq_true, decide_eq_true_eq, UInt16.le_iff_toNat_le, digits,
    List.mem_cons, List.not_mem_nil, or_false, ← UInt16.toNat_inj]
  simp only [UInt16.toNat_ofNat]
  omega

end CodeUnit

/-- Whether the token is written like a name. -/
def Token.Kind.isWord : Token.Kind → Bool
  | keyword _ | boolean _ | nil | identifier _ => true
  | _ => false

theorem Token.Kind.isString_of_isWord {kind : Token.Kind} (word : kind.isWord = true) :
    kind.isString = false := by
  cases kind with
  | string => cases word
  | _ => rfl

namespace Lexeme

theorem isWord_classifyWord (features : FeatureSet) (name : ByteString) :
    (classifyWord features name).isWord = true := by
  unfold classifyWord
  split
  · rfl
  split
  · rfl
  split
  · rfl
  split <;> rfl

/-- A numeral begins with a digit, or with a point and a digit. -/
def beginsNumeral (u : CodeUnit) (rest : List CodeUnit) : Bool :=
  u.isDigit || (u = .of '.' && rest.head?.any CodeUnit.isDigit)

/-- A long string begins with a bracket behind which the opener can go on. -/
def beginsLongString (u : CodeUnit) (rest : List CodeUnit) : Bool :=
  u = .of '[' && (rest.head? = some (.of '[') || rest.head? = some (.of '='))

def beginsComment (u : CodeUnit) (rest : List CodeUnit) : Bool :=
  u = .of '-' && rest.head? = some (.of '-')

/-- The forms of lexemes with their readers. -/
inductive Form (g : Grammar) : List CodeUnit → Reading → Prop where
  | finished : Form g [] .finished
  | space {u : CodeUnit} (rest : List CodeUnit) (space : u.isSpace = true) :
      Form g (u :: rest) (.read (.ofRun CodeUnit.isSpace (u :: rest) .space))
  | comment (rest : List CodeUnit) :
      Form g (.of '-' :: .of '-' :: rest) (readComment [.of '-', .of '-'] rest)
  | word {u : CodeUnit} (rest : List CodeUnit) (first : u.isNameStart g.extendedIdentifiers = true) :
      Form g (u :: rest) (.read (readWord g (u :: rest)))
  | quoted {u : CodeUnit} (rest : List CodeUnit) (quote : u.isQuote = true) :
      Form g (u :: rest) (.ofToken .string (Quoted.read g.features u rest))
  | numeral {u : CodeUnit} (rest : List CodeUnit) (begins : beginsNumeral u rest = true) :
      Form g (u :: rest)
        (.ofToken (fun numeral => .number numeral.value) (Numeral.read (u :: rest)))
  | longString {u : CodeUnit} (rest : List CodeUnit) (begins : beginsLongString u rest = true) :
      Form g (u :: rest) (readLongString (u :: rest))
  | symbol {u : CodeUnit} (rest : List CodeUnit) (unspaced : u.isSpace = false)
      (noComment : beginsComment u rest = false)
      (noWord : u.isNameStart g.extendedIdentifiers = false) (noQuote : u.isQuote = false)
      (noNumeral : beginsNumeral u rest = false) (noLongString : beginsLongString u rest = false) :
      Form g (u :: rest) (readSymbol g (u :: rest))

theorem read_cons (g : Grammar) (u : CodeUnit) (rest : List CodeUnit) :
    read g (u :: rest) =
      if u.isSpace then .read (.ofRun CodeUnit.isSpace (u :: rest) .space)
      else if beginsComment u rest then readComment ((u :: rest).take 2) (rest.drop 1)
      else if u.isNameStart g.extendedIdentifiers then .read (readWord g (u :: rest))
      else if u.isQuote then .ofToken .string (Quoted.read g.features u rest)
      else if beginsNumeral u rest then
        .ofToken (fun numeral => .number numeral.value) (Numeral.read (u :: rest))
      else if beginsLongString u rest then readLongString (u :: rest)
      else readSymbol g (u :: rest) :=
  rfl

theorem form (g : Grammar) (input : List CodeUnit) : Form g input (read g input) := by
  cases input with
  | nil => exact .finished
  | cons u rest =>
      rw [read_cons]
      split
      next space => exact .space rest space
      next unspaced =>
        split
        next dashes =>
          simp only [beginsComment, Bool.and_eq_true, decide_eq_true_eq] at dashes
          obtain ⟨rfl, second⟩ := dashes
          obtain ⟨tail, rfl⟩ := List.head?_eq_some_iff.1 second
          exact .comment tail
        next noComment =>
          split
          next first => exact .word rest first
          next noWord =>
            split
            next quote => exact .quoted rest quote
            next noQuote =>
              split
              next begins => exact .numeral rest begins
              next noNumeral =>
                split
                next begins => exact .longString rest begins
                next noLongString =>
                  exact .symbol rest (by simpa using unspaced) (by simpa using noComment)
                    (by simpa using noWord) (by simpa using noQuote) (by simpa using noNumeral)
                    (by simpa using noLongString)

section Equations

variable {g : Grammar} {u : CodeUnit} {rest : List CodeUnit}

theorem read_space (space : u.isSpace = true) :
    read g (u :: rest) = .read (.ofRun CodeUnit.isSpace (u :: rest) .space) := by
  rw [read_cons, if_pos space]

theorem read_comment :
    read g (.of '-' :: .of '-' :: rest) = readComment [.of '-', .of '-'] rest :=
  rfl

theorem beginsComment_of_ne (h : u ≠ .of '-') : beginsComment u rest = false := by
  simp [beginsComment, h]

theorem beginsNumeral_iff : beginsNumeral u rest = true ↔
    u.isDigit = true ∨ u = .of '.' ∧ ∃ v ∈ rest.head?, v.isDigit = true := by
  simp [beginsNumeral, Option.any_eq_true]

theorem beginsLongString_iff : beginsLongString u rest = true ↔
    u = .of '[' ∧ (rest.head? = some (.of '[') ∨ rest.head? = some (.of '=')) := by
  simp [beginsLongString]

theorem read_word (first : u.isNameStart g.extendedIdentifiers = true) :
    read g (u :: rest) = .read (readWord g (u :: rest)) := by
  have unspaced : ¬ u.isSpace = true := by
    intro space
    rw [CodeUnit.eq_false_of_isSpace (CodeUnit.isNameStart_spaces _) space] at first
    cases first
  have noDash : u ≠ .of '-' :=
    CodeUnit.ne_of_class first (by cases g.extendedIdentifiers <;> decide)
  rw [read_cons, if_neg unspaced, beginsComment_of_ne noDash, if_neg (by simp), if_pos first]

theorem read_quoted (quote : u.isQuote = true) :
    read g (u :: rest) = .ofToken .string (Quoted.read g.features u rest) := by
  have noWord : ¬ u.isNameStart g.extendedIdentifiers = true := by
    rcases CodeUnit.isQuote_iff.1 quote with rfl | rfl <;> cases g.extendedIdentifiers <;> decide
  have unspaced : ¬ u.isSpace = true := by
    rcases CodeUnit.isQuote_iff.1 quote with rfl | rfl <;> decide
  have noDash : u ≠ .of '-' := CodeUnit.ne_of_class quote (by decide)
  rw [read_cons, if_neg unspaced, beginsComment_of_ne noDash, if_neg (by simp), if_neg noWord,
    if_pos quote]

theorem read_numeral (begins : beginsNumeral u rest = true) :
    read g (u :: rest) = .ofToken (fun numeral => .number numeral.value) (Numeral.read (u :: rest)) := by
  have member : u ∈ .of '.' :: CodeUnit.digits := by
    rcases beginsNumeral_iff.1 begins with digit | ⟨rfl, -⟩
    · exact List.mem_cons_of_mem _ (CodeUnit.isDigit_iff.1 digit)
    · exact List.mem_cons_self
  have unspaced : u.isSpace = false := CodeUnit.forall_of_any (by decide) u member
  have noQuote : u.isQuote = false := CodeUnit.forall_of_any (by decide) u member
  have noWord : u.isNameStart g.extendedIdentifiers = false := by
    apply CodeUnit.forall_of_any _ u member
    cases g.extendedIdentifiers <;> decide
  have noDash : u ≠ .of '-' := by
    rintro rfl
    revert member
    decide
  rw [read_cons, unspaced, if_neg (by simp), beginsComment_of_ne noDash, if_neg (by simp),
    noWord, if_neg (by simp), noQuote, if_neg (by simp), if_pos begins]

theorem read_longString (begins : beginsLongString u rest = true) :
    read g (u :: rest) = readLongString (u :: rest) := by
  obtain ⟨rfl, second⟩ := beginsLongString_iff.1 begins
  have noWord : ¬ (CodeUnit.of '[').isNameStart g.extendedIdentifiers = true := by
    cases g.extendedIdentifiers <;> decide
  have noNumeral : ¬ beginsNumeral (.of '[') rest = true := by
    rw [beginsNumeral_iff]
    rintro (digit | ⟨point, -⟩)
    · revert digit
      decide
    · revert point
      decide
  rw [read_cons, if_neg (by decide), beginsComment_of_ne (by decide), if_neg (by simp),
    if_neg noWord, if_neg (by decide), if_neg noNumeral, if_pos begins]

theorem read_symbol (unspaced : u.isSpace = false) (noComment : beginsComment u rest = false)
    (noWord : u.isNameStart g.extendedIdentifiers = false) (noQuote : u.isQuote = false)
    (noNumeral : beginsNumeral u rest = false) (noLongString : beginsLongString u rest = false) :
    read g (u :: rest) = readSymbol g (u :: rest) := by
  rw [read_cons, unspaced, noComment, noWord, noQuote, noNumeral, noLongString]
  rfl

theorem cut_of_readComment {dashes line : List CodeUnit} {cut : Cut Lexeme}
    (h : readComment dashes line = .read cut) :
    (∃ inner, LongBracket.read line = .closed inner
        ∧ cut = ⟨.comment inner.value, dashes ++ inner.text, inner.rest⟩)
      ∨ LongBracket.read line = .absent
        ∧ cut = ⟨.comment (line.takeWhile (!·.isBreak)), dashes ++ line.takeWhile (!·.isBreak),
            line.dropWhile (!·.isBreak)⟩ := by
  unfold readComment at h
  split at h
  next inner closed =>
    cases h
    exact .inl ⟨inner, closed, rfl⟩
  · cases h
  next absent =>
    cases h
    exact .inr ⟨absent, rfl⟩

theorem misreading_of_readComment {dashes line : List CodeUnit} {m : Misreading}
    (h : readComment dashes line = .failed m) :
    LongBracket.read line = .unclosed ∧ m = ⟨.unfinishedLongComment, dashes, line⟩ := by
  unfold readComment at h
  split at h
  · cases h
  next unclosed =>
    cases h
    exact ⟨unclosed, rfl⟩
  · cases h

theorem cut_of_readLongString {input : List CodeUnit} {cut : Cut Lexeme}
    (h : readLongString input = .read cut) :
    ∃ inner, LongBracket.read input = .closed inner
      ∧ cut = inner.map fun body => .token (.string (.ofUnits body)) := by
  unfold readLongString at h
  split at h
  next inner closed =>
    cases h
    exact ⟨inner, closed, rfl⟩
  all_goals cases h

theorem misreading_of_readLongString {input : List CodeUnit} {m : Misreading}
    (h : readLongString input = .failed m) :
    LongBracket.read input = .unclosed ∧ m = ⟨.unfinishedLongString, [], input⟩
      ∨ LongBracket.read input = .absent ∧ m = ⟨.invalidDelimiter, [],
          input.take (1 + (LongBracket.equalsSigns (input.drop 1)).length)⟩ := by
  unfold readLongString at h
  split at h
  · cases h
  next unclosed =>
    cases h
    exact .inl ⟨unclosed, rfl⟩
  next absent =>
    cases h
    exact .inr ⟨absent, rfl⟩

theorem cut_of_readSymbol {input : List CodeUnit} {cut : Cut Lexeme}
    (h : readSymbol g input = .read cut) :
    (varargUnits <+: input ∧ cut = .ofWidth varargUnits.length input (.token .vararg))
      ∨ ∃ sign, ¬ varargUnits <+: input ∧ Punctuator.leading? g.features input = some sign
          ∧ sign.units <+: input
          ∧ cut = .ofWidth sign.units.length input (.token (.punctuator sign)) := by
  unfold readSymbol at h
  split at h
  next dots =>
    cases h
    exact .inl ⟨List.isPrefixOf_iff_prefix.1 dots, rfl⟩
  next noDots =>
    split at h
    next sign found =>
      cases h
      have fits := List.find?_some found
      simp only [Bool.and_eq_true, List.isPrefixOf_iff_prefix] at fits
      exact .inr ⟨sign, fun dots => noDots (List.isPrefixOf_iff_prefix.2 dots), found, fits.2, rfl⟩
    · cases h

theorem misreading_of_readSymbol {input : List CodeUnit} {m : Misreading}
    (h : readSymbol g input = .failed m) :
    ¬ varargUnits <+: input ∧ Punctuator.leading? g.features input = none
      ∧ m = ⟨.unexpectedSymbol, [], input.take 1⟩ := by
  unfold readSymbol at h
  split at h
  · cases h
  next noDots =>
    split at h
    · cases h
    next missing =>
      cases h
      exact ⟨fun dots => noDots (List.isPrefixOf_iff_prefix.2 dots), missing, rfl⟩

theorem Reading.exists_of_ofToken {α : Type} {kind : α → Token.Kind}
    {outcome : Except Misreading (Cut α)} {cut : Cut Lexeme}
    (h : Reading.ofToken kind outcome = .read cut) :
    ∃ inner, outcome = .ok inner ∧ cut = inner.map fun value => .token (kind value) := by
  cases outcome with
  | ok inner => exact ⟨inner, rfl, (Reading.read.inj h).symm⟩
  | error m => cases h

theorem Reading.error_of_ofToken {α : Type} {kind : α → Token.Kind}
    {outcome : Except Misreading (Cut α)} {m : Misreading}
    (h : Reading.ofToken kind outcome = .failed m) : outcome = .error m := by
  cases outcome with
  | ok inner => cases h
  | error m' => exact congrArg Except.error (Reading.failed.inj h)

theorem cases_of_read {input : List CodeUnit} {cut : Cut Lexeme} (h : read g input = .read cut) :
    cut = .ofRun CodeUnit.isSpace input .space
      ∨ (∃ line, input = .of '-' :: .of '-' :: line ∧ readComment [.of '-', .of '-'] line = .read cut)
      ∨ ∃ kind, cut.value = .token kind := by
  have found := form g input
  rw [h] at found
  generalize outcomeEq : Reading.read cut = outcome at found
  cases found with
  | finished => cases outcomeEq
  | space rest space => exact .inl (Reading.read.inj outcomeEq)
  | comment line => exact .inr (.inl ⟨line, rfl, rfl⟩)
  | word rest first =>
      cases outcomeEq
      exact .inr (.inr ⟨_, rfl⟩)
  | quoted rest quote =>
      obtain ⟨inner, -, rfl⟩ := Reading.exists_of_ofToken outcomeEq.symm
      exact .inr (.inr ⟨_, rfl⟩)
  | numeral rest begins =>
      obtain ⟨inner, -, rfl⟩ := Reading.exists_of_ofToken outcomeEq.symm
      exact .inr (.inr ⟨_, rfl⟩)
  | longString rest begins =>
      obtain ⟨inner, -, rfl⟩ := cut_of_readLongString outcomeEq.symm
      exact .inr (.inr ⟨_, rfl⟩)
  | symbol rest =>
      rcases cut_of_readSymbol outcomeEq.symm with ⟨-, rfl⟩ | ⟨sign, -, -, -, rfl⟩
      · exact .inr (.inr ⟨_, rfl⟩)
      · exact .inr (.inr ⟨_, rfl⟩)

theorem eq_nil_of_finished {input : List CodeUnit} (h : read g input = .finished) : input = [] := by
  have found := form g input
  rw [h] at found
  generalize outcomeEq : Reading.finished = outcome at found
  cases found with
  | finished => rfl
  | space | word => cases outcomeEq
  | comment rest =>
      unfold readComment at outcomeEq
      split at outcomeEq <;> cases outcomeEq
  | @quoted u rest =>
      cases inner : Quoted.read g.features u rest <;> rw [inner] at outcomeEq <;> cases outcomeEq
  | @numeral u rest =>
      cases inner : Numeral.read (u :: rest) <;> rw [inner] at outcomeEq <;> cases outcomeEq
  | longString rest =>
      unfold readLongString at outcomeEq
      split at outcomeEq <;> cases outcomeEq
  | symbol rest =>
      unfold readSymbol at outcomeEq
      split at outcomeEq
      · cases outcomeEq
      · split at outcomeEq <;> cases outcomeEq

end Equations

end Lexeme

end LuaTokens
