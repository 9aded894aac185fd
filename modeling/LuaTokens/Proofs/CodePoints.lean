import LuaTokens.Proofs.FirstCloser
import LuaTokens.Proofs.Quotation
import LuaTokens.Proofs.Transcoding

/-! # Characters written as code points

A character may be written as its code point in braces, with any zeros in front of it. A string
of such escapes is the text that they spell: it has the bytes that the characters have where
they stand for themselves between long brackets. A code point beyond the last one is refused.
-/

namespace LuaTokens

namespace Escape

/-- One or more hexadecimal digits, in either case and with any zeros in front. -/
def IsHexadecimal (digits : List CodeUnit) : Prop :=
  digits ≠ [] ∧ ∀ u ∈ digits, u.isHexDigit = true

instance (digits : List CodeUnit) : Decidable (IsHexadecimal digits) :=
  decidable_of_iff (digits ≠ [] ∧ digits.all CodeUnit.isHexDigit = true) (by simp [IsHexadecimal])

/-- What stands behind the backslash of a code point with these digits. -/
def braced (digits : List CodeUnit) : List CodeUnit :=
  .of 'u' :: .of '\x7b' :: (digits ++ [.of '\x7d'])

variable {features : FeatureSet} {digits rest : List CodeUnit}

theorem length_significant (all : ∀ u ∈ digits, u.isHexDigit = true)
    (small : CodeUnit.numberOf 16 digits ≤ 0x10FFFF) : (digits.dropWhile (· == .of '0')).length ≤ 6 := by
  rw [← CodeUnit.numberOf_dropWhile_zero] at small
  have first := stops_dropWhile (p := (· == CodeUnit.of '0')) digits
  cases significant : digits.dropWhile (· == .of '0') with
  | nil => exact Nat.zero_le 6
  | cons u more =>
      rw [significant] at small first
      have member : u ∈ digits := (List.dropWhile_suffix _).subset (significant ▸ List.mem_cons_self)
      have positive : 0 < u.digitValue := by
        have differs : u.toNat ≠ 0x30 := by
          intro zero
          have same : u = .of '0' := UInt16.toNat_inj.1 zero
          simpa [same] using first u rfl
        rcases CodeUnit.toNat_of_isHexDigit (all u member) with ⟨_, _, value⟩ | ⟨_, _, value⟩ | ⟨_, _, value⟩ <;>
          omega
      have large := CodeUnit.pow_le_numberOf positive more
      have short : more.length < 6 := (Nat.pow_lt_pow_iff_right (a := 16) (by decide)).1 (by omega)
      simpa using Nat.succ_le_of_lt short

theorem denotes_braced (has : .codePointEscapes ∈ features) (hexadecimal : IsHexadecimal digits)
    (small : CodeUnit.numberOf 16 digits ≤ 0x10FFFF) (rest : List CodeUnit) :
    Denotes features rest (braced digits) (Utf8.encode (CodeUnit.numberOf 16 digits)) :=
  .codePoint has hexadecimal.1 hexadecimal.2 (length_significant hexadecimal.2 small) small

/-- A number beyond the last code point is refused, be it for its digits or for its value. -/
theorem read_braced_of_large (has : .codePointEscapes ∈ features) (hexadecimal : IsHexadecimal digits)
    (large : 0x10FFFF < CodeUnit.numberOf 16 digits) (rest : List CodeUnit) :
    ∃ width ≤ (braced digits).length,
      read features (.of 'u') (.of '\x7b' :: (digits ++ .of '\x7d' :: rest))
        = ⟨.error .tooLargeCodePoint, width⟩ := by
  have number : ¬ CodeUnit.numberOf 16 (digits.dropWhile (· == .of '0')) ≤ 0x10FFFF := by
    rw [CodeUnit.numberOf_dropWhile_zero]
    exact Nat.not_le.2 large
  have length : (braced digits).length = 3 + digits.length := by
    simp only [braced, List.length_cons, List.length_append, List.length_nil]
    omega
  have parts := congrArg List.length
    (List.takeWhile_append_dropWhile (p := (· == CodeUnit.of '0')) (l := digits))
  rw [List.length_append] at parts
  rw [read_letter_u has, codePoint_braced hexadecimal.2, length]
  simp only [bracedOutcome, if_neg hexadecimal.1, if_neg number]
  split
  next many => exact ⟨_, by omega, rfl⟩
  next few => exact ⟨_, Nat.le_refl _, rfl⟩

end Escape

namespace Quoted

/-- Escapes for code points one behind the other, each given by its digits. -/
def codePoints (spellings : List (List CodeUnit)) : List CodeUnit :=
  spellings.flatMap fun digits => .of '\\' :: Escape.braced digits

variable {features : FeatureSet} {quote : CodeUnit} {spellings : List (List CodeUnit)} {rest : List CodeUnit}

theorem reaches_codePoints (has : .codePointEscapes ∈ features) (isQuote : quote.isQuote = true)
    (hexadecimal : ∀ digits ∈ spellings, Escape.IsHexadecimal digits)
    (small : ∀ digits ∈ spellings, CodeUnit.numberOf 16 digits ≤ 0x10FFFF) (rest : List CodeUnit) :
    Reaches features quote (codePoints spellings ++ rest)
      (spellings.flatMap fun digits => Utf8.encode (CodeUnit.numberOf 16 digits)) (codePoints spellings) rest := by
  induction spellings with
  | nil => exact .refl features quote rest
  | cons digits spellings ih =>
      have denotes := Escape.denotes_braced has (hexadecimal digits List.mem_cons_self)
        (small digits List.mem_cons_self) (codePoints spellings ++ rest)
      have escape := Reaches.of_element (step_of_denotes isQuote denotes)
      have later := ih (fun other member => hexadecimal other (List.mem_cons_of_mem _ member))
        (fun other member => small other (List.mem_cons_of_mem _ member))
      rw [codePoints, List.flatMap_cons, List.flatMap_cons, List.append_assoc]
      exact escape.trans later

theorem read_codePoints_of_large {before : List (List CodeUnit)} {digits : List CodeUnit}
    (has : .codePointEscapes ∈ features) (isQuote : quote.isQuote = true)
    (hexadecimal : ∀ other ∈ before, Escape.IsHexadecimal other)
    (small : ∀ other ∈ before, CodeUnit.numberOf 16 other ≤ 0x10FFFF) (last : Escape.IsHexadecimal digits)
    (large : 0x10FFFF < CodeUnit.numberOf 16 digits) (rest : List CodeUnit) :
    ∃ culprit, culprit <+: .of '\\' :: Escape.braced digits
      ∧ read features quote (codePoints before ++ (.of '\\' :: Escape.braced digits ++ rest))
        = .error ⟨.tooLargeCodePoint, quote :: codePoints before, culprit⟩ := by
  obtain ⟨width, within, read⟩ := Escape.read_braced_of_large has last large rest
  have divided : Escape.braced digits ++ rest = .of 'u' :: .of '\x7b' :: (digits ++ .of '\x7d' :: rest) := by
    simp [Escape.braced]
  have misread := step_misread (backslash_ne_of_isQuote isQuote) (congrArg Escape.Reading.outcome read)
  rw [read, ← divided, List.take_append_of_le_length within] at misread
  refine ⟨_, ?_, (reaches_codePoints has isQuote hexadecimal small _).read_misread misread⟩
  exact (List.prefix_append_right_inj [_]).2 (List.take_prefix _ _)

end Quoted

namespace Session

variable {t : Session} {level : Nat} {body rest : List CodeUnit}

/-- What a pull gives that reads one token over the text. -/
def pulling (s : Session) (kind : Token.Kind) (text rest : List CodeUnit) : Option Item × Session :=
  (some (.token ⟨kind, s.position, s.position.advance text⟩),
    { s with position := s.position.advance text, ahead := rest })

theorem pull_closedText_iff (unbroken : ∀ u ∈ body.head?, u.isBreak = false)
    (ahead : t.ahead = LongBracket.closedText level [] body ++ rest) :
    t.pull = t.pulling (.string (.ofUnits body)) (LongBracket.closedText level [] body) rest
      ↔ LongBracket.Clear level body := by
  have opens : LongBracket.opener level <+: t.ahead := by
    refine ⟨body ++ (LongBracket.closer level ++ rest), ?_⟩
    simp only [ahead, LongBracket.closedText, List.append_assoc, List.nil_append]
  have reads : Lexeme.read t.options.grammar t.ahead = Lexeme.readLongString t.ahead := Lexeme.read_of_opens opens
  rw [← LongBracket.isClosed_iff unbroken]
  constructor
  · intro pulled
    cases outcome : LongBracket.read t.ahead with
    | closed cut =>
        rw [Lexeme.readLongString, outcome] at reads
        rw [pull_of_token reads, pulling] at pulled
        have bytes : ByteString.ofUnits cut.value = .ofUnits body := by
          simp only [Prod.mk.injEq, Option.some.injEq, Item.token.injEq, Token.mk.injEq,
            Token.Kind.string.injEq] at pulled
          exact pulled.1.1
        have same := congrArg ByteString.units bytes
        rw [ByteString.units_ofUnits, ByteString.units_ofUnits] at same
        rw [ahead] at outcome
        exact LongBracket.isClosed_of_read unbroken outcome same
    | unclosed =>
        rw [Lexeme.readLongString, outcome] at reads
        rw [pull_of_failed reads] at pulled
        cases pulled
    | absent =>
        rw [Lexeme.readLongString, outcome] at reads
        rw [pull_of_failed reads] at pulled
        cases pulled
  · intro closed
    have read := closed.read_append rest
    rw [← ahead] at read
    rw [Lexeme.readLongString, read] at reads
    exact pull_of_token reads

variable {s : Session} {quote : CodeUnit} {spellings : List (List CodeUnit)}

theorem pull_codePoints_of_text (has : .codePointEscapes ∈ s.options.dialect.features)
    (isQuote : quote.isQuote = true) (hexadecimal : ∀ digits ∈ spellings, Escape.IsHexadecimal digits)
    (ahead : s.ahead = quote :: (Quoted.codePoints spellings ++ quote :: rest)) {text : String}
    (spelled : spellings.map (CodeUnit.numberOf 16) = text.toList.map Char.toNat) :
    s.pull = s.pulling (.string (.ofString text)) (quote :: Quoted.codePoints spellings ++ [quote]) rest := by
  have small : ∀ digits ∈ spellings, CodeUnit.numberOf 16 digits ≤ 0x10FFFF := by
    intro digits member
    have number : CodeUnit.numberOf 16 digits ∈ text.toList.map Char.toNat := spelled ▸ List.mem_map_of_mem member
    obtain ⟨c, -, same⟩ := List.mem_map.1 number
    have valid : c.toNat < 0x110000 := Utf8.lt_of_isValidChar c.valid
    omega
  have bytes : (spellings.flatMap fun digits => Utf8.encode (CodeUnit.numberOf 16 digits))
      = ByteString.ofString text := by
    rw [ByteString.ofString, ← List.flatMap_map Char.toNat Utf8.encode, ← spelled, List.flatMap_map]
  have read := (Quoted.reaches_codePoints has isQuote hexadecimal small (quote :: rest)).read_closed
  rw [bytes] at read
  exact pull_of_read_quoted isQuote ahead read

theorem pull_codePoints_of_large {before after : List (List CodeUnit)} {digits : List CodeUnit}
    (has : .codePointEscapes ∈ s.options.dialect.features)
    (isQuote : quote.isQuote = true)
    (hexadecimal : ∀ other ∈ before ++ digits :: after, Escape.IsHexadecimal other)
    (ahead : s.ahead = quote :: (Quoted.codePoints (before ++ digits :: after) ++ quote :: rest))
    (small : ∀ other ∈ before, CodeUnit.numberOf 16 other ≤ 0x10FFFF)
    (large : 0x10FFFF < CodeUnit.numberOf 16 digits) :
    let start := s.position.advance (quote :: Quoted.codePoints before)
    ∃ culprit, culprit <+: .of '\\' :: Escape.braced digits
      ∧ s.pull = (some (.failure ⟨.tooLargeCodePoint, start, start.shift culprit.length,
            Utf16.lossy culprit, s.options.chunk⟩),
          { s with position := start.shift culprit.length, ahead := [] }) := by
  intro start
  have divided : Quoted.codePoints (before ++ digits :: after) ++ quote :: rest
      = Quoted.codePoints before
        ++ (.of '\\' :: Escape.braced digits ++ (Quoted.codePoints after ++ quote :: rest)) := by
    simp [Quoted.codePoints]
  obtain ⟨culprit, front, error⟩ := Quoted.read_codePoints_of_large has isQuote
    (fun other member => hexadecimal other (List.mem_append_left _ member)) small
    (hexadecimal digits (by simp)) large (Quoted.codePoints after ++ quote :: rest)
  have failed := read_of_isQuote isQuote ahead
  rw [divided, error] at failed
  exact ⟨culprit, front, pull_of_failed failed⟩

/-- Code points in braces and the characters themselves are two ways to write a text. A pull at a
    string of such escapes, with any zeros and in either case, delivers the bytes of the text, which
    are those of its units. A long bracket around the text delivers the same exactly if the text
    is clear, unless it begins with a line break. Where a number is beyond the last code point, the
    first such escape is refused at its backslash. -/
theorem pull_codePoints (has : .codePointEscapes ∈ s.options.dialect.features)
    (isQuote : quote.isQuote = true) (hexadecimal : ∀ digits ∈ spellings, Escape.IsHexadecimal digits)
    (ahead : s.ahead = quote :: (Quoted.codePoints spellings ++ quote :: rest)) :
    (∀ text : String, spellings.map (CodeUnit.numberOf 16) = text.toList.map Char.toNat →
        let bytes := text.toUTF8.data.toList
        let body := Utf16.encode text
        s.pull = s.pulling (.string bytes) (quote :: Quoted.codePoints spellings ++ [quote]) rest
          ∧ bytes = ByteString.ofUnits body
          ∧ ((∀ u ∈ body.head?, u.isBreak = false) → ∀ (level : Nat) (t : Session) (more : List CodeUnit),
              t.ahead = LongBracket.closedText level [] body ++ more →
              (t.pull = t.pulling (.string bytes) (LongBracket.closedText level [] body) more
                ↔ LongBracket.Clear level body)))
      ∧ ∀ before digits after, spellings = before ++ digits :: after →
          (∀ other ∈ before, CodeUnit.numberOf 16 other ≤ 0x10FFFF) → 0x10FFFF < CodeUnit.numberOf 16 digits →
          let start := s.position.advance (quote :: Quoted.codePoints before)
          ∃ culprit, culprit <+: .of '\\' :: Escape.braced digits
            ∧ s.pull = (some (.failure ⟨.tooLargeCodePoint, start, start.shift culprit.length,
                  Utf16.lossy culprit, s.options.chunk⟩),
                { s with position := start.shift culprit.length, ahead := [] }) := by
  constructor
  · intro text spelled bytes body
    have standard : bytes = ByteString.ofString text := (ByteString.ofString_eq text).symm
    have units : bytes = ByteString.ofUnits body := standard.trans (ByteString.ofUnits_encode text).symm
    refine ⟨?_, units, fun unbroken level t more opens => ?_⟩
    · rw [standard]
      exact pull_codePoints_of_text has isQuote hexadecimal ahead spelled
    · rw [units]
      exact pull_closedText_iff unbroken opens
  · rintro before digits after rfl small large
    exact pull_codePoints_of_large has isQuote hexadecimal ahead small large

/-- Two characters with leading zeros and small letters, the same between brackets with an equals
    sign, and a number that is too large behind one that is not. -/
theorem pull_codePoints_smiley :
    let o : Options := { version := .lua53 }
    let quote := CodeUnit.of '\''
    let text := "é😀"
    let spellings := [spellingUnits "00e9", spellingUnits "1F600"]
    let s := start o (quote :: (Quoted.codePoints spellings ++ quote :: spellingUnits ";"))
    let bytes : ByteString := [0xC3, 0xA9, 0xF0, 0x9F, 0x98, 0x80]
    let t := start o (LongBracket.closedText 1 [] (Utf16.encode text) ++ spellingUnits ";")
    let others := [spellingUnits "7a", spellingUnits "110000"]
    let r := start o (quote :: (Quoted.codePoints others ++ [quote]))
    .codePointEscapes ∈ o.dialect.features ∧ quote.isQuote = true
      ∧ (∀ digits ∈ spellings, Escape.IsHexadecimal digits) ∧ (∀ digits ∈ others, Escape.IsHexadecimal digits)
      ∧ spellings.map (CodeUnit.numberOf 16) = text.toList.map Char.toNat
      ∧ s.pull = s.pulling (.string bytes) (quote :: Quoted.codePoints spellings ++ [quote]) (spellingUnits ";")
      ∧ LongBracket.Clear 1 (Utf16.encode text)
      ∧ t.pull = t.pulling (.string bytes) (LongBracket.closedText 1 [] (Utf16.encode text)) (spellingUnits ";")
      ∧ ∃ culprit d, culprit <+: .of '\\' :: Escape.braced (spellingUnits "110000")
          ∧ r.pull.1 = some (.failure d) ∧ d.fault = .tooLargeCodePoint ∧ d.start = ⟨1, 0, 7⟩ := by
  intro o quote text spellings s bytes t others r
  have has : .codePointEscapes ∈ o.dialect.features := by decide
  have isQuote : quote.isQuote = true := by decide
  have hexadecimal : ∀ digits ∈ spellings, Escape.IsHexadecimal digits := by decide
  have alsoHexadecimal : ∀ digits ∈ others, Escape.IsHexadecimal digits := by decide
  have spelled : spellings.map (CodeUnit.numberOf 16) = text.toList.map Char.toNat := by decide
  have clear : LongBracket.Clear 1 (Utf16.encode text) := ⟨by decide, by decide⟩
  have unbroken : ∀ u ∈ (Utf16.encode text).head?, u.isBreak = false := by
    have begins : (Utf16.encode text).head? = some (.of 'é') := by decide
    rw [begins]
    rintro u ⟨⟩
    decide
  have encoded : text.toUTF8.data.toList = bytes := by
    rw [← ByteString.ofString_eq]
    decide
  obtain ⟨agrees, -⟩ := pull_codePoints (s := s) has isQuote hexadecimal rfl
  obtain ⟨pulled, -, bracket⟩ := agrees text spelled
  rw [encoded] at pulled bracket
  obtain ⟨-, refuses⟩ := pull_codePoints (s := r) has isQuote alsoHexadecimal rfl
  obtain ⟨culprit, front, failed⟩ := refuses [spellingUnits "7a"] (spellingUnits "110000") [] rfl
    (by decide) (by decide)
  have starts : r.position.advance (quote :: Quoted.codePoints [spellingUnits "7a"]) = ⟨1, 0, 7⟩ := by
    decide +kernel
  exact ⟨has, isQuote, hexadecimal, alsoHexadecimal, spelled, pulled, clear,
    (bracket unbroken 1 t (spellingUnits ";") rfl).2 clear, culprit, _, front, congrArg Prod.fst failed, rfl, starts⟩

/-- A body without a closer may end in the front of one. The closing bracket completes that, so
    the bracket is closed too soon, and holds something else than the escapes. -/
theorem pull_closedText_unclear :
    let o : Options := { version := .lua53 }
    let quote := CodeUnit.of '\''
    let text := "]"
    let spellings := [spellingUnits "5D"]
    let s := start o (quote :: (Quoted.codePoints spellings ++ [quote]))
    let t := start o (LongBracket.closedText 0 [] (Utf16.encode text))
    .codePointEscapes ∈ o.dialect.features ∧ (∀ digits ∈ spellings, Escape.IsHexadecimal digits)
      ∧ spellings.map (CodeUnit.numberOf 16) = text.toList.map Char.toNat
      ∧ ¬ LongBracket.closer 0 <:+: Utf16.encode text
      ∧ (∀ u ∈ (Utf16.encode text).head?, u.isBreak = false)
      ∧ s.pull.1 = some (.token ⟨.string [0x5D], {}, ⟨1, 0, 8⟩⟩)
      ∧ t.pull.1 = some (.token ⟨.string [], {}, ⟨1, 0, 4⟩⟩) := by
  refine ⟨by decide, by decide, by decide, by decide, ?_, by decide +kernel, by decide +kernel⟩
  rintro u ⟨⟩
  decide

end Session

end LuaTokens
