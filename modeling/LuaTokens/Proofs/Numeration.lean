import LuaTokens.Proofs.Lexeme.NumeralGrammar
import LuaTokens.Proofs.Scanner.Numeral
import LuaTokens.Proofs.Sweep

/-! # Numerals are delivered as the grammar cuts them

Where a numeral begins, a pull delivers all that the grammar cuts there: as one token, or
as one failure if a part of it lacks its digits. The text of a decimal numeral is given to
a parser, which the grammar leaves nothing to refuse.
-/

namespace LuaTokens

/-- The parser accepts the text of every decimal numeral. -/
def Numeral.AcceptsDecimals (parse : List CodeUnit → Option Binary64) : Prop :=
  ∀ n : Numeral, n.IsDecimal → ∃ value, parse n.text = some value

namespace Numeral

section Cuts

variable {input rest : List CodeUnit} {n : Numeral} (cuts : Cuts input n rest)

include cuts

theorem Cuts.isBreak_text : ∀ u ∈ n.text, u.isBreak = false := by
  have read := cuts.read_eq
  by_cases wellFormed : n.isWellFormed = true
  · rw [if_pos wellFormed] at read
    exact Lexeme.isBreak_of_readNumeral read
  · rw [if_neg wellFormed] at read
    exact isBreak_of_misread read

theorem Cuts.radix_eq : n.radix = Radix.ofUnits input :=
  congrArg (fun cut => cut.value.radix) (cuts_iff.1 cuts).symm

theorem Cuts.digits_ne_nil {u : CodeUnit} {behind : List CodeUnit} (ahead : input = u :: behind)
    (begins : Lexeme.beginsNumeral u behind = true) (decimal : n.radix = .decimal) : n.digits ≠ [] := by
  subst ahead
  have filled := Scan.digits_ne_nil_of_decimal begins (cuts.radix_eq.symm.trans decimal)
  rwa [cuts_iff.1 cuts] at filled

end Cuts

theorem acceptsDecimals_parseNumber : AcceptsDecimals Scan.parseNumber := by
  intro n decimal
  have read := decimal.cuts.read_eq
  rw [if_pos (isWellFormed_iff.2 decimal.not_lacksDigits)] at read
  refine ⟨n.value, ?_⟩
  rw [Scan.parseNumber, read]
  exact if_pos rfl

end Numeral

namespace Session

section Pull

variable {s : Session} {u : CodeUnit} {input rest : List CodeUnit} {n : Numeral}

theorem pull_of_lacksDigits (ahead : s.ahead = u :: input) (begins : Lexeme.beginsNumeral u input = true)
    (cuts : Numeral.Cuts s.ahead n rest) (lacks : n.LacksDigits) :
    s.pull = (some (.failure ⟨.malformedNumber, s.position, s.position.shift n.text.length,
        Utf16.lossy n.text, s.options.chunk⟩),
      { s with position := s.position.shift n.text.length, ahead := [] }) := by
  have failed : Lexeme.read s.options.grammar s.ahead = .failed ⟨.malformedNumber, [], n.text⟩ := by
    have read := cuts.read_eq
    rw [if_neg fun wellFormed => Numeral.isWellFormed_iff.1 wellFormed lacks] at read
    rw [ahead] at read ⊢
    rw [Lexeme.read_numeral begins, read]
    rfl
  have stop : s.position.advance n.text = s.position.shift n.text.length :=
    s.position.advance_of_unbroken cuts.isBreak_text
  rw [pull_of_failed failed, ← stop]
  rfl

theorem pull_of_cuts (ahead : s.ahead = u :: input) (begins : Lexeme.beginsNumeral u input = true)
    (cuts : Numeral.Cuts s.ahead n rest) (filled : ¬ n.LacksDigits) :
    s.pull = (some (.token ⟨.number n.value, s.position, s.position.shift n.text.length⟩),
      { s with position := s.position.shift n.text.length, ahead := rest }) := by
  have read : Lexeme.read s.options.grammar s.ahead = .read ⟨.token (.number n.value), n.text, rest⟩ := by
    have read := cuts.read_eq
    rw [if_pos (Numeral.isWellFormed_iff.2 filled)] at read
    rw [ahead] at read ⊢
    rw [Lexeme.read_numeral begins, read]
    rfl
  rw [pull_of_token read, s.position.advance_of_unbroken cuts.isBreak_text]

end Pull

end Session

namespace Scan

/-- A scanner moves over a decimal numeral and gives its text to a parser that accepts it, or fails
    behind an exponent without digits. It does nothing else. -/
theorem ensures_decimalNumeralBy_of_cuts {opening : Scanner} {u : CodeUnit} {input rest : List CodeUnit}
    {n : Numeral} {parse : List CodeUnit → Option Binary64} {chunk : Option String}
    (ahead : opening.ahead = u :: input) (begins : Lexeme.beginsNumeral u input = true)
    (cuts : Numeral.Cuts opening.ahead n rest) (decimal : n.radix = .decimal)
    (accepts : Numeral.AcceptsDecimals parse) (refuse : Scan Binary64) :
    (decimalNumeralBy chunk opening.position parse refuse).Ensures opening
      (fun value after => ¬ n.LacksDigits ∧ parse n.text = some value
        ∧ after.position = opening.position.shift n.text.length)
      (fun d after => n.LacksDigits ∧ after.position = opening.position.shift n.text.length
        ∧ d = ⟨.malformedNumber, opening.position, after.position, Utf16.lossy n.text, chunk⟩) := by
  have maximal := cuts.maximal (cuts.digits_ne_nil ahead begins decimal)
  have accepted (wellFormed : n.isWellFormed = true) : ∃ value, parse n.text = some value :=
    accepts n (cuts.isDecimal decimal (Numeral.isWellFormed_iff.1 wellFormed))
  refine (ensures_decimalNumeralBy maximal cuts.text_append.symm decimal refuse accepted).mono ?_ ?_
  · rintro value after ⟨wellFormed, parsed, shifted⟩
    exact ⟨Numeral.isWellFormed_iff.1 wellFormed, parsed, shifted.position⟩
  · rintro d after ⟨m, misread, fails⟩
    have read := cuts.read_eq
    by_cases wellFormed : n.isWellFormed = true
    · rw [if_pos wellFormed, misread] at read
      cases read
    · rw [if_neg wellFormed, misread] at read
      cases read
      have stop : opening.position.advance n.text = opening.position.shift n.text.length :=
        opening.position.advance_of_unbroken cuts.isBreak_text
      have position : after.position = opening.position.advance n.text := by
        rw [fails.position, fails.diagnostic_eq]
        rfl
      refine ⟨not_not.1 fun filled => wellFormed (Numeral.isWellFormed_iff.2 filled), position.trans stop, ?_⟩
      rw [fails.diagnostic_eq, position]
      rfl

end Scan

namespace Session

/-- A pull at a numeral delivers all that the grammar cuts there and nothing else. Without the digits
    that a part needs it is malformed, and a parser that accepts decimals never refuses the text of
    a decimal one, whatever a refusal would do. -/
theorem pull_numeral {s : Session} {u : CodeUnit} {input : List CodeUnit}
    {parse : List CodeUnit → Option Binary64} (ahead : s.ahead = u :: input)
    (begins : u.isDigit = true ∨ u = .of '.' ∧ ∃ v ∈ input.head?, v.isDigit = true)
    (accepts : Numeral.AcceptsDecimals parse) :
    ∃ n rest, Numeral.Cuts s.ahead n rest
      ∧ (∀ other rest', Numeral.Cuts s.ahead other rest' → other = n ∧ rest' = rest)
      ∧ (n.LacksDigits → s.pull
          = (some (.failure ⟨.malformedNumber, s.position, s.position.shift n.text.length,
              Utf16.lossy n.text, s.options.chunk⟩),
            { s with position := s.position.shift n.text.length, ahead := [] }))
      ∧ (¬ n.LacksDigits → s.pull
          = (some (.token ⟨.number n.value, s.position, s.position.shift n.text.length⟩),
            { s with position := s.position.shift n.text.length, ahead := rest }))
      ∧ (n.radix = .decimal → ∀ (opening : Scanner) (refuse : Scan Binary64), opening.ahead = s.ahead →
          (Scan.decimalNumeralBy s.options.chunk opening.position parse refuse).Ensures opening
            (fun value after => ¬ n.LacksDigits ∧ parse n.text = some value
              ∧ after.position = opening.position.shift n.text.length)
            (fun d after => n.LacksDigits ∧ after.position = opening.position.shift n.text.length
              ∧ d = ⟨.malformedNumber, opening.position, after.position, Utf16.lossy n.text,
                  s.options.chunk⟩)) := by
  have numeral := Lexeme.beginsNumeral_iff.2 begins
  have cuts := Numeral.cuts_take s.ahead
  refine ⟨_, _, cuts, fun _ _ => cuts.unique, pull_of_lacksDigits ahead numeral cuts,
    pull_of_cuts ahead numeral cuts, fun decimal opening refuse same => ?_⟩
  rw [← same] at ahead cuts decimal ⊢
  exact Scan.ensures_decimalNumeralBy_of_cuts ahead numeral cuts decimal accepts refuse

/-- A numeral with a point in front, a signed exponent and two points behind it. -/
theorem pull_numeral_concatenated :
    let s := ((start {} (spellingUnits "x=.5e+07..y")).pulls 2).2
    let n : Numeral := ⟨.decimal, [], some [.of '5'], some ⟨.of 'e', some (.of '+'), [.of '0', .of '7']⟩⟩
    s.ahead = .of '.' :: spellingUnits "5e+07..y"
      ∧ (∃ v ∈ (spellingUnits "5e+07..y").head?, v.isDigit = true)
      ∧ Numeral.AcceptsDecimals Scan.parseNumber ∧ Numeral.Cuts s.ahead n (spellingUnits "..y")
      ∧ s.pull = (some (.token ⟨.number n.value, ⟨1, 0, 2⟩, ⟨1, 0, 8⟩⟩),
          { s with position := ⟨1, 0, 8⟩, ahead := spellingUnits "..y" }) := by
  intro s n
  have ahead : s.ahead = .of '.' :: spellingUnits "5e+07..y" := by decide +kernel
  have begins : ∃ v ∈ (spellingUnits "5e+07..y").head?, v.isDigit = true := ⟨.of '5', rfl, rfl⟩
  have accepts := Numeral.acceptsDecimals_parseNumber
  have cuts : Numeral.Cuts s.ahead n (spellingUnits "..y") := Numeral.cuts_iff.2 (by decide +kernel)
  obtain ⟨m, rest, -, only, -, token, -⟩ := pull_numeral ahead (.inr ⟨rfl, begins⟩) accepts
  obtain ⟨rfl, rfl⟩ := only n _ cuts
  have filled : n.isWellFormed = true := by decide
  have position : s.position = ⟨1, 0, 2⟩ := by decide +kernel
  have pulled := token (Numeral.isWellFormed_iff.1 filled)
  rw [position] at pulled
  exact ⟨ahead, begins, accepts, cuts, pulled⟩

end Session

end LuaTokens
