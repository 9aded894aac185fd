import LuaTokens.Proofs.Coverage
import LuaTokens.Proofs.Lexeme.Fault
import LuaTokens.Proofs.Sweep

/-! # What a failure reports

A run fails at the first lexeme that cannot be read. Its report covers a part of that
lexeme which is not empty, stops where reading stopped, and begins at the construct that
the fault is about.
-/

namespace LuaTokens

def Diagnostic.slice (source : List CodeUnit) (d : Diagnostic) : List CodeUnit :=
  (source.drop d.start.offset).take (d.stop.offset - d.start.offset)

/-- A quoted string opens at `opening`, and its elements go on to `offset`. -/
def Quoted.IsOpen (features : FeatureSet) (source : List CodeUnit) (opening offset : Nat) : Prop :=
  ∃ quote ∈ source[opening]?, quote.isQuote = true ∧ opening < offset
    ∧ (body features quote (source.drop (opening + 1))).text
      = (source.drop (opening + 1)).take (offset - (opening + 1))

theorem Quoted.isOpen_of_drop {features : FeatureSet} {source input rest : List CodeUnit} {quote : CodeUnit}
    {opening : Nat} (behind : source.drop opening = quote :: input) (isQuote : quote.isQuote = true)
    (divided : input = (body features quote input).text ++ rest) :
    IsOpen features source opening (opening + (quote :: (body features quote input).text).length) := by
  have first : source[opening]? = some quote := by
    rw [← List.head?_drop, behind]
    rfl
  have after : source.drop (opening + 1) = input := by
    rw [← List.drop_drop, behind]
    rfl
  have elements := congrArg (List.take (body features quote input).text.length) divided
  rw [List.take_left] at elements
  refine ⟨quote, first, isQuote, by simp, ?_⟩
  rw [after, List.length_cons, Nat.add_comm _ 1, ← Nat.add_assoc, Nat.add_sub_cancel_left, elements]

/-- The report begins at the construct that its fault is about, where the lexeme that
    cannot be read begins at `begins`. The last case is that of the faulty escapes. -/
def Diagnostic.Names (features : FeatureSet) (source : List CodeUnit) (begins : Position)
    (d : Diagnostic) : Prop :=
  match d.fault with
  | .unfinishedString =>
      d.start = begins ∧ (∃ quote ∈ source[d.start.offset]?, quote.isQuote = true)
        ∧ ∀ u ∈ source[d.stop.offset]?, u.isBreak = true
  | .unfinishedLongString =>
      d.start = begins ∧ source[d.start.offset]? = some (.of '[')
        ∧ LongBracket.read (source.drop d.start.offset) = .unclosed
  | .unfinishedLongComment =>
      d.start = begins.shift 2 ∧ (source.drop begins.offset).take 2 = [.of '-', .of '-']
        ∧ source[d.start.offset]? = some (.of '[')
        ∧ LongBracket.read (source.drop d.start.offset) = .unclosed
  | .malformedNumber =>
      d.start = begins ∧ ∃ u rest, source.drop d.start.offset = u :: rest
        ∧ Lexeme.beginsNumeral u rest = true ∧ d.slice source = (Numeral.take (u :: rest)).text
  | .invalidDelimiter =>
      d.start = begins ∧ ∃ count, d.slice source = .of '[' :: List.replicate (count + 1) (.of '=')
  | .unexpectedSymbol => d.start = begins ∧ d.stop.offset = d.start.offset + 1
  | fault =>
      Quoted.IsOpen features source begins.offset d.start.offset
        ∧ source[d.start.offset]? = some (.of '\\')
        ∧ ∃ u ∈ source[d.start.offset + 1]?, Escape.FaultyAt features u fault

namespace Misreading

variable {m : Misreading} {g : Grammar} {chunk : Option String} {source input rest : List CodeUnit}
  {begins : Position}

theorem start_diagnose (m : Misreading) (chunk : Option String) (p : Position) :
    (m.diagnose chunk p).start.offset = p.offset + m.lead.length := by
  rw [diagnose, Position.offset_advance]

section Divided

variable (rest) (divided : source.drop begins.offset = m.lead ++ (m.culprit ++ rest))
include divided

theorem drop_start_diagnose : source.drop (m.diagnose chunk begins).start.offset = m.culprit ++ rest := by
  rw [start_diagnose, ← List.drop_drop, divided, List.drop_left]

theorem drop_stop_diagnose : source.drop (m.diagnose chunk begins).stop.offset = rest := by
  rw [offset_diagnose, ← List.drop_drop, ← List.drop_drop, divided, List.drop_left, List.drop_left]

theorem slice_diagnose : (m.diagnose chunk begins).slice source = m.culprit := by
  rw [Diagnostic.slice, drop_start_diagnose rest divided, start_diagnose, offset_diagnose,
    Nat.add_sub_cancel_left, List.take_left]

theorem getElem?_start_diagnose :
    source[(m.diagnose chunk begins).start.offset]? = (m.culprit ++ rest).head? := by
  rw [← List.head?_drop, drop_start_diagnose rest divided]

theorem getElem?_stop_diagnose : source[(m.diagnose chunk begins).stop.offset]? = rest.head? := by
  rw [← List.head?_drop, drop_stop_diagnose rest divided]

end Divided

theorem unclosed_diagnose (divided : source.drop begins.offset = m.lead ++ m.culprit)
    (unclosed : LongBracket.read m.culprit = .unclosed) :
    source[(m.diagnose chunk begins).start.offset]? = some (.of '[')
      ∧ LongBracket.read (source.drop (m.diagnose chunk begins).start.offset) = .unclosed := by
  have whole : source.drop begins.offset = m.lead ++ (m.culprit ++ []) := by
    rw [List.append_nil, divided]
  rw [getElem?_start_diagnose [] whole, drop_start_diagnose [] whole, List.append_nil]
  exact ⟨LongBracket.head_of_unclosed unclosed, unclosed⟩

theorem names_of_escape {features : FeatureSet} {quote u : CodeUnit} {more : List CodeUnit}
    (whole : source.drop begins.offset = quote :: input) (isQuote : quote.isQuote = true)
    (divided : input = (Quoted.body features quote input).text ++ (m.culprit ++ rest))
    (lead : m.lead = quote :: (Quoted.body features quote input).text)
    (culprit : m.culprit = .of '\\' :: u :: more) (faulty : Escape.FaultyAt features u m.fault) :
    (m.diagnose chunk begins).Names features source begins := by
  have parted : source.drop begins.offset = m.lead ++ (m.culprit ++ rest) := by
    rw [lead]
    exact whole.trans (congrArg (quote :: ·) divided)
  have isOpen := Quoted.isOpen_of_drop whole isQuote divided
  rw [← lead, ← m.start_diagnose chunk begins] at isOpen
  have backslash : source[(m.diagnose chunk begins).start.offset]? = some (.of '\\') := by
    rw [getElem?_start_diagnose rest parted, culprit]
    rfl
  have letter : source[(m.diagnose chunk begins).start.offset + 1]? = some u := by
    rw [← List.getElem?_drop, drop_start_diagnose rest parted, culprit]
    rfl
  have letters : ∃ u ∈ source[(m.diagnose chunk begins).start.offset + 1]?,
      Escape.FaultyAt features u m.fault := ⟨u, letter, faulty⟩
  have named := And.intro isOpen (And.intro backslash letters)
  -- The faults that are told apart by name are none that an escape can have.
  obtain ⟨fault, _, _⟩ := m
  cases fault <;> first | exact named | exact faulty.elim

/-- The report of a lexeme that cannot be read begins where its fault says. -/
theorem names_diagnose (whole : source.drop begins.offset = input) (failing : Lexeme.Failing g input m) :
    (m.diagnose chunk begins).Names g.features source begins := by
  cases failing with
  | @unfinishedString quote text rest isQuote cutOff =>
      refine ⟨rfl, ⟨quote, getElem?_start_diagnose rest whole, isQuote⟩, ?_⟩
      rw [getElem?_stop_diagnose rest whole]
      exact cutOff
  | escape more rest isQuote divided faulty => exact names_of_escape whole isQuote divided rfl rfl faulty
  | longString unclosed => exact ⟨rfl, unclosed_diagnose whole unclosed⟩
  | longComment unclosed =>
      have dashes : ∀ u ∈ [CodeUnit.of '-', .of '-'], u.isBreak = false :=
        CodeUnit.forall_of_any (by decide)
      refine ⟨begins.advance_of_unbroken dashes, ?_, unclosed_diagnose whole unclosed⟩
      rw [whole]
      rfl
  | delimiter count rest => exact ⟨rfl, count, slice_diagnose rest whole⟩
  | @numeral u rest isNumeral =>
      have text := Numeral.text_append_rest_take (u :: rest)
      have parted := whole.trans text.symm
      refine ⟨rfl, u, rest, ?_, isNumeral, slice_diagnose _ parted⟩
      rw [drop_start_diagnose _ parted, text]
  | symbol =>
      refine ⟨rfl, ?_⟩
      rw [start_diagnose, offset_diagnose]
      rfl

end Misreading

namespace Run

theorem exists_failing {o : Options} {source : List CodeUnit} {d : Diagnostic}
    (failed : (ofUnits o source).failure = some d) :
    ∃ m rest, d = m.diagnose o.chunk (trace o source).stop
      ∧ (ofUnits o source).position = d.stop
      ∧ source.drop (trace o source).stop.offset = m.lead ++ (m.culprit ++ rest)
      ∧ m.culprit ≠ []
      ∧ Lexeme.Failing o.grammar (source.drop (trace o source).stop.offset) m := by
  rw [ofUnits_eq] at failed ⊢
  obtain ⟨m, misread, rfl⟩ := Option.map_eq_some_iff.1 failed
  have read := read_stop_of_failed misread
  have splits := Lexeme.splits_of_failed read
  obtain ⟨rest, divided⟩ := splits.lead_culprit
  refine ⟨m, rest, rfl, ?_, divided, splits.culprit_ne_nil, Lexeme.failing_of_failed read⟩
  simp only [Trace.position, misread]
  rfl

/-- Every report of a failure is consistent with the source. It covers a part of it that is not
    empty and stops where reading did. It names the end of the source exactly for long brackets,
    which then go on to there, and quotes the source otherwise. It begins at the construct that
    the fault is about, and the fault is one that the dialect has. -/
theorem diagnosis (o : Options) (source : List CodeUnit) {d : Diagnostic}
    (failed : (ofUnits o source).failure = some d) :
    d.start.offset < d.stop.offset ∧ d.stop.offset ≤ source.length
      ∧ (ofUnits o source).position = d.stop ∧ d.chunk = o.chunk
      ∧ (d.near = "<eof>" ↔ d.fault.atEnd = true)
      ∧ (d.fault.atEnd = true → d.stop.offset = source.length)
      ∧ (d.fault.atEnd = false →
          (Session.start o source).sourceText? d.start.offset d.stop.offset = some d.near)
      ∧ d.Names o.dialect.features source (trace o source).stop := by
  obtain ⟨m, rest, same, position, divided, nonempty, failing⟩ := exists_failing failed
  obtain ⟨before, place⟩ := place_stop o source
  have start : d.start.offset = (trace o source).stop.offset + m.lead.length := by
    rw [same, Misreading.start_diagnose]
  have stop : d.stop.offset = d.start.offset + m.culprit.length := by
    rw [start, same, Misreading.offset_diagnose]
  have positive := List.length_pos_iff.2 nonempty
  have total : d.stop.offset + rest.length = source.length := by
    have lengths := congrArg List.length divided
    have within := place.offset_le
    simp only [List.length_drop, List.length_append] at lengths
    omega
  have near : d.near = if m.fault.atEnd then "<eof>" else Utf16.lossy m.culprit := by
    rw [same]
    rfl
  have fault : d.fault = m.fault := by
    rw [same]
    rfl
  have names : d.Names o.dialect.features source (trace o source).stop := by
    rw [same]
    exact Misreading.names_diagnose rfl failing
  have chunk : d.chunk = o.chunk := by
    rw [same]
    rfl
  rw [fault, near]
  refine ⟨by omega, by omega, position, chunk, ⟨?_, fun atEnd => if_pos atEnd⟩, ?_, ?_, names⟩
  · intro word
    by_contra inside
    rw [if_neg inside, show "<eof>" = String.ofList ('<' :: ['e', 'o', 'f', '>']) by decide] at word
    exact failing.head?_culprit_ne (Bool.eq_false_iff.2 inside) (Utf16.head?_of_lossy (by decide) word)
  · intro atEnd
    have whole := failing.lead_culprit_of_atEnd atEnd
    rw [divided, ← List.append_assoc, List.self_eq_append_right] at whole
    rw [← total, whole, List.length_nil, Nat.add_zero]
  · intro inside
    have slice : d.slice source = m.culprit := by
      rw [same, Misreading.slice_diagnose rest divided]
    have fits : d.start.offset ≤ d.stop.offset ∧ d.stop.offset ≤ (Session.start o source).source.length := by
      change _ ∧ _ ≤ source.length
      omega
    rw [Session.sourceText?, if_pos fits, if_neg (Bool.eq_false_iff.1 inside), ← slice]
    rfl

/-- An unknown escape in a string that is not closed. -/
theorem diagnosis_escape :
    let o : Options := { version := .lua52 }
    let source := spellingUnits "'\\q"
    let d : Diagnostic := ⟨.invalidEscape, ⟨1, 0, 1⟩, ⟨1, 0, 3⟩, "\\q", none⟩
    (ofUnits o source).failure = some d ∧ (ofUnits o source).position = ⟨1, 0, 3⟩
      ∧ (Session.start o source).sourceText? 1 3 = some "\\q"
      ∧ d.Names o.dialect.features source (trace o source).stop := by
  intro o source d
  have body : Quoted.body o.dialect.features (.of '\'') (spellingUnits "\\q")
      = ⟨[], .misread .invalidEscape (spellingUnits "\\q"), spellingUnits "\\q"⟩ :=
    Quoted.body_of_ending (by decide)
  have read : Lexeme.read o.grammar source
      = .failed ⟨.invalidEscape, spellingUnits "'", spellingUnits "\\q"⟩ := by
    have quoted : Lexeme.read o.grammar source
        = .ofToken .string (Quoted.read o.dialect.features (.of '\'') (spellingUnits "\\q")) :=
      Lexeme.read_quoted (by decide)
    rw [quoted, Quoted.read, body]
    rfl
  have failed : (ofUnits o source).failure = some d := by
    have stopped : trace o source = ⟨[], {}, source, some ⟨.invalidEscape, spellingUnits "'",
        spellingUnits "\\q"⟩⟩ := Trace.of_failed read
    rw [ofUnits_eq, stopped]
    decide
  obtain ⟨-, -, position, -, -, -, text, names⟩ := diagnosis o source failed
  exact ⟨failed, position, text rfl, names⟩

end Run

end LuaTokens
