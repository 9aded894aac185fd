import LuaTokens.Proofs.Lexeme.EscapeGrammar
import LuaTokens.Proofs.Lexeme.Quoted
import LuaTokens.Proofs.Sweep

/-! # The grammar of quoted strings

Between its quotes a string is a sequence of symbols: units that stand for themselves and
escapes. A session delivers a string exactly where there is such a sequence, and its
contents are the bytes of the escapes and of the runs of units between them.
-/

namespace LuaTokens

namespace Quoted

/-- A symbol of a string: a unit that stands for itself, or a backslash and an escape with
    the bytes that it is for. -/
inductive Symbol where
  | literal (u : CodeUnit)
  | escape (text : List CodeUnit) (bytes : ByteString)

def Symbol.text : Symbol → List CodeUnit
  | literal u => [u]
  | escape text _ => .of '\\' :: text

def spelling (symbols : List Symbol) : List CodeUnit :=
  symbols.flatMap Symbol.text

/-- The bytes of the symbols behind a run of units that stand for themselves. A run becomes
    bytes as a whole, since two of its units may be one code point. -/
def bytesBehind : List CodeUnit → List Symbol → ByteString
  | run, [] => .ofUnits run
  | run, .literal u :: symbols => bytesBehind (run ++ [u]) symbols
  | run, .escape _ bytes :: symbols => .ofUnits run ++ bytes ++ bytesBehind [] symbols

def contents (symbols : List Symbol) : ByteString :=
  bytesBehind [] symbols

/-- Between two quotes and with `rest` behind the second one, the symbols are a string. -/
inductive Spells (features : FeatureSet) (quote : CodeUnit) (rest : List CodeUnit) : List Symbol → Prop where
  | nil : Spells features quote rest []
  | literal {u : CodeUnit} {symbols : List Symbol} (inside : u ≠ quote) (unescaped : u ≠ .of '\\')
      (unbroken : u.isBreak = false) (later : Spells features quote rest symbols) :
      Spells features quote rest (.literal u :: symbols)
  | escape {text : List CodeUnit} {bytes : ByteString} {symbols : List Symbol}
      (denotes : Escape.Denotes features (spelling symbols ++ quote :: rest) text bytes)
      (later : Spells features quote rest symbols) :
      Spells features quote rest (.escape text bytes :: symbols)

variable {features : FeatureSet} {quote : CodeUnit} {input rest : List CodeUnit} {symbols : List Symbol}

section Complete

theorem backslash_ne_of_isQuote (isQuote : quote.isQuote = true) : .of '\\' ≠ quote := by
  rcases CodeUnit.isQuote_iff.1 isQuote with rfl | rfl <;> decide

theorem step_of_denotes (isQuote : quote.isQuote = true) {text : List CodeUnit} {bytes : ByteString}
    (denotes : Escape.Denotes features rest text bytes) :
    step features quote (.of '\\' :: (text ++ rest)) = .element ⟨.of '\\' :: text, bytes⟩ rest := by
  obtain ⟨v, more, rfl⟩ : ∃ v more, text = v :: more := denotes.exists_cons
  have read := Escape.read_of_denotes denotes
  rw [List.cons_append, step_escape (backslash_ne_of_isQuote isQuote) (congrArg Escape.Reading.outcome read),
    read, ← List.cons_append, List.take_left, List.drop_left]

/-- A sequence of symbols is read to its end, whatever run of units comes before it. -/
theorem reaches_of_spells (isQuote : quote.isQuote = true) (h : Spells features quote rest symbols)
    {run : List CodeUnit} (plain : ∀ u ∈ run, isPlain quote u = true) :
    Reaches features quote (run ++ (spelling symbols ++ quote :: rest)) (bytesBehind run symbols)
      (run ++ spelling symbols) (quote :: rest) := by
  induction h generalizing run with
  | nil =>
      rw [spelling, List.flatMap_nil, List.append_nil]
      refine .of_plain plain ?_
      rintro u ⟨⟩
      exact isLowSurrogate_of_not_plain isQuote (by simp [isPlain])
  | @literal u symbols inside unescaped unbroken later ih =>
      have longer : ∀ v ∈ run ++ [u], isPlain quote v = true := by
        intro v member
        rcases List.mem_append.1 member with old | new
        · exact plain v old
        · obtain rfl := List.mem_singleton.1 new
          exact isPlain_iff.2 ⟨inside, unbroken, unescaped⟩
      have reaches := ih longer
      simp only [List.append_assoc] at reaches
      exact reaches
  | @escape text bytes symbols denotes later ih =>
      have literals : Reaches features quote (run ++ .of '\\' :: (text ++ (spelling symbols ++ quote :: rest)))
          (.ofUnits run) run (.of '\\' :: (text ++ (spelling symbols ++ quote :: rest))) := by
        refine .of_plain plain ?_
        rintro u ⟨⟩
        decide
      have escape := Reaches.of_element (step_of_denotes isQuote denotes)
      have reaches := literals.trans (escape.trans (@ih [] (by simp)))
      simpa [spelling, bytesBehind, Symbol.text] using reaches

end Complete

section Sound

theorem Spells.literals (later : Spells features quote rest symbols) {run : List CodeUnit}
    (plain : ∀ u ∈ run, isPlain quote u = true) :
    Spells features quote rest (run.map .literal ++ symbols) := by
  induction run with
  | nil => exact later
  | cons u run ih =>
      obtain ⟨inside, unbroken, unescaped⟩ := isPlain_iff.1 (plain u List.mem_cons_self)
      exact .literal inside unescaped unbroken (ih fun v member => plain v (List.mem_cons_of_mem _ member))

theorem spelling_literals (run : List CodeUnit) (symbols : List Symbol) :
    spelling (run.map .literal ++ symbols) = run ++ spelling symbols := by
  induction run with
  | nil => rfl
  | cons u run ih => exact congrArg (u :: ·) ih

/-- With its first unit the whole of a code point stands for itself. -/
theorem isPlain_leading (isQuote : quote.isQuote = true) {u : CodeUnit} (plain : isPlain quote u = true)
    (tail : List CodeUnit) :
    ∀ v ∈ (u :: tail).take (Utf16.leadingWidth (u :: tail)), isPlain quote v = true := by
  have point := Utf16.onePoint_take_leadingWidth u tail
  generalize textEq : (u :: tail).take (Utf16.leadingWidth (u :: tail)) = text at point
  have first : text.head? = some u := by
    rw [← textEq, List.head?_take, if_neg (Utf16.leadingWidth_pos u tail).ne', List.head?_cons]
  intro v member
  cases point with
  | @pair high low isHigh isLow =>
      obtain rfl := Option.some.inj first
      rcases List.mem_cons.1 member with rfl | member
      · exact plain
      · obtain rfl := List.mem_singleton.1 member
        rw [← Bool.not_eq_false]
        intro ends
        rw [isLowSurrogate_of_not_plain isQuote ends] at isLow
        cases isLow
  | single whole =>
      obtain rfl := Option.some.inj first
      obtain rfl := List.mem_singleton.1 member
      exact plain

theorem exists_spells_of_closed (isQuote : quote.isQuote = true)
    (closed : (body features quote input).ending = .closed) :
    ∃ symbols rest, Spells features quote rest symbols ∧ input = spelling symbols ++ quote :: rest := by
  induction input using body.induct features quote with
  | case1 input e later element ih =>
      rw [body_of_element element] at closed
      obtain ⟨symbols, rest, spells, rfl⟩ := ih closed
      have found := form features quote input
      rw [element] at found
      generalize stepEq : Step.element e (spelling symbols ++ quote :: rest) = outcome at found
      cases found with
      | finished | closed | lineBreak | bare | misread => cases stepEq
      | @plain u tail inside unbroken unescaped =>
          obtain ⟨-, behind⟩ := Step.element.inj stepEq
          have plain := isPlain_leading isQuote (isPlain_iff.2 ⟨inside, unbroken, unescaped⟩) tail
          refine ⟨_, rest, spells.literals plain, ?_⟩
          rw [spelling_literals, List.append_assoc, behind, List.take_append_drop]
      | @escape v bytes tail inside ok =>
          obtain ⟨-, behind⟩ := Step.element.inj stepEq
          have denotes := Escape.denotes_of_read ok
          rw [← behind] at denotes
          refine ⟨_, rest, spells.escape denotes, ?_⟩
          have divided := List.take_append_drop (Escape.read features v tail).width (v :: tail)
          rw [← behind] at divided
          rw [spelling, List.flatMap_cons, List.append_assoc]
          exact congrArg (.of '\\' :: ·) divided.symm
  | case2 input ending ends =>
      rw [body_of_ending ends] at closed
      obtain rfl : ending = .closed := closed
      obtain ⟨rest, rfl⟩ := head_of_step_closed ends
      exact ⟨[], rest, .nil, rfl⟩

end Sound

theorem read_eq_ok_iff (isQuote : quote.isQuote = true) {cut : Cut ByteString} :
    read features quote input = .ok cut ↔ ∃ symbols rest, Spells features quote rest symbols
      ∧ input = spelling symbols ++ quote :: rest
      ∧ cut = ⟨contents symbols, quote :: spelling symbols ++ [quote], rest⟩ := by
  have complete {symbols : List Symbol} {rest : List CodeUnit} (spells : Spells features quote rest symbols) :
      read features quote (spelling symbols ++ quote :: rest)
        = .ok ⟨contents symbols, quote :: spelling symbols ++ [quote], rest⟩ :=
    (@reaches_of_spells _ _ _ _ isQuote spells [] (by simp)).read_closed
  constructor
  · intro ok
    have closed : (body features quote input).ending = .closed := closed_of_read ok
    obtain ⟨symbols, rest, spells, rfl⟩ := exists_spells_of_closed isQuote closed
    rw [complete spells] at ok
    exact ⟨symbols, rest, spells, rfl, (Except.ok.inj ok).symm⟩
  · rintro ⟨symbols, rest, spells, rfl, rfl⟩
    exact complete spells

end Quoted

namespace Session

variable {s : Session} {quote : CodeUnit} {input : List CodeUnit}

theorem read_of_isQuote (isQuote : quote.isQuote = true) (ahead : s.ahead = quote :: input) :
    Lexeme.read s.options.grammar s.ahead
      = .ofToken .string (Quoted.read s.options.dialect.features quote input) := by
  rw [ahead]
  exact Lexeme.read_quoted isQuote

theorem pull_of_read_quoted (isQuote : quote.isQuote = true) (ahead : s.ahead = quote :: input)
    {cut : Cut ByteString} (ok : Quoted.read s.options.dialect.features quote input = .ok cut) :
    s.pull = (some (.token ⟨.string cut.value, s.position, s.position.advance cut.text⟩),
      { s with position := s.position.advance cut.text, ahead := cut.rest }) := by
  have read := read_of_isQuote isQuote ahead
  rw [ok] at read
  exact pull_of_token read

theorem pull_of_misread_quoted (isQuote : quote.isQuote = true) (ahead : s.ahead = quote :: input)
    {m : Misreading} (error : Quoted.read s.options.dialect.features quote input = .error m) :
    s.pull.1 = some (.failure (m.diagnose s.options.chunk s.position)) := by
  have failed := read_of_isQuote isQuote ahead
  rw [error] at failed
  rw [pull_of_failed failed]

/-- Quoted strings are accepted and decoded exactly by their grammar: at a quote a session
    delivers a token if and only if symbols and the same quote follow. The token holds the
    contents of the symbols and covers them with both quotes, and the session goes on behind. -/
theorem pull_quoted_iff (isQuote : quote.isQuote = true) (ahead : s.ahead = quote :: input) (t : Token)
    (after : Session) :
    s.pull = (some (.token t), after) ↔ ∃ symbols rest,
      Quoted.Spells s.options.dialect.features quote rest symbols
        ∧ input = Quoted.spelling symbols ++ quote :: rest
        ∧ t = ⟨.string (Quoted.contents symbols), s.position,
            s.position.advance (quote :: Quoted.spelling symbols ++ [quote])⟩
        ∧ after = { s with position := t.stop, ahead := rest } := by
  constructor
  · intro pulled
    cases outcome : Quoted.read s.options.dialect.features quote input with
    | ok cut =>
        rw [pull_of_read_quoted isQuote ahead outcome] at pulled
        obtain ⟨symbols, rest, spells, input, rfl⟩ := (Quoted.read_eq_ok_iff isQuote).1 outcome
        cases pulled
        exact ⟨symbols, rest, spells, input, rfl, rfl⟩
    | error m =>
        have failed := pull_of_misread_quoted isQuote ahead outcome
        rw [pulled] at failed
        cases failed
  · rintro ⟨symbols, rest, spells, input, rfl, rfl⟩
    have ok := (Quoted.read_eq_ok_iff isQuote).2 ⟨symbols, rest, spells, input, rfl⟩
    exact pull_of_read_quoted isQuote ahead ok

/-- Skipped white space, a decimal escape before a digit and a code point, behind a name. -/
theorem pull_quoted_iff_escapes :
    let o : Options := { version := .lua53 }
    let s := (start o (spellingUnits "a'\\z\n b\\0651\\u\x7b041\x7d'c")).pull.2
    let input := spellingUnits "\\z\n b\\0651\\u\x7b041\x7d'c"
    let t : Token := ⟨.string [0x62, 0x41, 0x31, 0x41], ⟨1, 0, 1⟩, ⟨2, 5, 20⟩⟩
    let after := { s with position := t.stop, ahead := spellingUnits "c" }
    (CodeUnit.of '\'').isQuote = true ∧ s.ahead = .of '\'' :: input ∧ s.pull = (some (.token t), after)
      ∧ ∃ symbols rest, Quoted.Spells s.options.dialect.features (.of '\'') rest symbols
          ∧ input = Quoted.spelling symbols ++ .of '\'' :: rest := by
  intro o s input t after
  have isQuote : (CodeUnit.of '\'').isQuote = true := by decide
  have ahead : s.ahead = .of '\'' :: input := by decide +kernel
  have pulled : s.pull = (some (.token t), after) := by decide +kernel
  obtain ⟨symbols, rest, spells, divided, -⟩ := (pull_quoted_iff isQuote ahead t after).1 pulled
  exact ⟨isQuote, ahead, pulled, symbols, rest, spells, divided⟩

end Session

end LuaTokens
