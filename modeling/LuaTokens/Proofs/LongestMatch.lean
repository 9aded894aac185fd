import LuaTokens.Proofs.Sweep
import LuaTokens.Proofs.Token.Symbol

/-! # Pulling symbols

Behind white space and comments stands a name, a string, a numeral, or else a symbol. A pull
then delivers the longest symbol that the dialect has there, and fails on a single unit if it
has none.
-/

namespace LuaTokens

theorem Lexeme.readSymbol_eq_dispatch (g : Grammar) (u : CodeUnit) (rest : List CodeUnit) :
    readSymbol g (u :: rest) = match Symbol.dispatch g.features u rest.head? rest[1]? with
      | some w => .read (.ofWidth w.units.length (u :: rest) (.token w.kind))
      | none => .failed ⟨.unexpectedSymbol, [], [u]⟩ := by
  rw [Symbol.dispatch_eq, readSymbol]
  simp only [List.isPrefixOf_iff_prefix]
  split
  · rfl
  · cases Punctuator.leading? g.features (u :: rest) <;> rfl

namespace Session

/-- Nothing but white space and comments is between the sessions. The second one holds the
    comments if the options ask for it. -/
inductive Skips : Session → Session → Prop where
  | refl (s : Session) : Skips s s
  | space {s t : Session} {text rest : List CodeUnit}
      (read : Lexeme.read s.options.grammar s.ahead = .read ⟨.space, text, rest⟩)
      (later : Skips { s with position := s.position.advance text, ahead := rest } t) : Skips s t
  | comment {s t : Session} {body text rest : List CodeUnit}
      (read : Lexeme.read s.options.grammar s.ahead = .read ⟨.comment body, text, rest⟩)
      (later : Skips { s with
        position := s.position.advance text
        ahead := rest
        comments :=
          if s.options.comments then
            s.comments.push ⟨.ofUnits body, Utf16.lossy text, s.position, s.position.advance text⟩
          else s.comments } t) : Skips s t

/-- The session stands at a unit `u` with which none of the other lexemes begins. -/
structure AtSymbol (s : Session) (u : CodeUnit) (rest : List CodeUnit) : Prop where
  ahead : s.ahead = u :: rest
  noSpace : u.isSpace = false
  noComment : ¬ spellingUnits "--" <+: u :: rest
  noName : u.isNameStart s.options.grammar.extendedIdentifiers = false
  noQuote : u.isQuote = false
  noDigit : u.isDigit = false
  noFraction : u = .of '.' → ∀ v ∈ rest.head?, v.isDigit = false
  noLongBracket : u = .of '[' → rest.head? ≠ some (.of '[') ∧ rest.head? ≠ some (.of '=')

section Pull

variable {s t : Session} {u : CodeUnit} {rest : List CodeUnit}

/-- A pull is indifferent to white space and comments, but for those that are held. -/
theorem Skips.pull_eq (skips : Skips s t) : s.pull = t.pull ∧ s.options = t.options := by
  induction skips with
  | refl => exact ⟨rfl, rfl⟩
  | space read _ ih =>
      refine ⟨Eq.trans ?_ ih.1, ih.2⟩
      rw [pull, sweep, Sweep.of_read read]
      rfl
  | @comment s t body text rest read _ ih =>
      refine ⟨Eq.trans ?_ ih.1, ih.2⟩
      rw [pull, sweep, Sweep.of_read read]
      simp only [pull, sweep, Sweep.behind]
      split
      next captured => simp
      next => rfl

theorem AtSymbol.read_eq (stands : s.AtSymbol u rest) :
    Lexeme.read s.options.grammar s.ahead = Lexeme.readSymbol s.options.grammar (u :: rest) := by
  have noComment : Lexeme.beginsComment u rest = false := by
    rw [← Bool.not_eq_true]
    intro begins
    simp only [Lexeme.beginsComment, Bool.and_eq_true, decide_eq_true_eq] at begins
    obtain ⟨rfl, second⟩ := begins
    obtain ⟨tail, rfl⟩ := List.head?_eq_some_iff.1 second
    exact stands.noComment ⟨tail, rfl⟩
  have noNumeral : Lexeme.beginsNumeral u rest = false := by
    rw [← Bool.not_eq_true, Lexeme.beginsNumeral_iff]
    rintro (digit | ⟨point, v, next, digit⟩)
    · rw [stands.noDigit] at digit
      cases digit
    · rw [stands.noFraction point v next] at digit
      cases digit
  have noLongString : Lexeme.beginsLongString u rest = false := by
    rw [← Bool.not_eq_true, Lexeme.beginsLongString_iff]
    rintro ⟨bracket, opener⟩
    obtain ⟨noBracket, noSign⟩ := stands.noLongBracket bracket
    exact opener.elim noBracket noSign
  rw [stands.ahead]
  exact Lexeme.read_symbol stands.noSpace noComment stands.noName stands.noQuote noNumeral noLongString

theorem isBreak_symbol (w : Symbol) : ∀ v ∈ w.units, v.isBreak = false := by
  cases w with
  | vararg => exact CodeUnit.forall_of_any (by decide)
  | punctuator p => exact Lexeme.isBreak_punctuator p

theorem AtSymbol.pull_of_longest {w : Symbol} (stands : s.AtSymbol u rest)
    (longest : w.Longest s.options.grammar.features s.ahead) :
    s.pull = (some (.token ⟨w.kind, s.position, s.position.shift w.units.length⟩),
      { s with
        position := s.position.shift w.units.length
        ahead := s.ahead.drop w.units.length }) := by
  have text : s.ahead.take w.units.length = w.units := (List.prefix_iff_eq_take.1 longest.fits).symm
  have read : Lexeme.read s.options.grammar s.ahead
      = .read ⟨.token w.kind, w.units, s.ahead.drop w.units.length⟩ := by
    rw [stands.ahead] at longest text
    rw [stands.read_eq, Lexeme.readSymbol_eq_dispatch, Symbol.dispatch_eq_some_iff.2 longest]
    simp only [Cut.ofWidth, text, stands.ahead]
  rw [pull_of_token read, s.position.advance_of_unbroken (isBreak_symbol w)]

theorem AtSymbol.pull_of_none (stands : s.AtSymbol u rest)
    (none : ∀ w : Symbol, w.Live s.options.grammar.features → ¬ w.units <+: s.ahead) :
    s.pull = (some (.failure ⟨.unexpectedSymbol, s.position, s.position.shift 1, Utf16.lossy [u],
        s.options.chunk⟩), { s with position := s.position.shift 1, ahead := [] }) := by
  have missing : Symbol.dispatch s.options.grammar.features u rest.head? rest[1]? = .none := by
    cases found : Symbol.dispatch s.options.grammar.features u rest.head? rest[1]? with
    | none => rfl
    | some w =>
        have longest := Symbol.longest_of_dispatch found
        rw [← stands.ahead] at longest
        exact absurd longest.fits (none w longest.live)
  have failed : Lexeme.read s.options.grammar s.ahead = .failed ⟨.unexpectedSymbol, [], [u]⟩ := by
    rw [stands.read_eq, Lexeme.readSymbol_eq_dispatch, missing]
  have unbroken : ∀ v ∈ [u], v.isBreak = false := by
    simpa using CodeUnit.isBreak_of_not_isSpace stands.noSpace
  have stop : s.position.advance [u] = s.position.shift 1 := s.position.advance_of_unbroken unbroken
  rw [pull_of_failed failed, ← stop]
  rfl

end Pull

/-- Where no other lexeme begins, a pull delivers the longest symbol of the dialect, which the
    dispatch on the next units finds, and fails on one unit if no symbol fits. -/
theorem pull_symbol {s t : Session} {u : CodeUnit} {rest : List CodeUnit} (skips : s.Skips t)
    (stands : t.AtSymbol u rest) :
    let features := s.options.grammar.features
    ((∃ w : Symbol, w.Live features ∧ w.units <+: t.ahead) →
        ∃ w : Symbol, w.Longest features t.ahead ∧ (∀ v : Symbol, v.Longest features t.ahead → v = w)
          ∧ s.pull = (some (.token ⟨w.kind, t.position, t.position.shift w.units.length⟩),
              { t with
                position := t.position.shift w.units.length
                ahead := t.ahead.drop w.units.length }))
      ∧ ((∀ w : Symbol, w.Live features → ¬ w.units <+: t.ahead) →
          s.pull = (some (.failure ⟨.unexpectedSymbol, t.position, t.position.shift 1, Utf16.lossy [u],
              s.options.chunk⟩), { t with position := t.position.shift 1, ahead := [] }))
      ∧ ∀ w : Symbol, Symbol.dispatch features u rest.head? rest[1]? = some w ↔ w.Longest features t.ahead := by
  intro features
  obtain ⟨pulled, options⟩ := skips.pull_eq
  have same : features = t.options.grammar.features := congrArg (fun o => o.grammar.features) options
  rw [pulled, options, same]
  refine ⟨fun ⟨v, live, fits⟩ => ?_, stands.pull_of_none, fun w => ?_⟩
  · rw [stands.ahead] at fits
    cases found : Symbol.dispatch t.options.grammar.features u rest.head? rest[1]? with
    | none => exact absurd fits (Symbol.not_fits_of_dispatch found live)
    | some w =>
        have longest := Symbol.longest_of_dispatch found
        rw [← stands.ahead] at longest
        exact ⟨w, longest, fun _ => longest.unique, stands.pull_of_longest longest⟩
  · rw [stands.ahead]
    exact Symbol.dispatch_eq_some_iff

/-- Behind a comment a dialect without shifts has two comparisons where others have one operator. -/
theorem pull_symbol_fallback :
    let s := ((start { comments := true } (spellingUnits "x --c\n>>=y")).pulls 1).2
    let c : Comment := ⟨[0x63], "--c", ⟨1, 0, 2⟩, ⟨1, 0, 5⟩⟩
    let t : Session := { s with position := ⟨2, 6, 6⟩, ahead := spellingUnits ">>=y", comments := #[c] }
    s.Skips t ∧ t.AtSymbol (.of '>') (spellingUnits ">=y")
      ∧ (Symbol.punctuator .greater).Longest s.options.grammar.features t.ahead
      ∧ s.pull = (some (.token ⟨.punctuator .greater, ⟨2, 6, 6⟩, ⟨2, 6, 7⟩⟩),
          { t with position := ⟨2, 6, 7⟩, ahead := spellingUnits ">=y" }) := by
  intro s c t
  have blank : Lexeme.read s.options.grammar s.ahead
      = .read ⟨.space, [.of ' '], spellingUnits "--c\n>>=y"⟩ := by decide +kernel
  have comment : Lexeme.read s.options.grammar (spellingUnits "--c\n>>=y")
      = .read ⟨.comment [.of 'c'], spellingUnits "--c", spellingUnits "\n>>=y"⟩ := by decide +kernel
  have line : Lexeme.read s.options.grammar (spellingUnits "\n>>=y")
      = .read ⟨.space, spellingUnits "\n", spellingUnits ">>=y"⟩ := by decide +kernel
  have skips : s.Skips t := by
    refine .space blank (.comment comment (.space line ?_))
    convert Skips.refl t using 1
    decide +kernel
  have stands : t.AtSymbol (.of '>') (spellingUnits ">=y") :=
    ⟨by decide +kernel, by decide, by decide, by decide +kernel, by decide, by decide,
      fun dot => absurd dot (by decide), fun bracket => absurd bracket (by decide)⟩
  obtain ⟨delivered, -, dispatched⟩ := pull_symbol skips stands
  have longest := (dispatched (.punctuator .greater)).1 (by decide +kernel)
  obtain ⟨w, -, only, pulled⟩ := delivered ⟨_, longest.live, longest.fits⟩
  obtain rfl := only _ longest
  exact ⟨skips, stands, longest, pulled⟩

end Session

end LuaTokens
