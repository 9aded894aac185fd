import LuaTokens.Proofs.Rendering
import LuaTokens.Proofs.Sweep

/-! # Strings of strict dialects

A strict dialect refuses the escapes that it does not have, so none of them stands for
itself in a string that it accepts. Hence such a string means the same in every dialect
that has at least the escapes of the strict one, be that dialect strict or not.
-/

namespace LuaTokens

/-- The features that each add an escape. -/
def Feature.escapes : List Feature :=
  [hexEscapes, skipEscape, codePointEscapes]

/-- Unknown escapes are refused with `s`, and every escape of `s` is one of `t`. -/
structure FeatureSet.StrictWithin (s t : FeatureSet) : Prop where
  strict : .strictEscapes ∈ s
  escapes : ∀ f ∈ Feature.escapes, f ∈ s → f ∈ t

section Strings

variable {s t : FeatureSet} {quote u : CodeUnit} {input rest : List CodeUnit} {bytes : ByteString}

namespace Escape

theorem read_of_strictWithin (h : s.StrictWithin t) (ok : (read s u rest).outcome = .ok bytes) :
    read t u rest = read s u rest := by
  by_cases self : isSelf u = true
  · rw [read_self self, read_self self]
  cases control : control? u with
  | some byte => simp only [read, control]
  | none =>
      by_cases broken : u.isBreak = true
      · simp only [read, control, if_pos broken]
      by_cases digit : u.isDigit = true
      · simp only [read, control, if_neg broken, if_pos digit]
      -- What is left is a letter of an escape that `s` has, since `s` refuses all other units.
      simp only [read, control, if_neg broken, if_neg digit, Bool.and_eq_true, Bool.not_eq_true',
        decide_eq_true_eq, h.strict, and_true] at ok ⊢
      by_cases skip : u = .of 'z' ∧ .skipEscape ∈ s
      · have kept := h.escapes .skipEscape (by decide) skip.2
        rw [if_pos skip, if_pos ⟨skip.1, kept⟩]
      rw [if_neg skip] at ok ⊢
      by_cases hex : u = .of 'x' ∧ .hexEscapes ∈ s
      · obtain ⟨rfl, has⟩ := hex
        have kept := h.escapes .hexEscapes (by decide) has
        have other : CodeUnit.of 'x' ≠ .of 'z' := by decide
        rw [if_neg fun both => other both.1, if_pos ⟨rfl, kept⟩, if_pos ⟨rfl, has⟩]
      rw [if_neg hex] at ok ⊢
      by_cases braces : u = .of 'u' ∧ .codePointEscapes ∈ s
      · obtain ⟨rfl, has⟩ := braces
        have kept := h.escapes .codePointEscapes (by decide) has
        have other : CodeUnit.of 'u' ≠ .of 'z' ∧ CodeUnit.of 'u' ≠ .of 'x' := by decide
        rw [if_neg fun both => other.1 both.1, if_neg fun both => other.2 both.1, if_pos ⟨rfl, kept⟩,
          if_pos ⟨rfl, has⟩]
      rw [if_neg braces, if_pos (by simpa using self)] at ok
      cases ok

end Escape

namespace Quoted

theorem step_of_strictWithin {e : Element} (h : s.StrictWithin t)
    (element : step s quote input = .element e rest) : step t quote input = .element e rest := by
  have found := form s quote input
  rw [element] at found
  cases found with
  | plain tail inside unbroken unescaped => exact step_plain inside unbroken unescaped tail
  | @escape v bytes tail inside ok =>
      have same := Escape.read_of_strictWithin h ok
      rw [step_escape inside (same ▸ ok), same]

theorem body_of_strictWithin (h : s.StrictWithin t) (closed : (body s quote input).ending = .closed) :
    body t quote input = body s quote input := by
  induction input using body.induct s quote with
  | case1 input e rest element ih =>
      rw [body_of_element element] at closed ⊢
      rw [body_of_element (step_of_strictWithin h element), ih closed]
  | case2 input ending ends =>
      rw [body_of_ending ends] at closed ⊢
      obtain rfl : ending = .closed := closed
      obtain ⟨tail, rfl⟩ := head_of_step_closed ends
      exact body_of_ending (by simp [step])

theorem read_of_strictWithin {cut : Cut ByteString} (h : s.StrictWithin t)
    (ok : read s quote input = .ok cut) : read t quote input = .ok cut := by
  rw [← ok, read, read, body_of_strictWithin h (closed_of_read ok)]

end Quoted

end Strings

namespace Session

variable {o : Options} {quote : CodeUnit} {input : List CodeUnit}

theorem start_of_isQuote (isQuote : quote.isQuote = true) :
    start o (quote :: input) = ⟨o, quote :: input, {}, quote :: input, #[]⟩ := by
  have unmarked : ¬ spellingUnits "#!" <+: quote :: input := by
    rintro ⟨tail, same⟩
    obtain ⟨rfl, -⟩ := List.cons.inj same
    revert isQuote
    decide
  simp [start, shebang_of_unmarked unmarked, Position.advance]

theorem pull_start_of_isQuote (isQuote : quote.isQuote = true) {cut : Cut ByteString}
    (ok : Quoted.read o.dialect.features quote input = .ok cut) :
    (start o (quote :: input)).pull
      = (some (.token ⟨.string cut.value, {}, Position.advance {} cut.text⟩),
          ⟨o, quote :: input, Position.advance {} cut.text, cut.rest, #[]⟩) := by
  have read : Lexeme.read o.grammar (quote :: input)
      = .read (cut.map fun bytes => .token (.string bytes)) := by
    rw [Lexeme.read_quoted isQuote, show o.grammar.features = o.dialect.features from rfl, ok]
    rfl
  rw [start_of_isQuote isQuote, pull, sweep, Sweep.of_read read]
  simp [Cut.map]

theorem read_of_pull_start (isQuote : quote.isQuote = true) {t : Token}
    (delivered : (start o (quote :: input)).pull.1 = some (.token t)) :
    ∃ cut, Quoted.read o.dialect.features quote input = .ok cut := by
  cases outcome : Quoted.read o.dialect.features quote input with
  | ok cut => exact ⟨cut, rfl⟩
  | error m =>
      have failed : Lexeme.read o.grammar (quote :: input) = .failed m := by
        rw [Lexeme.read_quoted isQuote, show o.grammar.features = o.dialect.features from rfl, outcome]
        rfl
      rw [start_of_isQuote isQuote, pull, sweep, Sweep.of_failed failed] at delivered
      cases delivered

/-- A string that a strict dialect accepts is the same token in every dialect that has at least
    its escapes, and reading goes on behind it from the same state. -/
theorem pull_start_of_strictWithin {v : Version} {a : Adjustment}
    (within : o.dialect.features.StrictWithin (Dialect.resolve v a).features)
    (isQuote : quote.isQuote = true) {t : Token}
    (delivered : (start o (quote :: input)).pull.1 = some (.token t)) :
    let p : Options := { o with version := v, adjustment := a }
    t.kind.isString = true ∧ (start p (quote :: input)).pull.1 = some (.token t)
      ∧ (start p (quote :: input)).pull.2 = { (start o (quote :: input)).pull.2 with options := p } := by
  intro p
  obtain ⟨cut, ok⟩ := read_of_pull_start isQuote delivered
  have now : Quoted.read p.dialect.features quote input = .ok cut := Quoted.read_of_strictWithin within ok
  rw [pull_start_of_isQuote isQuote ok] at delivered ⊢
  rw [pull_start_of_isQuote isQuote now]
  cases delivered
  exact ⟨rfl, rfl, rfl⟩

/-- A hexadecimal escape, skipped white space and a quote, with a comment behind the string. -/
theorem pull_start_of_lua52 :
    let o : Options := { version := .lua52, comments := true }
    let p : Options := { version := .lua53, adjustment := ⟨∅, .singleton .strictEscapes⟩, comments := true }
    let input := spellingUnits "\\x41\\z\n \\'' --c"
    let t : Token := ⟨.string [0x41, 0x27], {}, ⟨2, 8, 12⟩⟩
    o.dialect.features.StrictWithin p.dialect.features ∧ (CodeUnit.of '\'').isQuote = true
      ∧ (start o (.of '\'' :: input)).pull.1 = some (.token t)
      ∧ (start p (.of '\'' :: input)).pull.1 = some (.token t) := by
  intro o p input t
  have within : o.dialect.features.StrictWithin p.dialect.features := ⟨by decide, by decide⟩
  have isQuote : (CodeUnit.of '\'').isQuote = true := by decide
  have delivered : (start o (.of '\'' :: input)).pull.1 = some (.token t) := by decide +kernel
  exact ⟨within, isQuote, delivered, (pull_start_of_strictWithin within isQuote delivered).2.1⟩

end Session

end LuaTokens
