import LuaTokens.Proofs.Coverage
import LuaTokens.Proofs.Lexeme.Withdrawal

/-! # Runs without a feature

A run without one of the light features is the run with it, token by token: each token
is renamed or split where it stands. Comments, the failure and the place where reading
stops are the same, since what follows the halves of a split token is read from the same
units at the same position.
-/

namespace LuaTokens

theorem Position.advance_pair (p : Position) {u : CodeUnit} (noBreak : u.isBreak = false) :
    p.advance [u, u] = (p.advance [u]).advance [u] := by
  simp [advance, noBreak]

namespace Trace

/-- The trace without the feature delivers the tokens that take the place of the old ones,
    and all else as before. -/
structure Without (features : FeatureSet) (f : Feature) (old new : Trace) : Prop where
  tokens : new.tokens = old.tokens.flatMap (Token.without features f)
  comments : new.comments = old.comments
  stop : new.stop = old.stop
  misreading : new.misreading = old.misreading

section Steps

variable {features : FeatureSet} {f : Feature} {old new : Trace} {p : Piece}

theorem Without.cons (h : Without features f old new)
    (whole : ∀ kind, p.value = .token kind → f.half? kind = none) :
    Without features f (old.cons p) (new.cons { p with value := p.value.renamed features f }) := by
  refine ⟨?_, ?_, h.stop, h.misreading⟩
  · rw [tokens_cons, tokens_cons, List.flatMap_append, h.tokens]
    congr 1
    unfold Piece.token?
    cases same : p.value with
    | space => rfl
    | comment body => rfl
    | token kind => simp [Lexeme.renamed, Token.without, whole kind same, Piece.stop]
  · rw [comments_cons, comments_cons, h.comments]
    congr 1
    unfold Piece.comment?
    cases p.value <;> rfl

/-- A lexeme of two units on one line, in front of the old trace, and its halves in front
    of the new one. -/
theorem Without.split {kind : Token.Kind} {half : Punctuator} {u : CodeUnit} {start : Position}
    (h : Without features f old new) (doubled : f.half? kind = some half)
    (noBreak : CodeUnit.isBreak u = false) :
    Without features f (old.cons ⟨.token kind, [u, u], start⟩)
      ((new.cons ⟨.token (.punctuator half), [u], start.advance [u]⟩).cons
        ⟨.token (.punctuator half), [u], start⟩) := by
  have one : start.advance [u] = start.shift 1 := start.advance_of_unbroken (by simp [noBreak])
  have two := start.advance_pair noBreak
  refine ⟨?_, h.comments, h.stop, h.misreading⟩
  rw [tokens_cons, tokens_cons, tokens_cons, List.flatMap_append, h.tokens]
  simp [Piece.token?, Piece.stop, Token.without, doubled, two, one]

end Steps

theorem of_without {g : Grammar} {f : Feature} (light : f ∈ Feature.light) (p : Position)
    (input : List CodeUnit) : Without g.features f (of g p input) (of (g.without f) p input) := by
  induction p, input using of.induct g with
  | case1 p input finished =>
      obtain rfl := Lexeme.eq_nil_of_finished finished
      rw [of_nil, of_nil]
      exact ⟨rfl, rfl, rfl, rfl⟩
  | case2 p input m failed =>
      have same := Lexeme.read_without light fun cut kind read => by
        rw [failed] at read
        cases read
      rw [failed] at same
      rw [of_failed failed, of_failed same]
      exact ⟨rfl, rfl, rfl, rfl⟩
  | case3 p input cut read ih =>
      obtain ⟨value, text, rest⟩ := cut
      rw [of_read read]
      by_cases divided : ∃ kind half, value = .token kind ∧ f.half? kind = some half
      · obtain ⟨kind, half, rfl, doubled⟩ := divided
        obtain ⟨u, noBreak, units, rfl, halves⟩ := Lexeme.read_split read rfl doubled
        -- What follows does not decide how a half is read, so both runs meet again behind it.
        rw [units, of_read (halves _), of_read (halves _), ← p.advance_pair noBreak]
        exact ih.split doubled noBreak
      · have whole : ∀ kind, value = .token kind → f.half? kind = none := by
          intro kind token
          rw [Option.eq_none_iff_forall_ne_some]
          exact fun half doubled => divided ⟨kind, half, token, doubled⟩
        have same := Lexeme.read_without light fun cut kind other token => by
          rw [read] at other
          cases other
          exact whole kind token
        rw [read] at same
        rw [of_read same]
        exact ih.cons whole

end Trace

/-- Disabling features takes them away, whatever was said of them before. -/
theorem Dialect.features_disabling (v : Version) (a : Adjustment) (features : FeatureSet) :
    (resolve v (a.disabling features)).features = (resolve v a).features \ features := by
  obtain ⟨⟨enable⟩, ⟨disable⟩⟩ := a
  obtain ⟨bits⟩ := features
  change FeatureSet.mk ((v.defaults.bits ||| (enable &&& ~~~bits)) &&& ~~~(disable ||| bits))
    = FeatureSet.mk (((v.defaults.bits ||| enable) &&& ~~~disable) &&& ~~~bits)
  congr 1
  ext i
  simp only [BitVec.getElem_and, BitVec.getElem_or, BitVec.getElem_not]
  grind

namespace Run

/-- Taking a light feature away from a dialect splits and renames tokens and changes nothing
    else of a run, however the version and the adjustment come to take it away. -/
theorem ofUnits_without (o : Options) (source : List CodeUnit) {f : Feature} (light : f ∈ Feature.light)
    {v : Version} {a : Adjustment}
    (fewer : (Dialect.resolve v a).features = o.dialect.features \ .singleton f) :
    ofUnits { o with version := v, adjustment := a } source
      = { ofUnits o source with
          tokens := (ofUnits o source).tokens.flatMap (Token.without o.dialect.features f) } := by
  have grammar : ({ o with version := v, adjustment := a } : Options).grammar = o.grammar.without f := by
    simp only [Options.grammar, Options.dialect, fewer, Grammar.without]
  have traces : Trace.Without o.dialect.features f (trace o source)
      (trace { o with version := v, adjustment := a } source) := by
    rw [trace_eq, trace_eq, grammar]
    exact Trace.of_without (g := o.grammar) light _ _
  rw [ofUnits_eq, ofUnits_eq, traces.tokens, traces.comments, Trace.failure, Trace.position,
    traces.misreading, traces.stop]
  rfl

/-- A jump and a label next to a colon, before a comment and a failure. -/
theorem ofUnits_without_labels :
    let o : Options := { version := .lua52, comments := true }
    let a := o.adjustment.disabling (.singleton .labels)
    let source := spellingUnits "goto a:::b--c\n$"
    .labels ∈ Feature.light
      ∧ (Dialect.resolve .lua52 a).features = o.dialect.features \ .singleton .labels
      ∧ ofUnits { o with version := .lua52, adjustment := a } source
        = { ofUnits o source with
            tokens := (ofUnits o source).tokens.flatMap (Token.without o.dialect.features .labels) } := by
  intro o a source
  have light : .labels ∈ Feature.light := by decide
  have fewer : (Dialect.resolve .lua52 a).features = o.dialect.features \ .singleton .labels :=
    Dialect.features_disabling _ _ _
  exact ⟨light, fewer, ofUnits_without o source light fewer⟩

end Run

end LuaTokens
