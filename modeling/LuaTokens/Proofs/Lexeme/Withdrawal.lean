import LuaTokens.Proofs.Lexeme.Form
import LuaTokens.Proofs.Lexeme.Quoted
import LuaTokens.Proofs.Token.Punctuator

/-! # Lexemes without a feature

Some features only make one token of two or another token of a word. Without such a
feature all other lexemes are read as before, and where it made one punctuator of two
equal units, each of these is read as a punctuator of its own, whatever follows it.
-/

namespace LuaTokens

/-- Whether the token is a name or a keyword. -/
def Token.Kind.isName : Token.Kind → Bool
  | keyword _ | identifier _ => true
  | _ => false

namespace Feature

/-- The features without which tokens are only split or renamed. -/
def light : List Feature :=
  [labels, contextualGoto, integerDivision, constKeyword, declareKeyword]

/-- The punctuator that stands twice for a token that takes the feature. -/
def half? : Feature → Token.Kind → Option Punctuator
  | integerDivision, .punctuator .doubleSlash => some .slash
  | labels, .punctuator .doubleColon => some .colon
  | _, _ => none

/-- What a token becomes when the feature is taken away from `features`. -/
def renamed (features : FeatureSet) : Feature → Token.Kind → Token.Kind
  | labels, .keyword .goto =>
      if .contextualGoto ∈ features then .keyword .goto else .identifier Keyword.goto.bytes
  | contextualGoto, .identifier name =>
      if .labels ∈ features ∧ name = Keyword.goto.bytes then .keyword .goto else .identifier name
  | constKeyword, .keyword .const => .identifier Keyword.const.bytes
  | declareKeyword, .keyword .declare => .identifier Keyword.declare.bytes
  | _, kind => kind

theorem renamed_of_not_name {features : FeatureSet} {f : Feature} {kind : Token.Kind}
    (other : kind.isName = false) : f.renamed features kind = kind := by
  cases kind with
  | keyword | identifier => cases other
  | _ => cases f <;> rfl

end Feature

/-- The tokens that take the place of a token when the feature is taken away from `features`. -/
def Token.without (features : FeatureSet) (f : Feature) (t : Token) : List Token :=
  match f.half? t.kind with
  | some half =>
      [⟨.punctuator half, t.start, t.start.shift 1⟩,
        ⟨.punctuator half, t.start.shift 1, t.stop⟩]
  | none => [{ t with kind := f.renamed features t.kind }]

def Grammar.without (g : Grammar) (f : Feature) : Grammar :=
  { g with features := g.features \ .singleton f }

namespace FeatureSet

variable {features : FeatureSet} {f h : Feature}

theorem mem_without : h ∈ features \ singleton f ↔ h ∈ features ∧ h ≠ f := by
  rw [mem_diff, mem_singleton]

theorem mem_without_of_ne (other : h ≠ f) : h ∈ features \ singleton f ↔ h ∈ features := by
  rw [mem_without, and_iff_left other]

/-- The two sets have the same features that say something about escapes. -/
structure SameEscapes (s t : FeatureSet) : Prop where
  hex : .hexEscapes ∈ s ↔ .hexEscapes ∈ t
  skip : .skipEscape ∈ s ↔ .skipEscape ∈ t
  strict : .strictEscapes ∈ s ↔ .strictEscapes ∈ t
  codePoint : .codePointEscapes ∈ s ↔ .codePointEscapes ∈ t

theorem sameEscapes_without (light : f ∈ Feature.light) :
    SameEscapes (features \ singleton f) features := by
  constructor <;> apply mem_without_of_ne <;> rintro rfl <;> revert light <;> decide

end FeatureSet

section Strings

variable {s t : FeatureSet}

theorem Escape.read_of_sameEscapes (same : s.SameEscapes t) (u : CodeUnit) (rest : List CodeUnit) :
    Escape.read s u rest = Escape.read t u rest := by
  simp only [Escape.read, same.hex, same.skip, same.strict, same.codePoint]

theorem Quoted.step_of_sameEscapes (same : s.SameEscapes t) (quote : CodeUnit)
    (input : List CodeUnit) : step s quote input = step t quote input := by
  cases input with
  | nil => rfl
  | cons u rest => simp only [step, Escape.read_of_sameEscapes same]

theorem Quoted.body_of_sameEscapes (same : s.SameEscapes t) (quote : CodeUnit)
    (input : List CodeUnit) : body s quote input = body t quote input := by
  fun_induction body t quote input with
  | case1 input e rest h ih =>
      rw [body_of_element ((step_of_sameEscapes same quote input).trans h), ih]
  | case2 input ending h =>
      rw [body_of_ending ((step_of_sameEscapes same quote input).trans h)]

theorem Quoted.read_of_sameEscapes (same : s.SameEscapes t) (quote : CodeUnit)
    (input : List CodeUnit) : read s quote input = read t quote input := by
  simp only [read, body_of_sameEscapes same]

end Strings

namespace Lexeme

section Words

variable {features : FeatureSet} {f : Feature} {name : ByteString}

theorem bytes_of_ofBytes? {k : Keyword} (found : Keyword.ofBytes? name = some k) : name = k.bytes := by
  have same := List.find?_some found
  exact (beq_iff_eq.1 same).symm

/-- The token that a word is if it is reserved in some dialects. -/
def reserved (features : FeatureSet) (k : Keyword) : Token.Kind :=
  if k.isLive features then .keyword k else .identifier k.bytes

theorem classifyWord_of_keyword {k : Keyword} (found : Keyword.ofBytes? name = some k) :
    classifyWord features name = reserved features k := by
  obtain rfl := bytes_of_ofBytes? found
  rw [classifyWord, Keyword.live?, found, Option.filter_some, reserved]
  by_cases live : k.isLive features = true
  · rw [if_pos live, if_pos live]
  · have plain : k.bytes ≠ .ofString "true" ∧ k.bytes ≠ .ofString "false"
        ∧ k.bytes ≠ .ofString "nil" := by
      cases k <;> decide
    simp only [if_neg live, plain, if_false]

theorem classifyWord_of_none (missing : Keyword.ofBytes? name = none) :
    classifyWord features name = if name = .ofString "true" then .boolean true
      else if name = .ofString "false" then .boolean false
      else if name = .ofString "nil" then .nil
      else .identifier name := by
  rw [classifyWord, Keyword.live?, missing]
  rfl

theorem renamed_identifier (other : name ≠ Keyword.goto.bytes) :
    f.renamed features (.identifier name) = .identifier name := by
  cases f with
  | contextualGoto => exact if_neg fun both => other both.2
  | _ => rfl

theorem reserved_without_base {k : Keyword} (base : k.isBase = true) :
    reserved (features \ .singleton f) k = f.renamed features (reserved features k) := by
  have live : ∀ s, k.isLive s = true := by
    intro s
    cases k <;> first | rfl | cases base
  rw [reserved, reserved, if_pos (live _), if_pos (live _)]
  cases f <;> cases k <;> first | rfl | cases base

theorem reserved_without_of_same {k : Keyword}
    (same : k.isLive (features \ .singleton f) = k.isLive features)
    (keyword : f.renamed features (.keyword k) = .keyword k)
    (identifier : f.renamed features (.identifier k.bytes) = .identifier k.bytes) :
    reserved (features \ .singleton f) k = f.renamed features (reserved features k) := by
  rw [reserved, reserved, same]
  split
  · exact keyword.symm
  · exact identifier.symm

theorem isLive_goto {s : FeatureSet} :
    Keyword.goto.isLive s = true ↔ .labels ∈ s ∧ .contextualGoto ∉ s := by
  simp [Keyword.isLive]

theorem reserved_without_goto :
    reserved (features \ .singleton f) .goto = f.renamed features (reserved features .goto) := by
  cases f with
  | labels =>
      have dead : ¬ Keyword.goto.isLive (features \ .singleton .labels) = true := by
        simp [isLive_goto, FeatureSet.mem_singleton]
      rw [reserved, reserved, if_neg dead]
      split
      next live => exact (if_neg (isLive_goto.1 live).2).symm
      · rfl
  | contextualGoto =>
      have live : Keyword.goto.isLive (features \ .singleton .contextualGoto) = true
          ↔ .labels ∈ features := by
        simp [isLive_goto, FeatureSet.mem_singleton]
      by_cases labels : .labels ∈ features
      · rw [reserved, reserved, if_pos (live.2 labels)]
        split
        · rfl
        · exact (if_pos ⟨labels, rfl⟩).symm
      · have dead : ¬ Keyword.goto.isLive features = true := fun live => labels (isLive_goto.1 live).1
        rw [reserved, reserved, if_neg (labels ∘ live.1), if_neg dead]
        exact (if_neg fun both => labels both.1).symm
  | _ =>
      apply reserved_without_of_same _ rfl rfl
      simp [Keyword.isLive, FeatureSet.mem_singleton]

theorem reserved_without_own {k : Keyword} (own : Feature)
    (live : ∀ s, k.isLive s = true ↔ own ∈ s) (plain : k.bytes ≠ Keyword.goto.bytes)
    (renamed : own.renamed features (.keyword k) = .identifier k.bytes)
    (kept : ∀ f ≠ own, f.renamed features (.keyword k) = .keyword k) :
    reserved (features \ .singleton f) k = f.renamed features (reserved features k) := by
  by_cases same : f = own
  · subst same
    have dead : ¬ k.isLive (features \ .singleton f) = true := by
      rw [live, FeatureSet.mem_without]
      exact fun both => both.2 rfl
    rw [reserved, reserved, if_neg dead]
    split
    · exact renamed.symm
    · exact (renamed_identifier plain).symm
  · apply reserved_without_of_same _ (kept f same) (renamed_identifier plain)
    rw [Bool.eq_iff_iff, live, live, FeatureSet.mem_without_of_ne (Ne.symm same)]

theorem classifyWord_without :
    classifyWord (features \ .singleton f) name = f.renamed features (classifyWord features name) := by
  cases found : Keyword.ofBytes? name with
  | none =>
      have noGoto : name ≠ Keyword.goto.bytes := by
        rintro rfl
        revert found
        decide
      rw [classifyWord_of_none found, classifyWord_of_none found]
      split
      · exact (Feature.renamed_of_not_name rfl).symm
      split
      · exact (Feature.renamed_of_not_name rfl).symm
      split
      · exact (Feature.renamed_of_not_name rfl).symm
      · exact (renamed_identifier noGoto).symm
  | some k =>
      rw [classifyWord_of_keyword found, classifyWord_of_keyword found]
      cases k with
      | goto => exact reserved_without_goto
      | const =>
          apply reserved_without_own .constKeyword _ (by decide) rfl
          · intro f other
            cases f <;> first | rfl | exact absurd rfl other
          · simp [Keyword.isLive]
      | declare =>
          apply reserved_without_own .declareKeyword _ (by decide) rfl
          · intro f other
            cases f <;> first | rfl | exact absurd rfl other
          · simp [Keyword.isLive]
      | _ => exact reserved_without_base rfl

end Words

end Lexeme

namespace Punctuator

variable {features : FeatureSet} {f : Feature} {u : CodeUnit} {rest input : List CodeUnit}
  {sign half : Punctuator}

theorem isLive_without (light : f ∈ Feature.light) (p : Punctuator) :
    p.isLive (features \ .singleton f) = true
      ↔ p.isLive features = true ∧ f.half? (.punctuator p) = none := by
  cases f with
  | bitwiseOperators => exact absurd light (by decide)
  | _ => cases p <;> simp [isLive, Feature.half?, FeatureSet.mem_singleton]

theorem leading?_without_of_none (light : f ∈ Feature.light)
    (missing : leading? features input = none) :
    leading? (features \ .singleton f) input = none := by
  rw [leading?, List.find?_eq_none] at missing ⊢
  intro p member fits
  rw [Bool.and_eq_true, isLive_without light] at fits
  exact missing p member (Bool.and_eq_true_iff.2 ⟨fits.1.1, fits.2⟩)

theorem leading?_without (light : f ∈ Feature.light) (found : leading? features input = some sign)
    (stays : f.half? (.punctuator sign) = none) :
    leading? (features \ .singleton f) input = some sign := by
  obtain ⟨fits, before, after, divided, missed⟩ := List.find?_eq_some_iff_append.1 found
  rw [Bool.and_eq_true] at fits
  have live := (isLive_without light sign).2 ⟨fits.1, stays⟩
  refine List.find?_eq_some_iff_append.2
    ⟨Bool.and_eq_true_iff.2 ⟨live, fits.2⟩, before, after, divided, ?_⟩
  intro p early
  rw [Bool.not_eq_true', Bool.eq_false_iff]
  intro other
  rw [Bool.and_eq_true, isLive_without light] at other
  simpa [other.1.1, other.2] using missed p early

theorem leading?_of_only (spelled : half.units = [u]) (live : half.isLive features = true)
    (only : ∀ p : Punctuator, p.isLive features = true → p.units.head? = some u → p = half) :
    leading? features (u :: rest) = some half := by
  have fits : (half.isLive features && half.units.isPrefixOf (u :: rest)) = true := by
    rw [live, spelled]
    simp
  cases found : leading? features (u :: rest) with
  | none =>
      rw [leading?, List.find?_eq_none] at found
      exact absurd fits (found half (mem_all half))
  | some p =>
      obtain ⟨alive, tail, same⟩ := fits_of_leading? found
      obtain ⟨v, more, units⟩ := List.exists_cons_of_ne_nil p.units_ne_nil
      rw [units, List.cons_append, List.cons.injEq] at same
      rw [only p alive (by rw [units, same.1]; rfl)]

theorem doubled_iff : f.half? (.punctuator sign) = some half ↔
    f = .integerDivision ∧ sign = .doubleSlash ∧ half = .slash
      ∨ f = .labels ∧ sign = .doubleColon ∧ half = .colon := by
  cases f with
  | integerDivision => cases sign <;> simp [Feature.half?, eq_comm]
  | labels => cases sign <;> simp [Feature.half?, eq_comm]
  | _ => simp [Feature.half?]

end Punctuator

namespace Lexeme

section Symbols

variable {g : Grammar} {f : Feature} {u : CodeUnit} {rest : List CodeUnit} {sign half : Punctuator}

theorem read_sign (member : u ∈ [.of '/', .of ':']) :
    read g (u :: rest) = readSymbol g (u :: rest) := by
  have noWord : u.isNameStart g.extendedIdentifiers = false := by
    apply CodeUnit.forall_of_any _ u member
    cases g.extendedIdentifiers <;> decide
  have noDigit : u.isDigit = false := CodeUnit.forall_of_any (by decide) u member
  have other : u ≠ .of '-' ∧ u ≠ .of '.' ∧ u ≠ .of '[' := by
    refine ⟨?_, ?_, ?_⟩ <;> rintro rfl <;> revert member <;> decide
  apply read_symbol
  · exact CodeUnit.forall_of_any (by decide) u member
  · exact beginsComment_of_ne other.1
  · exact noWord
  · exact CodeUnit.forall_of_any (by decide) u member
  · simp [beginsNumeral, noDigit, other.2.1]
  · simp [beginsLongString, other.2.2]

theorem read_lone (member : u ∈ [.of '/', .of ':']) (spelled : half.units = [u])
    (live : half.isLive g.features = true)
    (only : ∀ p : Punctuator, p.isLive g.features = true → p.units.head? = some u → p = half) :
    read g (u :: rest) = .read ⟨.token (.punctuator half), [u], rest⟩ := by
  have noDots : ¬ varargUnits.isPrefixOf (u :: rest) = true := by
    intro dots
    obtain ⟨tail, same⟩ := List.isPrefixOf_iff_prefix.1 dots
    obtain rfl : CodeUnit.of '.' = u := (List.cons.inj same).1
    revert member
    decide
  rw [read_sign member, readSymbol, if_neg noDots, Punctuator.leading?_of_only spelled live only]
  simp [spelled, Cut.ofWidth]

theorem read_half (doubled : f.half? (.punctuator sign) = some half) :
    ∃ u : CodeUnit, sign.units = [u, u] ∧ CodeUnit.isBreak u = false
      ∧ ∀ rest, read (g.without f) (u :: rest) = .read ⟨.token (.punctuator half), [u], rest⟩ := by
  have gone : f ∉ (g.without f).features := by
    simp [Grammar.without, FeatureSet.mem_singleton]
  rcases Punctuator.doubled_iff.1 doubled with ⟨rfl, rfl, rfl⟩ | ⟨rfl, rfl, rfl⟩
  · refine ⟨.of '/', by decide, by decide, fun rest => read_lone (by decide) (by decide) rfl ?_⟩
    intro p live first
    cases p <;> first | rfl | exact absurd first (by decide) | exact absurd (of_decide_eq_true live) gone
  · refine ⟨.of ':', by decide, by decide, fun rest => read_lone (by decide) (by decide) rfl ?_⟩
    intro p live first
    cases p <;> first | rfl | exact absurd first (by decide) | exact absurd (of_decide_eq_true live) gone

end Symbols

/-- What a lexeme becomes when the feature is taken away from `features`, where it stays one. -/
def renamed (features : FeatureSet) (f : Feature) : Lexeme → Lexeme
  | .token kind => .token (f.renamed features kind)
  | other => other

def Reading.map (change : Lexeme → Lexeme) : Reading → Reading
  | .read cut => .read (cut.map change)
  | other => other

section Withdrawal

variable {g : Grammar} {f : Feature} {input : List CodeUnit}

theorem map_renamed_of_not_name {cut : Cut Lexeme} {kind : Token.Kind} (token : cut.value = .token kind)
    (other : kind.isName = false) : cut.map (renamed g.features f) = cut := by
  obtain ⟨value, text, rest⟩ := cut
  obtain rfl : value = .token kind := token
  simp only [Cut.map, renamed, Feature.renamed_of_not_name other]

theorem Reading.map_ofToken {α : Type} {kind : α → Token.Kind} (outcome : Except Misreading (Cut α))
    (other : ∀ value, (kind value).isName = false) :
    (ofToken kind outcome).map (Lexeme.renamed g.features f) = ofToken kind outcome := by
  cases outcome with
  | error m => rfl
  | ok inner => exact congrArg Reading.read (map_renamed_of_not_name rfl (other inner.value))

theorem readComment_without (dashes line : List CodeUnit) :
    (readComment dashes line).map (renamed g.features f) = readComment dashes line := by
  unfold readComment
  split <;> rfl

theorem readLongString_without :
    (readLongString input).map (renamed g.features f) = readLongString input := by
  unfold readLongString
  split
  · exact congrArg Reading.read (map_renamed_of_not_name rfl rfl)
  · rfl
  · rfl

theorem readWord_without :
    readWord (g.without f) input = (readWord g input).map (renamed g.features f) := by
  simp [readWord, Grammar.without, classifyWord_without, Cut.map, renamed]

theorem readSymbol_without (light : f ∈ Feature.light)
    (whole : ∀ sign, ¬ varargUnits.isPrefixOf input = true →
      Punctuator.leading? g.features input = some sign → f.half? (.punctuator sign) = none) :
    readSymbol (g.without f) input = (readSymbol g input).map (renamed g.features f) := by
  unfold readSymbol
  split
  · exact congrArg Reading.read (map_renamed_of_not_name rfl rfl).symm
  next noDots =>
    cases found : Punctuator.leading? g.features input with
    | none =>
        rw [show Punctuator.leading? (g.without f).features input = none from
          Punctuator.leading?_without_of_none light found]
        rfl
    | some sign =>
        rw [show Punctuator.leading? (g.without f).features input = some sign from
          Punctuator.leading?_without light found (whole sign noDots found)]
        exact congrArg Reading.read (map_renamed_of_not_name rfl rfl).symm

theorem read_without (light : f ∈ Feature.light)
    (whole : ∀ cut kind, read g input = .read cut → cut.value = .token kind → f.half? kind = none) :
    read (g.without f) input = (read g input).map (renamed g.features f) := by
  have found := form g input
  generalize outcomeEq : read g input = outcome at found whole
  cases found with
  | finished => rfl
  | space rest space =>
      rw [read_space space]
      rfl
  | comment line => rw [read_comment, readComment_without]
  | @word u rest first =>
      have same : u.isNameStart (g.without f).extendedIdentifiers = true := first
      rw [read_word same, readWord_without]
      rfl
  | @quoted u rest quote =>
      rw [read_quoted quote, Reading.map_ofToken _ fun _ => rfl]
      exact congrArg (Reading.ofToken _)
        (Quoted.read_of_sameEscapes (FeatureSet.sameEscapes_without light) u rest)
  | numeral rest begins =>
      rw [read_numeral begins, Reading.map_ofToken _ fun _ => rfl]
  | longString rest begins => rw [read_longString begins, readLongString_without]
  | @symbol u rest unspaced noComment noWord noQuote noNumeral noLongString =>
      have noName : u.isNameStart (g.without f).extendedIdentifiers = false := noWord
      rw [read_symbol unspaced noComment noName noQuote noNumeral noLongString]
      apply readSymbol_without light
      intro sign noDots found
      refine whole (.ofWidth sign.units.length (u :: rest) (.token (.punctuator sign))) _ ?_ rfl
      rw [readSymbol, if_neg noDots, found]

theorem cut_of_punctuator {cut : Cut Lexeme} {sign : Punctuator} (read : read g input = .read cut)
    (token : cut.value = .token (.punctuator sign)) :
    sign.units <+: input ∧ cut = .ofWidth sign.units.length input (.token (.punctuator sign)) := by
  have found := form g input
  rw [read] at found
  generalize outcomeEq : Reading.read cut = outcome at found
  cases found with
  | finished => cases outcomeEq
  | space rest space =>
      cases outcomeEq
      cases token
  | comment line =>
      rcases cut_of_readComment outcomeEq.symm with ⟨inner, -, rfl⟩ | ⟨-, rfl⟩ <;> cases token
  | @word u rest first =>
      cases outcomeEq
      let name := ByteString.ofUnits (readWord g (u :: rest)).text
      have same : classifyWord g.features name = .punctuator sign := Lexeme.token.inj token
      have isWord := isWord_classifyWord g.features name
      rw [same] at isWord
      cases isWord
  | quoted rest quote =>
      obtain ⟨inner, -, rfl⟩ := Reading.exists_of_ofToken outcomeEq.symm
      cases token
  | numeral rest begins =>
      obtain ⟨inner, -, rfl⟩ := Reading.exists_of_ofToken outcomeEq.symm
      cases token
  | longString rest begins =>
      obtain ⟨inner, -, rfl⟩ := cut_of_readLongString outcomeEq.symm
      cases token
  | symbol rest =>
      rcases cut_of_readSymbol outcomeEq.symm with ⟨-, rfl⟩ | ⟨p, -, -, fits, rfl⟩
      · cases token
      · cases token
        exact ⟨fits, rfl⟩

theorem exists_punctuator_of_half? {kind : Token.Kind} {half : Punctuator}
    (doubled : f.half? kind = some half) : ∃ sign, kind = .punctuator sign := by
  unfold Feature.half? at doubled
  split at doubled
  · exact ⟨_, rfl⟩
  · exact ⟨_, rfl⟩
  · cases doubled

/-- A lexeme that is split is two equal units, and without the feature each of them is a
    lexeme, whatever follows it. -/
theorem read_split {cut : Cut Lexeme} {kind : Token.Kind} {half : Punctuator}
    (read : read g input = .read cut) (token : cut.value = .token kind)
    (doubled : f.half? kind = some half) :
    ∃ u : CodeUnit, CodeUnit.isBreak u = false ∧ input = u :: u :: cut.rest ∧ cut.text = [u, u] ∧
      ∀ rest, Lexeme.read (g.without f) (u :: rest) = .read ⟨.token (.punctuator half), [u], rest⟩ := by
  obtain ⟨sign, rfl⟩ := exists_punctuator_of_half? doubled
  obtain ⟨u, units, noBreak, halves⟩ := read_half (g := g) doubled
  obtain ⟨⟨tail, rfl⟩, rfl⟩ := cut_of_punctuator read token
  refine ⟨u, noBreak, ?_, ?_, halves⟩
  · simp [Cut.ofWidth, units]
  · simp [Cut.ofWidth, units]

end Withdrawal

end Lexeme

end LuaTokens
