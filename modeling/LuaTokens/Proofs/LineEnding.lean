import LuaTokens.Proofs.Lexeme.LineFeed
import LuaTokens.Proofs.Part
import Mathlib.Data.List.Forall2

/-! # The style of line endings

A source and its counterpart, in which every line break is a line feed, have the same
tokens and comments on the same lines and in the same columns, and they fail alike. Only
the line breaks inside of long brackets are in the values.
-/

namespace LuaTokens

/-- The kind of the counterpart of a token that is written like this: a long bracket holds the
    counterpart of its body, and any other token is what it was. -/
def Token.Kind.unified (written : List CodeUnit) (kind : Token.Kind) : Token.Kind :=
  match LongBracket.read written with
  | .closed cut => .string (.ofUnits (unifyBreaks cut.value))
  | _ => kind

namespace Lexeme

variable {g : Grammar} {u : CodeUnit} {input text rest : List CodeUnit} {kind : Token.Kind}

/-- The counterpart of a lexeme that is written like this. -/
def unified (written : List CodeUnit) : Lexeme → Lexeme
  | .space => .space
  | .comment body => .comment (unifyBreaks body)
  | .token kind => .token (kind.unified written)

theorem beginsLongString_opener (level : Nat) (opened : List CodeUnit) :
    ∃ tail, LongBracket.opener level ++ opened = .of '[' :: tail ∧ beginsLongString (.of '[') tail = true := by
  refine ⟨_, rfl, beginsLongString_iff.2 ⟨rfl, ?_⟩⟩
  cases level with
  | zero => exact .inl rfl
  | succ level => exact .inr rfl

theorem kind_of_closed (h : read g (text ++ rest) = .read ⟨.token kind, text, rest⟩)
    {inner : Cut (List CodeUnit)} (closed : LongBracket.read text = .closed inner) :
    kind = .string (.ofUnits inner.value) := by
  obtain ⟨level, lead, isClosed, innerText, whole⟩ := LongBracket.exists_isClosed_of_read closed
  have input : text ++ rest = LongBracket.closedText level lead inner.value ++ (inner.rest ++ rest) := by
    rw [whole, innerText, List.append_assoc]
  have now := isClosed.read_append (inner.rest ++ rest)
  rw [← input] at now
  obtain ⟨tail, begins, isLong⟩ := beginsLongString_opener level
    (lead ++ (inner.value ++ LongBracket.closer level) ++ (inner.rest ++ rest))
  rw [← List.append_assoc, ← LongBracket.closedText, ← input] at begins
  rw [begins, read_longString isLong, readLongString, ← begins, now] at h
  simp only [Cut.map, Reading.read.injEq, Cut.mk.injEq, Lexeme.token.injEq] at h
  exact h.1.symm

theorem unified_of_not_string (h : read g (text ++ rest) = .read ⟨.token kind, text, rest⟩)
    (noString : kind.isString = false) : kind.unified text = kind := by
  unfold Token.Kind.unified
  split
  next inner closed =>
    rw [kind_of_closed h closed] at noString
    cases noString
  · rfl

theorem unified_of_ne (differs : u ≠ .of '[') : kind.unified (u :: text) = kind := by
  have absent : LongBracket.read (u :: text) = .absent := by
    rw [LongBracket.read_eq_absent_iff]
    simp [LongBracket.level?, differs]
  rw [Token.Kind.unified, absent]

theorem readComment_unifyBreaks {dashes : List CodeUnit} (unbroken : ∀ v ∈ dashes, v.isBreak = false)
    {cut : Cut Lexeme} (h : readComment dashes input = .read cut) :
    readComment dashes (unifyBreaks input)
      = .read ⟨cut.value.unified cut.text, unifyBreaks cut.text, unifyBreaks cut.rest⟩ := by
  have bracket := LongBracket.read_unifyBreaks input
  have behind := unifyBreaks_append_of_unbroken unbroken
  rw [readComment, bracket]
  rcases cut_of_readComment h with ⟨inner, closed, rfl⟩ | ⟨absent, rfl⟩
  · rw [closed, behind]
    rfl
  · have line := run_unifyBreaks (p := (!·.isBreak)) (CodeUnit.forall_isBreak rfl rfl) input
    have solid : unifyBreaks (input.takeWhile (!·.isBreak)) = input.takeWhile (!·.isBreak) :=
      unifyBreaks_of_unbroken fun v member => by simpa using List.mem_takeWhile_imp member
    simp only [absent, LongBracket.Reading.unified, Cut.ofRun, line, unified, behind, solid]

theorem readLongString_unifyBreaks {cut : Cut Lexeme} (h : readLongString input = .read cut) :
    readLongString (unifyBreaks input)
      = .read ⟨cut.value.unified cut.text, unifyBreaks cut.text, unifyBreaks cut.rest⟩ := by
  have bracket := LongBracket.read_unifyBreaks input
  obtain ⟨inner, closed, rfl⟩ := cut_of_readLongString h
  obtain ⟨level, lead, isClosed, text, -⟩ := LongBracket.exists_isClosed_of_read closed
  have alone := isClosed.read_append []
  rw [List.append_nil, ← text] at alone
  rw [readLongString, bracket]
  simp only [closed, LongBracket.Reading.unified, Cut.map, unified, Token.Kind.unified, alone]

section Beginnings

theorem beginsNumeral_unifyBreaks (u : CodeUnit) (rest : List CodeUnit) :
    beginsNumeral u (unifyBreaks rest) = beginsNumeral u rest := by
  have digit := any_head?_unifyBreaks (p := CodeUnit.isDigit) (CodeUnit.forall_isBreak rfl rfl) rest
  rw [beginsNumeral, digit]
  rfl

theorem beginsLongString_unifyBreaks (u : CodeUnit) (rest : List CodeUnit) :
    beginsLongString u (unifyBreaks rest) = beginsLongString u rest := by
  have bracket := head?_unifyBreaks_eq_some (show (CodeUnit.of '[').isBreak = false by decide) rest
  have sign := head?_unifyBreaks_eq_some (show (CodeUnit.of '=').isBreak = false by decide) rest
  simp only [beginsLongString, bracket, sign]

theorem beginsComment_unifyBreaks (u : CodeUnit) (rest : List CodeUnit) :
    beginsComment u (unifyBreaks rest) = beginsComment u rest := by
  have dash := head?_unifyBreaks_eq_some (show (CodeUnit.of '-').isBreak = false by decide) rest
  simp only [beginsComment, dash]

end Beginnings

theorem read_unifyBreaks_of_not_string {cut : Cut Lexeme} (h : read g input = .read cut)
    (token : cut.value = .token kind) (noString : kind.isString = false) :
    read g (unifyBreaks input)
      = .read ⟨cut.value.unified cut.text, unifyBreaks cut.text, unifyBreaks cut.rest⟩ := by
  have unbroken := isBreak_of_token h token noString
  obtain ⟨value, text, rest⟩ := cut
  obtain rfl := token
  have whole := (splits_of_read h).text_append_rest
  rw [← whole] at h ⊢
  rw [unifyBreaks_append_of_unbroken unbroken, unifyBreaks_of_unbroken unbroken, unified,
    unified_of_not_string h noString]
  apply read_append h (follows_unifyBreaks rest)
  · intro space
    cases space
  · intro body comment
    cases comment

theorem readQuoted_unifyBreaks {quote : CodeUnit} (isQuote : quote.isQuote = true) {cut : Cut Lexeme}
    (h : Reading.ofToken .string (Quoted.read g.features quote input) = .read cut) :
    Reading.ofToken .string (Quoted.read g.features quote (unifyBreaks input))
      = .read ⟨cut.value.unified cut.text, unifyBreaks cut.text, unifyBreaks cut.rest⟩ := by
  obtain ⟨string, inner, rfl⟩ := Reading.exists_of_ofToken h
  obtain ⟨text, quoted, -⟩ := Quoted.read_append inner []
  have differs : quote ≠ .of '[' := CodeUnit.ne_of_class isQuote (by decide)
  rw [Quoted.read_unifyBreaks_of_ok isQuote inner]
  simp only [Cut.map, unified, quoted, unified_of_ne differs]
  rfl

theorem read_unifyBreaks_of_read {cut : Cut Lexeme} (h : read g input = .read cut) :
    read g (unifyBreaks input)
      = .read ⟨cut.value.unified cut.text, unifyBreaks cut.text, unifyBreaks cut.rest⟩ := by
  have found := form g input
  rw [h] at found
  generalize outcomeEq : Reading.read cut = outcome at found
  cases found with
  | finished => cases outcomeEq
  | @space u rest space =>
      cases outcomeEq
      obtain ⟨taken, left⟩ := spaces_unifyBreaks (u :: rest)
      obtain ⟨w, other, same⟩ := List.exists_cons_of_ne_nil (unifyBreaks_ne_nil (List.cons_ne_nil u rest))
      have stillSpace : w.isSpace = true := by
        have first := head?_unifyBreaks (u :: rest)
        rw [same, List.head?_cons, List.head?_cons, Option.map_some, Option.some.injEq] at first
        rw [first]
        split
        next => rfl
        next => exact space
      simp only [Cut.ofRun, ← taken, ← left, unified]
      rw [same, read_space stillSpace]
      rfl
  | comment line =>
      rw [unifyBreaks_cons_of_unbroken (by decide), unifyBreaks_cons_of_unbroken (by decide), read_comment]
      exact readComment_unifyBreaks (CodeUnit.forall_of_any (by decide)) outcomeEq.symm
  | word rest first =>
      cases outcomeEq
      exact read_unifyBreaks_of_not_string h rfl (Token.Kind.isString_of_isWord (isWord_classifyWord _ _))
  | @quoted u rest quote =>
      rw [unifyBreaks_cons_of_unbroken (CodeUnit.isBreak_of_isQuote quote), read_quoted quote]
      exact readQuoted_unifyBreaks quote outcomeEq.symm
  | numeral rest begins =>
      obtain ⟨inner, -, rfl⟩ := Reading.exists_of_ofToken outcomeEq.symm
      exact read_unifyBreaks_of_not_string h rfl rfl
  | @longString u rest begins =>
      obtain ⟨rfl, -⟩ := beginsLongString_iff.1 begins
      have string := readLongString_unifyBreaks outcomeEq.symm
      rw [unifyBreaks_cons_of_unbroken (by decide)] at string ⊢
      rw [read_longString ((beginsLongString_unifyBreaks _ rest).trans begins)]
      exact string
  | symbol rest =>
      rcases cut_of_readSymbol outcomeEq.symm with ⟨-, rfl⟩ | ⟨sign, -, -, -, rfl⟩
      · exact read_unifyBreaks_of_not_string h rfl rfl
      · exact read_unifyBreaks_of_not_string h rfl rfl

theorem read_unifyBreaks_of_malformed {m : Misreading} (begins : beginsNumeral u rest = true)
    (failed : Numeral.read (u :: rest) = .error m) :
    ∃ other, m.Unified other ∧ read g (unifyBreaks (u :: rest)) = .failed other := by
  obtain ⟨tail, rfl, behind, rfl⟩ := exists_text_of_readNumeral failed begins
  have unbroken := Numeral.isBreak_of_misread failed
  have misread : Numeral.read (u :: tail ++ behind) = .error ⟨.malformedNumber, [], u :: tail⟩ :=
    failed
  have now := Numeral.read_append_of_error misread (List.cons_ne_nil u tail)
    (follows_unifyBreaks behind)
  rw [← unifyBreaks_append_of_unbroken unbroken, List.cons_append,
    unifyBreaks_cons_of_unbroken (unbroken u List.mem_cons_self)] at now
  rw [unifyBreaks_cons_of_unbroken (unbroken u List.mem_cons_self),
    read_numeral ((beginsNumeral_unifyBreaks u _).trans begins), now]
  refine ⟨_, ?_, rfl⟩
  exact ⟨rfl, rfl⟩

theorem read_unifyBreaks_of_failed {m : Misreading} (h : read g input = .failed m) :
    ∃ other, m.Unified other ∧ read g (unifyBreaks input) = .failed other := by
  have found := form g input
  rw [h] at found
  generalize outcomeEq : Reading.failed m = outcome at found
  cases found with
  | finished | space | word => cases outcomeEq
  | comment line =>
      obtain ⟨unclosed, rfl⟩ := misreading_of_readComment outcomeEq.symm
      rw [unifyBreaks_cons_of_unbroken (by decide), unifyBreaks_cons_of_unbroken (by decide), read_comment,
        readComment, LongBracket.read_unifyBreaks line, unclosed]
      refine ⟨_, ?_, rfl⟩
      exact ⟨rfl, rfl⟩
  | @quoted u rest quote =>
      have failed := Reading.error_of_ofToken outcomeEq.symm
      obtain ⟨other, unified, now⟩ := Quoted.read_unifyBreaks_of_error quote failed
      rw [unifyBreaks_cons_of_unbroken (CodeUnit.isBreak_of_isQuote quote), read_quoted quote, now]
      exact ⟨other, unified, rfl⟩
  | numeral rest begins =>
      exact read_unifyBreaks_of_malformed begins (Reading.error_of_ofToken outcomeEq.symm)
  | @longString u rest begins =>
      obtain ⟨rfl, -⟩ := beginsLongString_iff.1 begins
      have bracket := LongBracket.read_unifyBreaks (.of '[' :: rest)
      rw [unifyBreaks_cons_of_unbroken (by decide)] at bracket ⊢
      rw [read_longString ((beginsLongString_unifyBreaks _ rest).trans begins), readLongString, bracket]
      rcases misreading_of_readLongString outcomeEq.symm with ⟨unclosed, rfl⟩ | ⟨absent, rfl⟩
      · rw [unclosed]
        refine ⟨_, ?_, rfl⟩
        exact ⟨rfl, rfl⟩
      · rw [absent]
        refine ⟨_, ?_, rfl⟩
        exact ⟨rfl, rfl⟩
  | @symbol u rest unspaced noComment noWord noQuote noNumeral noLongString =>
      have failed := outcomeEq.symm
      rw [unifyBreaks_cons_of_unbroken (CodeUnit.isBreak_of_not_isSpace unspaced),
        read_symbol unspaced ((beginsComment_unifyBreaks u rest).trans noComment) noWord noQuote
          ((beginsNumeral_unifyBreaks u rest).trans noNumeral)
          ((beginsLongString_unifyBreaks u rest).trans noLongString),
        readSymbol_append_of_failed failed (follows_unifyBreaks rest)]
      obtain ⟨-, -, rfl⟩ := misreading_of_readSymbol failed
      exact ⟨_, ⟨rfl, rfl⟩, rfl⟩

end Lexeme

structure Piece.Unified (old new : Piece) : Prop where
  value : new.value = old.value.unified old.text
  text : new.text = unifyBreaks old.text
  start : new.start.Alike old.start

theorem Piece.Unified.stop {old new : Piece} (h : old.Unified new) : new.stop.Alike old.stop := by
  rw [Piece.stop, Piece.stop, h.text]
  exact h.start.advance old.text

namespace Trace

structure Unified (old new : Trace) : Prop where
  pieces : List.Forall₂ Piece.Unified old.pieces new.pieces
  stop : new.stop.Alike old.stop
  misreading : Option.Rel Misreading.Unified old.misreading new.misreading

theorem of_unifyBreaks (g : Grammar) {p q : Position} (alike : q.Alike p) (input : List CodeUnit) :
    (of g p input).Unified (of g q (unifyBreaks input)) := by
  induction p, input using of.induct g generalizing q with
  | case1 p input finished =>
      obtain rfl := Lexeme.eq_nil_of_finished finished
      rw [unifyBreaks, of_nil, of_nil]
      exact ⟨.nil, alike, .none⟩
  | case2 p input m failed =>
      obtain ⟨other, unified, now⟩ := Lexeme.read_unifyBreaks_of_failed failed
      rw [of_failed failed, of_failed now]
      exact ⟨.nil, alike, .some unified⟩
  | case3 p input cut read ih =>
      have later := ih (alike.advance cut.text)
      rw [of_read read, of_read (Lexeme.read_unifyBreaks_of_read read)]
      exact ⟨.cons ⟨rfl, rfl, alike⟩ later.pieces, later.stop, later.misreading⟩

end Trace

/-- The body of a comment that is written like this. -/
def Comment.bodyUnits (written : List CodeUnit) : List CodeUnit :=
  match LongBracket.read (written.drop 2) with
  | .closed cut => cut.value
  | _ => written.drop 2

/-- The token and its counterpart in the source with line feeds for line breaks. -/
structure Token.Unified (source : List CodeUnit) (old new : Token) : Prop where
  kind : new.kind = old.kind.unified ((Part.token old).slice source)
  long : ∀ cut, LongBracket.read ((Part.token old).slice source) = .closed cut →
    old.kind = .string (.ofUnits cut.value)
  line : new.start.line = old.start.line
  column : new.start.column = old.start.column
  lastLine : new.lastLine = old.lastLine
  endLine : new.stop.line = old.stop.line
  endColumn : new.stop.column = old.stop.column
  closing : new.closing?.map Position.column = old.closing?.map Position.column

structure Comment.Unified (source : List CodeUnit) (old new : Comment) : Prop where
  oldBody : old.body = .ofUnits (bodyUnits ((Part.comment old).slice source))
  body : new.body = .ofUnits (unifyBreaks (bodyUnits ((Part.comment old).slice source)))
  line : new.start.line = old.start.line
  column : new.start.column = old.start.column
  endLine : new.stop.line = old.stop.line
  endColumn : new.stop.column = old.stop.column

structure Diagnostic.Unified (old new : Diagnostic) : Prop where
  fault : new.fault = old.fault
  line : new.start.line = old.start.line
  column : new.start.column = old.start.column

namespace Lexeme

variable {g : Grammar} {text rest body : List CodeUnit} {kind : Token.Kind}

theorem isString_unified (h : read g (text ++ rest) = .read ⟨.token kind, text, rest⟩) :
    (kind.unified text).isString = kind.isString := by
  unfold Token.Kind.unified
  split
  next inner closed =>
    rw [kind_of_closed h closed]
    rfl
  · rfl

theorem bodyUnits_of_read (h : read g (text ++ rest) = .read ⟨.comment body, text, rest⟩) :
    Comment.bodyUnits text = body := by
  rcases cases_of_read h with run | ⟨line, input, comment⟩ | ⟨kind, token⟩
  · cases congrArg Cut.value run
  · rcases cut_of_readComment comment with ⟨inner, closed, same⟩ | ⟨absent, same⟩
    · cases same
      obtain ⟨level, lead, isClosed, text, -⟩ := LongBracket.exists_isClosed_of_read closed
      have alone := isClosed.read_append []
      rw [List.append_nil, ← text] at alone
      simp only [Comment.bodyUnits, List.cons_append, List.drop_succ_cons, List.nil_append,
        List.drop_zero, alone]
    · cases same
      have whole : line.takeWhile (!·.isBreak) ++ line.dropWhile (!·.isBreak) = line :=
        List.takeWhile_append_dropWhile
      rw [LongBracket.read_eq_absent_iff, ← whole] at absent
      have still := LongBracket.read_eq_absent_iff.2 (LongBracket.level?_of_append absent)
      simp only [Comment.bodyUnits, List.cons_append, List.drop_succ_cons, List.nil_append,
        List.drop_zero, still]
  · cases token

end Lexeme

namespace Piece

variable {g : Grammar} {source before after : List CodeUnit} {old new : Piece}

theorem Unified.token? (h : old.Unified new) (readAt : old.ReadAt g source before after) :
    Option.Rel (Token.Unified source) old.token? new.token? := by
  have value := h.value
  unfold Piece.token?
  cases same : old.value with
  | space =>
      rw [same] at value
      rw [value]
      exact .none
  | comment body =>
      rw [same] at value
      rw [value]
      exact .none
  | token kind =>
      have read := readAt.read
      rw [same] at value read
      have slice : (Part.token ⟨kind, old.start, old.stop⟩).slice source = old.text :=
        readAt.slice_eq (by rw [part?, same])
      have isString := Lexeme.isString_unified read
      rw [value]
      refine .some ⟨?_, ?_, h.start.line_eq, h.start.column_eq, ?_, h.stop.line_eq, h.stop.column_eq, ?_⟩
      · rw [slice]
      · intro cut closed
        rw [slice] at closed
        exact Lexeme.kind_of_closed read closed
      · simp only [Token.lastLine, Token.closing?, isString]
        split
        · exact h.stop.line_eq
        · exact h.start.line_eq
      · simp only [Token.closing?, isString]
        split
        · exact congrArg some h.stop.column_eq
        · rfl

theorem Unified.comment? (h : old.Unified new) (readAt : old.ReadAt g source before after) :
    Option.Rel (Comment.Unified source) old.comment? new.comment? := by
  have value := h.value
  unfold Piece.comment?
  cases same : old.value with
  | space =>
      rw [same] at value
      rw [value]
      exact .none
  | token kind =>
      rw [same] at value
      rw [value]
      exact .none
  | comment body =>
      have read := readAt.read
      rw [same] at value read
      have slice : (Part.comment ⟨.ofUnits body, Utf16.lossy old.text, old.start, old.stop⟩).slice source
          = old.text := readAt.slice_eq (by rw [part?, same])
      have units := Lexeme.bodyUnits_of_read read
      rw [value]
      refine .some ⟨?_, ?_, h.start.line_eq, h.start.column_eq, h.stop.line_eq, h.stop.column_eq⟩
      · rw [slice, units]
      · rw [slice, units]

end Piece

theorem Misreading.Unified.diagnose {old new : Misreading} (h : old.Unified new) (chunk : Option String)
    {p q : Position} (alike : q.Alike p) : (old.diagnose chunk p).Unified (new.diagnose chunk q) := by
  have start := alike.advance old.lead
  rw [← h.lead] at start
  exact ⟨h.fault, start.line_eq, start.column_eq⟩

namespace Session

theorem shebang_unifyBreaks (source : List CodeUnit) : shebang (unifyBreaks source) = shebang source := by
  have mark := prefix_unifyBreaks (CodeUnit.forall_of_any (by decide) :
    ∀ u ∈ spellingUnits "#!", u.isBreak = false) source
  by_cases marked : spellingUnits "#!" <+: source
  · rw [shebang_of_marked marked, shebang_of_marked (mark.2 marked)]
    exact (run_unifyBreaks (CodeUnit.forall_isBreak rfl rfl) source).1
  · rw [shebang_of_unmarked marked, shebang_of_unmarked fun found => marked (mark.1 found)]

theorem skipped_unifyBreaks (o : Options) (source : List CodeUnit) :
    skipped o (unifyBreaks source) = skipped o source := by
  unfold skipped
  rw [shebang_unifyBreaks]

theorem isBreak_skipped (o : Options) (source : List CodeUnit) :
    ∀ u ∈ skipped o source, u.isBreak = false := by
  unfold skipped
  split
  · exact isBreak_shebang source
  · nofun

end Session

namespace Run

theorem trace_unifyBreaks (o : Options) (source : List CodeUnit) :
    (trace o source).Unified (trace o (unifyBreaks source)) := by
  have ahead : (unifyBreaks source).drop (Session.skipped o source).length
      = unifyBreaks (source.drop (Session.skipped o source).length) := by
    have behind := unifyBreaks_append_of_unbroken (Session.isBreak_skipped o source)
      (source.drop (Session.skipped o source).length)
    rw [Session.skipped_append_drop] at behind
    rw [behind, List.drop_left]
  rw [trace_eq, trace_eq, Session.skipped_unifyBreaks, ahead]
  exact Trace.of_unifyBreaks o.grammar (Position.Alike.refl _) _

/-- The style of line endings does not matter. A source and its counterpart, in which every
    line break is a line feed, have the same tokens and comments on the same lines and in the
    same columns, up to the line breaks in long brackets, and fail alike. -/
theorem ofUnits_unifyBreaks (o : Options) (source : List CodeUnit) :
    let run := ofUnits o source
    let unified := ofUnits o (unifyBreaks source)
    List.Forall₂ (Token.Unified source) run.tokens unified.tokens
      ∧ List.Forall₂ (Comment.Unified source) run.comments unified.comments
      ∧ Option.Rel Diagnostic.Unified run.failure unified.failure := by
  intro run unified
  have traces := trace_unifyBreaks o source
  have read : ∀ piece ∈ (trace o source).pieces, ∃ before after,
      piece.ReadAt o.grammar source before after := fun _ => readAt_of_mem_trace
  have pieces := (List.forall₂_and_left _ _).2 ⟨read, traces.pieces⟩
  have tokens : List.Forall₂ (Token.Unified source) (trace o source).tokens
      (trace o (unifyBreaks source)).tokens :=
    List.rel_filterMap (fun _ _ ⟨⟨_, _, readAt⟩, alike⟩ => alike.token? readAt) pieces
  have comments : List.Forall₂ (Comment.Unified source) (trace o source).comments
      (trace o (unifyBreaks source)).comments :=
    List.rel_filterMap (fun _ _ ⟨⟨_, _, readAt⟩, alike⟩ => alike.comment? readAt) pieces
  have shape := ofUnits_eq o source
  have shape' := ofUnits_eq o (unifyBreaks source)
  simp only [run, unified, shape, shape']
  refine ⟨tokens, ?_, ?_⟩
  · split
    · exact comments
    · exact .nil
  · have misreadings := traces.misreading
    unfold Trace.failure
    generalize (trace o source).misreading = old at misreadings
    generalize (trace o (unifyBreaks source)).misreading = new at misreadings
    cases misreadings with
    | none => exact .none
    | some alike => exact .some (alike.diagnose o.chunk traces.stop)

end Run

end LuaTokens
