import LuaTokens.Proofs.Coverage
import LuaTokens.Proofs.Lexeme.Lookahead
import LuaTokens.Proofs.Position.Origin

/-! # Dividing a run

A source can be divided at the end of any lexeme: the lexemes before and behind are those
of the two parts, each read for itself. For a token, all that the second part must be
told of the first is where the token ends and the line it ends on.
-/

namespace LuaTokens

namespace Trace

variable {g : Grammar} {p : Position} {input : List CodeUnit} {earlier later : List Piece}
  {piece : Piece}

theorem of_division (h : (of g p input).pieces = earlier ++ piece :: later) :
    ∃ front back, input = front ++ back ∧ piece.stop.offset = p.offset + front.length
      ∧ of g p front = ⟨earlier ++ [piece], piece.stop, [], none⟩
      ∧ of g piece.stop back = { of g p input with pieces := later } := by
  induction p, input using of.induct g generalizing earlier with
  | case1 p input finished => simp [of_finished finished] at h
  | case2 p input m failed => simp [of_failed failed] at h
  | case3 p input cut read ih =>
      have splits := Lexeme.splits_of_read read
      have whole : Lexeme.read g (cut.text ++ cut.rest) = .read ⟨cut.value, cut.text, cut.rest⟩ := by
        rw [splits.text_append_rest, read]
      rw [of_read read] at h ⊢
      cases earlier with
      | nil =>
          obtain ⟨rfl, rfl⟩ := List.cons.inj h
          have alone := Lexeme.read_append whole (Follows.nil_right cut.rest) (fun _ => Stops.nil)
            (fun _ _ _ => Stops.nil)
          rw [List.append_nil] at alone
          refine ⟨cut.text, cut.rest, splits.text_append_rest.symm, ?_, ?_, rfl⟩
          · exact Position.offset_advance p cut.text
          · rw [of_read alone, of_nil]
            rfl
      | cons first earlier =>
          obtain ⟨rfl, behind⟩ := List.cons.inj h
          obtain ⟨front, back, divided, offset, front_trace, back_trace⟩ := ih behind
          obtain ⟨u, tail, rfl⟩ : ∃ u tail, front = u :: tail := by
            apply List.exists_cons_of_ne_nil
            rintro rfl
            simp [of_nil] at front_trace
          have begins : (u :: tail).head? = cut.rest.head? := by
            rw [divided]
            rfl
          have alone := Lexeme.read_append_of_head? whole begins
          refine ⟨cut.text ++ u :: tail, back, ?_, ?_, ?_, back_trace⟩
          · rw [List.append_assoc, ← divided, splits.text_append_rest]
          · rw [offset, Position.offset_advance, List.length_append, Nat.add_assoc]
          · rw [of_read alone, front_trace]
            rfl

theorem comments_division (h : (of g p input).pieces = earlier ++ piece :: later)
    (silent : piece.comment? = none) :
    earlier.filterMap Piece.comment?
        = (of g p input).comments.filter (·.start.offset < piece.start.offset)
      ∧ later.filterMap Piece.comment?
        = (of g p input).comments.filter (piece.start.offset ≤ ·.start.offset) := by
  have ordered := pieces_ordered g p input
  have filled := (offset_le_of_mem g p input piece (by simp [h])).2
  rw [h, List.pairwise_append, List.pairwise_cons] at ordered
  obtain ⟨-, ⟨behind, -⟩, before⟩ := ordered
  have all : (of g p input).comments
      = earlier.filterMap Piece.comment? ++ later.filterMap Piece.comment? := by
    rw [comments, h, List.filterMap_append, List.filterMap_cons_none silent]
  have early : ∀ c ∈ earlier.filterMap Piece.comment?, c.start.offset < piece.start.offset := by
    intro c member
    obtain ⟨a, inEarlier, found⟩ := List.mem_filterMap.1 member
    have apart := before a inEarlier piece List.mem_cons_self
    have positive := (offset_le_of_mem g p input a (by simp [h, inEarlier])).2
    rw [Piece.start_of_comment? found]
    omega
  have late : ∀ c ∈ later.filterMap Piece.comment?, piece.start.offset ≤ c.start.offset := by
    intro c member
    obtain ⟨b, inLater, found⟩ := List.mem_filterMap.1 member
    have apart := behind b inLater
    rw [Piece.start_of_comment? found]
    omega
  rw [all, List.filter_append, List.filter_append]
  constructor
  · rw [List.filter_eq_self.2 (by simpa using early), List.filter_eq_nil_iff.2 (by simpa using late),
      List.append_nil]
  · rw [List.filter_eq_nil_iff.2 (by simpa using early), List.filter_eq_self.2 (by simpa using late),
      List.nil_append]

end Trace

namespace Session

theorem shebang_append_front {source front back : List CodeUnit}
    (divided : source.drop (shebang source).length = front ++ back) :
    shebang (shebang source ++ front) = shebang source := by
  by_cases marked : spellingUnits "#!" <+: source
  · have stops : Stops (!·.isBreak) (front ++ back) := divided ▸ stops_drop_shebang marked
    exact shebang_append_of_stops marked stops.of_append
  · have none := shebang_of_unmarked marked
    rw [none] at divided ⊢
    apply shebang_of_unmarked
    intro found
    rw [List.length_nil, List.drop_zero] at divided
    rw [divided] at marked
    exact marked (found.trans (List.prefix_append front back))

theorem skipped_append_front (o : Options) {source front back : List CodeUnit}
    (divided : source.drop (skipped o source).length = front ++ back) :
    skipped o (skipped o source ++ front) = skipped o source := by
  by_cases ignored : o.ignoreShebang = true
  · simp only [skipped, ignored, if_true] at divided ⊢
    exact shebang_append_front divided
  · simp only [skipped, ignored, if_false, Bool.false_eq_true]

end Session

/-- A token tells where it stops: a string by its closing delimiter, and any other token by
    its start, since it has no line break in it. -/
theorem Piece.ReadAt.stop_eq {g : Grammar} {source before after : List CodeUnit} {piece : Piece}
    (h : piece.ReadAt g source before after) {t : Token} (token : piece.token? = some t) :
    (⟨t.lastLine, t.lastLineStart, t.stop.offset⟩ : Position) = t.stop := by
  unfold Piece.token? at token
  split at token
  next kind isToken =>
    cases token
    cases string : kind.isString with
    | true => simp [Token.lastLine, Token.lastLineStart, Token.closing?, string]
    | false =>
        have unbroken := Lexeme.isBreak_of_token h.read isToken string
        simp only [Token.lastLine, Token.lastLineStart, Token.closing?, string, Piece.stop,
          Position.advance_of_unbroken _ unbroken, Position.shift]
        rfl
  · cases token

namespace Run

variable {o : Options} {source : List CodeUnit}

theorem placedAt_ofUnits (o : Options) (source : List CodeUnit) (origin : Position) :
    let placed := (trace o source).placedAt origin
    (ofUnits o source).placedAt origin
      = ⟨placed.tokens, if o.comments then placed.comments else [], placed.failure o.chunk,
          placed.position⟩ := by
  intro placed
  have counted : 1 ≤ (Position.advance {} (Session.skipped o source)).line :=
    Position.line_le_advance {} _
  rw [ofUnits_eq]
  simp only [placed, trace_eq, Trace.tokens_placedAt counted, Trace.comments_placedAt counted,
    Trace.failure_placedAt counted, Trace.position_placedAt counted, Run.placedAt]
  split <;> rfl

/-- The lexemes up to a token are those of the source up to where the token stops, and the
    lexemes behind it are those of the rest, read from there. -/
theorem trace_division {earlier later : List Piece} {piece : Piece} {t : Token}
    (h : (trace o source).pieces = earlier ++ piece :: later) (token : piece.token? = some t) :
    trace o (source.take t.stop.offset) = ⟨earlier ++ [piece], t.stop, [], none⟩
      ∧ (trace { o with ignoreShebang := false } (source.drop t.stop.offset)).placedAt t.stop
        = { trace o source with pieces := later } := by
  have start := Session.place_start o source
  have stop : t.stop = piece.stop := by
    unfold Piece.token? at token
    split at token <;> cases token
    rfl
  have counted : 1 ≤ piece.start.line := by
    apply Trace.counted_of_mem (g := o.grammar) (Position.line_le_advance {} _)
    rw [← trace_eq, h]
    simp
  obtain ⟨front, back, divided, offset, front_trace, back_trace⟩ := Trace.of_division h
  rw [start.offset_eq] at offset
  have whole : (Session.skipped o source ++ front) ++ back = source := by
    rw [List.append_assoc, ← divided]
    exact start.append_eq
  have length : t.stop.offset = (Session.skipped o source ++ front).length := by
    rw [stop, offset, List.length_append]
  have taken : source.take t.stop.offset = Session.skipped o source ++ front := by
    calc source.take t.stop.offset
        = ((Session.skipped o source ++ front) ++ back).take t.stop.offset := by rw [whole]
      _ = Session.skipped o source ++ front := by rw [length, List.take_left]
  have dropped : source.drop t.stop.offset = back := by
    calc source.drop t.stop.offset
        = ((Session.skipped o source ++ front) ++ back).drop t.stop.offset := by rw [whole]
      _ = back := by rw [length, List.drop_left]
  constructor
  · rw [taken, trace_eq, Session.skipped_append_front o divided, List.drop_left, stop]
    exact front_trace
  · have origin : Position.placedAt {} piece.stop = piece.stop :=
      Position.placedAt_start (Nat.le_trans counted (piece.start.line_le_advance piece.text))
    have moved := Trace.of_placedAt (p := {}) o.grammar (Nat.le_refl 1) piece.stop back
    rw [origin] at moved
    rw [dropped, stop]
    exact moved.symm.trans back_trace

/-- A run can be divided at the end of any token. The source up to there yields the tokens up
    to that one and the comments before it, and the rest, read for itself, yields what
    remains of the run, once it is placed where the token says that it stops. -/
theorem divide (o : Options) (source : List CodeUnit) {earlier later : List Token} {t : Token}
    (delivered : (ofUnits o source).tokens = earlier ++ t :: later) :
    let run := ofUnits o source
    let origin : Position := ⟨t.lastLine, t.lastLineStart, t.stop.offset⟩
    ofUnits o (source.take origin.offset)
        = ⟨earlier ++ [t], run.comments.filter (·.start.offset < t.start.offset), none, t.stop⟩
      ∧ (ofUnits { o with ignoreShebang := false } (source.drop origin.offset)).placedAt origin
        = ⟨later, run.comments.filter (t.start.offset ≤ ·.start.offset), run.failure,
            run.position⟩ := by
  intro run origin
  rw [ofUnits_eq] at delivered
  obtain ⟨before, behind, pieces, rfl, found⟩ := List.filterMap_eq_append_iff.1 delivered
  obtain ⟨silent, piece, after, rfl, quiet, token, rfl⟩ := List.filterMap_eq_cons_iff.1 found
  rw [← List.append_assoc] at pieces
  have tokens : (before ++ silent).filterMap Piece.token? = before.filterMap Piece.token? := by
    rw [List.filterMap_append, List.filterMap_eq_nil_iff.2 quiet, List.append_nil]
  have noComment := Piece.comment?_of_token? token
  have start : t.start = piece.start := Piece.start_of_token? token
  obtain ⟨_, _, readAt⟩ := readAt_of_mem_trace (show piece ∈ (trace o source).pieces by simp [pieces])
  have stopped : origin = t.stop := readAt.stop_eq token
  obtain ⟨frontTrace, backTrace⟩ := trace_division pieces token
  have early : (before ++ silent).filterMap Piece.comment?
      = (trace o source).comments.filter (·.start.offset < piece.start.offset) :=
    (Trace.comments_division pieces noComment).1
  have late : after.filterMap Piece.comment?
      = (trace o source).comments.filter (piece.start.offset ≤ ·.start.offset) :=
    (Trace.comments_division pieces noComment).2
  rw [stopped, start]
  have all : run = ⟨(trace o source).tokens, if o.comments then (trace o source).comments else [],
      (trace o source).failure o.chunk, (trace o source).position⟩ := ofUnits_eq o source
  constructor
  · have frontTokens : (before ++ silent ++ [piece]).filterMap Piece.token?
        = before.filterMap Piece.token? ++ [t] := by
      rw [List.filterMap_append, tokens]
      simp [token]
    have frontComments : (before ++ silent ++ [piece]).filterMap Piece.comment?
        = (trace o source).comments.filter (·.start.offset < piece.start.offset) := by
      rw [List.filterMap_append, early]
      simp [noComment]
    rw [ofUnits_eq, frontTrace, all]
    simp only [Trace.tokens, frontTokens, Trace.comments, frontComments]
    split <;> rfl
  · rw [placedAt_ofUnits, backTrace, all]
    simp only [Trace.tokens, Trace.comments] at late ⊢
    rw [late]
    split <;> rfl

/-- A string over two lines between two comments, with a failure behind them. -/
theorem divide_two_lines :
    let o : Options := { comments := true }
    let source := spellingUnits "--c\n'a\\\nb' --d\n$"
    let t : Token := ⟨.string [0x61, 0x0A, 0x62], ⟨2, 4, 4⟩, ⟨3, 8, 10⟩⟩
    let run := ofUnits o source
    run.tokens = [] ++ t :: []
      ∧ ofUnits o (source.take 10) = ⟨[t], run.comments.filter (·.start.offset < 4), none, ⟨3, 8, 10⟩⟩
      ∧ (ofUnits { o with ignoreShebang := false } (source.drop 10)).placedAt ⟨3, 8, 10⟩
        = ⟨[], run.comments.filter (4 ≤ ·.start.offset), run.failure, run.position⟩ := by
  intro o source t run
  have delivered : run.tokens = [] ++ t :: [] := by decide +kernel
  exact ⟨delivered, divide o source delivered⟩

end Run

end LuaTokens
