import LuaTokens.Run

/-! # Traces

A trace is a source as one list of lexemes in their places, together with what
stopped the reading. Sweeps and pulls only group the lexemes of a trace, so a run
delivers the tokens and comments of the trace of its source.
-/

namespace LuaTokens

/-- A lexeme in its place. -/
structure Piece where
  value : Lexeme
  text : List CodeUnit
  start : Position
  deriving DecidableEq

namespace Piece

def stop (p : Piece) : Position :=
  p.start.advance p.text

def token? (p : Piece) : Option Token :=
  match p.value with
  | .token kind => some ⟨kind, p.start, p.stop⟩
  | _ => none

def comment? (p : Piece) : Option Comment :=
  match p.value with
  | .comment body => some ⟨.ofUnits body, Utf16.lossy p.text, p.start, p.stop⟩
  | _ => none

theorem start_of_token? {p : Piece} {t : Token} (h : p.token? = some t) : t.start = p.start := by
  unfold token? at h
  split at h
  · cases h
    rfl
  · cases h

theorem stop_of_token? {p : Piece} {t : Token} (h : p.token? = some t) : t.stop = p.stop := by
  unfold token? at h
  split at h
  · cases h
    rfl
  · cases h

theorem start_of_comment? {p : Piece} {c : Comment} (h : p.comment? = some c) : c.start = p.start := by
  unfold comment? at h
  split at h
  · cases h
    rfl
  · cases h

theorem stop_of_comment? {p : Piece} {c : Comment} (h : p.comment? = some c) : c.stop = p.stop := by
  unfold comment? at h
  split at h
  · cases h
    rfl
  · cases h

theorem comment?_of_token? {p : Piece} {t : Token} (h : p.token? = some t) : p.comment? = none := by
  unfold token? at h
  split at h
  next kind token => simp only [comment?, token]
  · cases h

end Piece

/-- The lexemes of a text, where they end, what is left there and why. -/
structure Trace where
  pieces : List Piece
  stop : Position
  ahead : List CodeUnit
  misreading : Option Misreading
  deriving DecidableEq

namespace Trace

def cons (p : Piece) (t : Trace) : Trace :=
  { t with pieces := p :: t.pieces }

/-- Read all lexemes of `input`, which begins at `position`. -/
def of (g : Grammar) (position : Position) (input : List CodeUnit) : Trace :=
  match _h : Lexeme.read g input with
  | .finished => ⟨[], position, input, none⟩
  | .failed m => ⟨[], position, input, some m⟩
  | .read cut =>
      (of g (position.advance cut.text) cut.rest).cons ⟨cut.value, cut.text, position⟩
termination_by input.length
decreasing_by exact (Lexeme.splits_of_read _h).length_rest_lt

def tokens (t : Trace) : List Token :=
  t.pieces.filterMap Piece.token?

def comments (t : Trace) : List Comment :=
  t.pieces.filterMap Piece.comment?

def failure (t : Trace) (chunk : Option String) : Option Diagnostic :=
  t.misreading.map (·.diagnose chunk t.stop)

def items (t : Trace) (chunk : Option String) : List Item :=
  t.tokens.map .token ++ (t.failure chunk).toList.map .failure

/-- Where a run over the text stops. -/
def position (t : Trace) : Position :=
  (t.misreading.map fun m => m.stop (t.stop.advance m.lead)).getD t.stop

section Equations

variable {g : Grammar} {p : Position} {input : List CodeUnit}

theorem of_finished (h : Lexeme.read g input = .finished) : of g p input = ⟨[], p, input, none⟩ := by
  rw [of]
  split
  · rfl
  next failed => rw [h] at failed; cases failed
  next read => rw [h] at read; cases read

theorem of_failed {m : Misreading} (h : Lexeme.read g input = .failed m) :
    of g p input = ⟨[], p, input, some m⟩ := by
  rw [of]
  split
  next finished => rw [h] at finished; cases finished
  next failed => rw [h] at failed; cases failed; rfl
  next read => rw [h] at read; cases read

theorem of_read {cut : Cut Lexeme} (h : Lexeme.read g input = .read cut) :
    of g p input = (of g (p.advance cut.text) cut.rest).cons ⟨cut.value, cut.text, p⟩ := by
  rw [of]
  split
  next finished => rw [h] at finished; cases finished
  next failed => rw [h] at failed; cases failed
  next read => rw [h] at read; cases read; rfl

theorem of_nil : of g p [] = ⟨[], p, [], none⟩ :=
  of_finished rfl

end Equations

section Grouping

variable {p : Piece} {t : Trace} {chunk : Option String}

theorem tokens_cons : (t.cons p).tokens = p.token?.toList ++ t.tokens := by
  cases same : p.token? <;> simp [tokens, cons, same]

theorem comments_cons : (t.cons p).comments = p.comment?.toList ++ t.comments := by
  cases same : p.comment? <;> simp [comments, cons, same]

theorem items_cons : (t.cons p).items chunk = p.token?.toList.map .token ++ t.items chunk := by
  simp only [items, tokens_cons, List.map_append, List.append_assoc]
  rfl

theorem position_cons : (t.cons p).position = t.position :=
  rfl

/-- A sweep takes the front of the trace of its text: its comments, and the token or
    the failure behind them. -/
theorem items_of_sweep (g : Grammar) (chunk : Option String) (start : Position)
    (input : List CodeUnit) :
    let sweep := Sweep.of g chunk start input
    let later := of g sweep.position sweep.ahead
    (of g start input).items chunk = sweep.item.toList ++ later.items chunk
      ∧ (of g start input).comments = sweep.comments ++ later.comments
      ∧ (of g start input).position = later.position := by
  fun_induction Sweep.of g chunk start input with
  | case1 start input h =>
      rw [of_finished h]
      simp only [of_nil]
      exact ⟨rfl, rfl, rfl⟩
  | case2 start input m h =>
      rw [of_failed h]
      simp only [of_nil]
      exact ⟨rfl, rfl, rfl⟩
  | case3 start input cut h stop space ih =>
      rw [of_read h, items_cons, comments_cons, position_cons]
      simp only [Piece.token?, Piece.comment?, space]
      exact ih
  | case4 start input cut h stop body comment ih =>
      rw [of_read h, items_cons, comments_cons, position_cons]
      simp only [Piece.token?, Piece.comment?, comment, Sweep.withComment]
      obtain ⟨items, comments, position⟩ := ih
      exact ⟨items, congrArg (_ :: ·) comments, position⟩
  | case5 start input cut h stop kind token =>
      rw [of_read h, items_cons, comments_cons]
      simp only [Piece.token?, Piece.comment?, token]
      exact ⟨rfl, rfl, rfl⟩

theorem filterMap_token?_items : (t.items chunk).filterMap Item.token? = t.tokens := by
  have tokens : Item.token? ∘ Item.token = some := rfl
  have failures : Item.token? ∘ Item.failure = fun _ => none := rfl
  rw [items, List.filterMap_append, List.filterMap_map, List.filterMap_map, tokens, failures,
    List.filterMap_some, List.filterMap_eq_nil_iff.2 (fun _ _ => rfl), List.append_nil]

theorem findSome?_failure?_items : (t.items chunk).findSome? Item.failure? = t.failure chunk := by
  have silent : (t.tokens.map Item.token).findSome? Item.failure? = none := by
    simp only [List.findSome?_eq_none_iff, List.mem_map]
    rintro _ ⟨token, _, rfl⟩
    rfl
  rw [items, List.findSome?_append, silent]
  cases t.failure chunk <;> rfl

end Grouping

end Trace

theorem Sweep.ahead_of_item_none {g : Grammar} {chunk : Option String} {start : Position}
    {input : List CodeUnit} (h : (Sweep.of g chunk start input).item = none) :
    (Sweep.of g chunk start input).ahead = [] := by
  fun_induction Sweep.of g chunk start input with
  | case1 => rfl
  | case2 => cases h
  | case3 start input cut _ _ _ ih => exact ih h
  | case4 start input cut _ _ _ _ ih => exact ih h
  | case5 => cases h

namespace Session

/-- What a session still has to deliver. -/
def trace (s : Session) : Trace :=
  .of s.options.grammar s.position s.ahead

theorem trace_pull (s : Session) :
    s.trace.items s.options.chunk
        = s.pull.1.toList ++ s.pull.2.trace.items s.pull.2.options.chunk
      ∧ s.trace.comments = s.sweep.comments ++ s.pull.2.trace.comments
      ∧ s.trace.position = s.pull.2.trace.position :=
  Trace.items_of_sweep s.options.grammar s.options.chunk s.position s.ahead

/-- The comments that a session holds once it is over. -/
def finalComments (s : Session) : List Comment :=
  s.comments.toList ++ if s.options.comments then s.trace.comments else []

theorem finalComments_pull (s : Session) : s.pull.2.finalComments = s.finalComments := by
  have later := (s.trace_pull).2.1
  by_cases captured : s.options.comments = true
  · simp [finalComments, later, captured, pull, sweep]
  · simp [finalComments, captured, pull]

theorem drain_eq (s : Session) :
    s.drain.1 = s.trace.items s.options.chunk ∧ s.drain.2.comments.toList = s.finalComments
      ∧ s.drain.2.position = s.trace.position := by
  fun_induction drain s with
  | case1 s finished =>
      obtain ⟨items, _, position⟩ := s.trace_pull
      have final := s.finalComments_pull
      have last : s.pull.2.trace = ⟨[], s.pull.2.position, [], none⟩ := by
        rw [trace, show s.pull.2.ahead = [] from Sweep.ahead_of_item_none finished, Trace.of_nil]
      rw [last] at items position
      simp only [finished] at items
      refine ⟨items.symm, ?_, position.symm⟩
      rw [← final]
      simp [finalComments, last, Trace.comments]
  | case2 s item delivered later last same ih =>
      obtain ⟨items, _, position⟩ := s.trace_pull
      simp only [same] at ih
      obtain ⟨laterItems, laterComments, laterPosition⟩ := ih
      refine ⟨?_, laterComments.trans s.finalComments_pull, laterPosition.trans position.symm⟩
      rw [items, delivered, laterItems]
      rfl

end Session

namespace Run

/-- The trace of a source under options, behind what is skipped as a script's mark. -/
def trace (o : Options) (source : List CodeUnit) : Trace :=
  (Session.start o source).trace

theorem ofUnits_eq (o : Options) (source : List CodeUnit) :
    ofUnits o source
      = ⟨(trace o source).tokens, if o.comments then (trace o source).comments else [],
          (trace o source).failure o.chunk, (trace o source).position⟩ := by
  obtain ⟨items, comments, position⟩ := (Session.start o source).drain_eq
  simp only [ofUnits, ofSession, items, comments, position, Trace.filterMap_token?_items,
    Trace.findSome?_failure?_items]
  rfl

end Run

end LuaTokens
