import LuaTokens.Proofs.Lexeme.Form
import LuaTokens.Proofs.Lexeme.LongBracket
import LuaTokens.Proofs.Part
import LuaTokens.Proofs.Simulation

/-! # Capture of comments

Whether comments are held and how the chunk is named plays no part in reading: sessions
that differ in nothing else go in step and deliver the same tokens, and a failure differs
in the name of the chunk only. What is held is every comment that lies behind the session,
as it is written in the source.
-/

namespace LuaTokens

section Naming

variable (name : Option String)

/-- The report with another name of the chunk. -/
def Diagnostic.under (d : Diagnostic) : Diagnostic :=
  { d with chunk := name }

def Item.under : Item → Item
  | token t => token t
  | failure d => failure (d.under name)

theorem Sweep.of_under (g : Grammar) (chunk : Option String) (p : Position) (input : List CodeUnit) :
    of g name p input = { of g chunk p input with item := (of g chunk p input).item.map (Item.under name) } := by
  fun_induction of g chunk p input with
  | case1 p input finished =>
      obtain rfl := Lexeme.eq_nil_of_finished finished
      exact of_nil
  | case2 p input m failed => exact of_failed failed
  | case3 p input cut read stop space ih =>
      rw [of_read read, space]
      exact ih
  | case4 p input cut read stop body comment ih =>
      rw [of_read read, comment]
      change (of g name stop cut.rest).behind [_] = _
      rw [ih]
      rfl
  | case5 p input cut read stop kind token =>
      rw [of_read read, token]
      rfl

end Naming

namespace Session

/-- Sessions that read the same units at the same place, the second under a name for its chunk. -/
structure InStep (name : Option String) (s t : Session) : Prop where
  grammar : t.options.grammar = s.options.grammar
  chunk : t.options.chunk = name
  position : t.position = s.position
  ahead : t.ahead = s.ahead

theorem InStep.sweep {name : Option String} {s t : Session} (h : InStep name s t) :
    t.sweep = { s.sweep with item := s.sweep.item.map (Item.under name) } := by
  rw [Session.sweep, h.grammar, h.chunk, h.position, h.ahead]
  exact Sweep.of_under name _ _ _ _

theorem simulation_inStep (name : Option String) : Simulation (Item.under name) (InStep name) where
  item h := by rw [pull, pull, h.sweep]
  after h := ⟨h.grammar, h.chunk, by rw [pull, pull, h.sweep], by rw [pull, pull, h.sweep]⟩
  taking h := ⟨h.grammar, h.chunk, h.position, h.ahead⟩

end Session

section Behind

theorem Sweep.stop_le_of (g : Grammar) (chunk : Option String) (p : Position) (input : List CodeUnit) :
    p.offset ≤ (of g chunk p input).position.offset
      ∧ ∀ c ∈ (of g chunk p input).comments, c.stop.offset ≤ (of g chunk p input).position.offset := by
  fun_induction of g chunk p input with
  | case1 => simp
  | case2 p input m failed =>
      refine ⟨?_, by simp⟩
      rw [m.offset_diagnose]
      omega
  | case3 p input cut read stop space ih =>
      refine ⟨?_, ih.2⟩
      have := ih.1
      simp only [stop, Position.offset_advance] at this ⊢
      omega
  | case4 p input cut read stop body comment ih =>
      obtain ⟨goesOn, behind⟩ := ih
      constructor
      · simp only [stop, Position.offset_advance, withComment] at goesOn ⊢
        omega
      · intro c member
        rcases List.mem_cons.1 member with rfl | later
        · exact goesOn
        · exact behind c later
  | case5 p input cut read stop kind token =>
      refine ⟨?_, by simp⟩
      simp [stop]

namespace Session

variable {s after : Session} {items : List Item} {taken : List Comment}

/-- The comments that the session holds lie behind it. -/
def HoldsBehind (s : Session) : Prop :=
  ∀ c ∈ s.comments.toList, c.stop.offset ≤ s.position.offset

theorem HoldsBehind.pull (h : s.HoldsBehind) : s.pull.2.HoldsBehind := by
  obtain ⟨goesOn, behind⟩ := Sweep.stop_le_of s.options.grammar s.options.chunk s.position s.ahead
  have old : ∀ c ∈ s.comments.toList, c.stop.offset ≤ s.pull.2.position.offset :=
    fun c member => Nat.le_trans (h c member) goesOn
  intro c member
  simp only [Session.pull] at member
  split at member
  · rw [Array.toList_appendList, List.mem_append] at member
    exact member.elim (old c) (behind c)
  · exact old c member

theorem Leads.behind (h : Leads s items taken after) (holds : s.HoldsBehind) :
    s.position.offset ≤ after.position.offset
      ∧ ∀ c ∈ taken ++ after.comments.toList, c.stop.offset ≤ after.position.offset := by
  induction h with
  | refl => exact ⟨Nat.le_refl _, holds⟩
  | @pull s after items taken _ ih =>
      obtain ⟨goesOn, behind⟩ := ih holds.pull
      exact ⟨Nat.le_trans (Sweep.stop_le_of _ _ _ _).1 goesOn, behind⟩
  | @takeComments s after items taken _ ih =>
      obtain ⟨goesOn, behind⟩ := ih (by simp [HoldsBehind, Session.takeComments])
      refine ⟨goesOn, fun c member => ?_⟩
      rw [List.append_assoc, List.mem_append] at member
      exact member.elim (fun now => Nat.le_trans (holds c now) goesOn) (behind c)

theorem lt_stop_of_ahead {c : Comment} (member : c ∈ s.trace.comments) : s.position.offset < c.stop.offset := by
  obtain ⟨piece, inTrace, same⟩ := List.mem_filterMap.1 member
  have bounds := Trace.offset_le_of_mem _ _ _ piece inTrace
  rw [Piece.stop_of_comment? same]
  exact Nat.lt_of_le_of_lt bounds.1 bounds.2

/-- What was taken out and what is held are the comments behind the session, if it holds any. -/
theorem captured_converse (o : Options) (source : List CodeUnit) (calls : List Call) :
    let talk := (start o source).converse calls
    talk.takenOut ++ talk.held
      = if o.comments then
          (Run.trace o source).comments.filter (·.stop.offset ≤ talk.last.position.offset)
        else [] := by
  intro talk
  have leads : Leads (start o source) talk.delivered talk.takenOut talk.last := leads_converse _ _
  obtain ⟨-, behind⟩ := leads.behind (by simp [HoldsBehind, start])
  have divided := leads.yields.comments
  simp only [finalComments, leads.options, show (start o source).options = o from rfl,
    show (start o source).comments.toList = [] from rfl, List.nil_append, ← List.append_assoc] at divided
  split
  next captured =>
    rw [if_pos captured, if_pos captured] at divided
    have kept : (talk.takenOut ++ talk.held).filter (·.stop.offset ≤ talk.last.position.offset)
        = talk.takenOut ++ talk.held :=
      List.filter_eq_self.2 fun c member => decide_eq_true (behind c member)
    have dropped : talk.last.trace.comments.filter (·.stop.offset ≤ talk.last.position.offset) = [] := by
      rw [List.filter_eq_nil_iff]
      intro c member
      simpa using lt_stop_of_ahead member
    rw [Run.trace, divided, List.filter_append, dropped, List.append_nil]
    exact kept.symm
  next unheld =>
    rw [if_neg unheld, if_neg unheld] at divided
    rw [List.append_nil] at divided
    exact divided.symm

end Session

end Behind

/-- The text of a comment, its body and what follows: two dashes, and behind them a long
    bracket with the body, or the body up to the end of the line. -/
inductive CommentText : List CodeUnit → List CodeUnit → List CodeUnit → Prop where
  | long {level : Nat} {lead body : List CodeUnit} (rest : List CodeUnit)
      (closed : LongBracket.IsClosed level lead body) :
      CommentText (spellingUnits "--" ++ LongBracket.closedText level lead body) body rest
  | line {body rest : List CodeUnit} (unopened : ∀ level, ¬ LongBracket.opener level <+: body ++ rest)
      (unbroken : ∀ u ∈ body, u.isBreak = false) (ends : Stops (!·.isBreak) rest) :
      CommentText (spellingUnits "--" ++ body) body rest

/-- The comment says what the source has from its start to its stop. -/
structure Comment.Transcribes (source : List CodeUnit) (c : Comment) : Prop where
  raw : c.raw = Utf16.lossy ((Part.comment c).slice source)
  body : ∃ body rest, source.drop c.start.offset = (Part.comment c).slice source ++ rest
    ∧ CommentText ((Part.comment c).slice source) body rest ∧ c.body = .ofUnits body

theorem Lexeme.commentText_of_read {g : Grammar} {input text body rest : List CodeUnit}
    (h : read g input = .read ⟨.comment body, text, rest⟩) : CommentText text body rest := by
  rcases cases_of_read h with space | ⟨line, -, h⟩ | ⟨kind, token⟩
  · cases space
  · rcases cut_of_readComment h with ⟨inner, closed, same⟩ | ⟨absent, same⟩
    · cases same
      obtain ⟨level, lead, closed, text, -⟩ := LongBracket.exists_isClosed_of_read closed
      have long := CommentText.long inner.rest closed
      rw [← text] at long
      exact long
    · cases same
      rw [LongBracket.read_eq_absent_iff_unopened] at absent
      refine .line ?_ (fun u member => ?_) (stops_dropWhile line)
      · rwa [List.takeWhile_append_dropWhile]
      · simpa using List.mem_takeWhile_imp member
  · cases token

theorem Run.transcribes_of_mem {o : Options} {source : List CodeUnit} {c : Comment}
    (member : c ∈ (trace o source).comments) : c.Transcribes source := by
  obtain ⟨⟨value, text, start⟩, inTrace, same⟩ := List.mem_filterMap.1 member
  obtain ⟨before, after, readAt⟩ := readAt_of_mem_trace inTrace
  cases value with
  | space => cases same
  | token kind => cases same
  | comment body =>
      cases same
      have slice := readAt.slice_eq rfl
      refine ⟨?_, body, after, ?_, ?_, rfl⟩
      · rw [slice]
      · rw [slice]
        exact readAt.place.drop_eq
      · rw [slice]
        exact Lexeme.commentText_of_read readAt.read

theorem Run.comments_ordered (o : Options) (source : List CodeUnit) :
    (trace o source).comments.Pairwise (·.stop.offset ≤ ·.start.offset) := by
  refine List.Pairwise.filterMap _ ?_ (Trace.pieces_ordered _ _ _)
  intro a b ordered c first d second
  rwa [Piece.stop_of_comment? first, Piece.start_of_comment? second]

namespace Session

theorem takenOut_converse_of_untaken (s : Session) {calls : List Call} (untaken : .takeComments ∉ calls) :
    (s.converse calls).takenOut = [] := by
  induction calls generalizing s with
  | nil => rfl
  | cons call calls ih =>
      rw [List.mem_cons, not_or] at untaken
      have now := s.takenOut_of_untaken (Ne.symm untaken.1)
      have later := ih (s.answer call).2 untaken.2
      simp only [Conversation.takenOut] at later
      simp only [Conversation.takenOut, converse, List.flatMap_cons, now, later, List.append_nil]

/-- Holding comments and naming the chunk are invisible in the tokens. After any calls two
    sessions that differ in nothing else have delivered the same tokens and stand at the same
    position, and a failure differs in the name of the chunk only. Without capture no comment is
    ever held; with it every comment behind the session is, once and in order, and says what the
    source has there. -/
theorem converse_capture (o : Options) (source : List CodeUnit) (capture : Bool) (name : Option String)
    (calls : List Call) :
    let p : Options := { o with comments := capture, chunk := name }
    let run := Run.ofUnits o source
    let other := Run.ofUnits p source
    let talk := (start o source).converse calls
    let otherTalk := (start p source).converse calls
    let captured := talk.takenOut ++ talk.held
    otherTalk.delivered = talk.delivered.map (Item.under name)
      ∧ otherTalk.last.position = talk.last.position
      ∧ other.tokens = run.tokens ∧ other.position = run.position
      ∧ other.failure = run.failure.map (Diagnostic.under name)
      ∧ captured = (if o.comments then
            (Run.trace o source).comments.filter (·.stop.offset ≤ talk.last.position.offset)
          else [])
      ∧ captured.Pairwise (·.stop.offset ≤ ·.start.offset)
      ∧ (∀ c ∈ captured, c.Transcribes source)
      ∧ (.takeComments ∉ calls → talk.takenOut = []) := by
  intro p run other talk otherTalk captured
  have inStep : InStep name (start o source) (start p source) := ⟨rfl, rfl, rfl, rfl⟩
  obtain ⟨delivered, last⟩ := (simulation_inStep name).converse calls inStep
  have equation := captured_converse o source calls
  have inTrace : captured.Sublist (Run.trace o source).comments := by
    rw [show captured = _ from equation]
    split
    · exact List.filter_sublist
    · exact List.nil_sublist _
  refine ⟨delivered, last.position, ?_, ?_, ?_, equation, ?_, ?_, takenOut_converse_of_untaken _⟩
  · simp only [other, run, Run.ofUnits_eq]
    rfl
  · simp only [other, run, Run.ofUnits_eq]
    rfl
  · simp only [other, run, Run.ofUnits_eq, Trace.failure, Option.map_map]
    rfl
  · exact (Run.comments_ordered o source).sublist inTrace
  · exact fun c member => Run.transcribes_of_mem (inTrace.subset member)

/-- A failure inside a comment, after comments of both forms in the same pull. -/
theorem converse_capture_unfinished :
    let o : Options := { comments := true }
    let p : Options := { o with comments := false, chunk := some "chunk" }
    let source := spellingUnits "x--a\n--[=[\nb]=]--[[c"
    let calls : List Call := [.next, .nextToken]
    let talk := (start o source).converse calls
    .takeComments ∉ calls ∧ talk.takenOut = []
      ∧ talk.held.map (·.raw) = ["--a", "--[=[\nb]=]"]
      ∧ ((start p source).converse calls).delivered = talk.delivered.map (Item.under (some "chunk")) := by
  intro o p source calls talk
  have untaken : .takeComments ∉ calls := by decide
  obtain ⟨delivered, -, -, -, -, -, -, -, takenOut⟩ :=
    converse_capture o source false (some "chunk") calls
  exact ⟨untaken, takenOut untaken, by decide +kernel, delivered⟩

end Session

end LuaTokens
