import LuaTokens.Proofs.Sweep
import LuaTokens.Proofs.Trace

/-! # Conversations with a session

A conversation is any sequence of calls on one session. Every call hands out the next of
the items and of the comments that the session still has to deliver and leaves the later
ones to the later calls. So a conversation delivers what a run delivers, in the same
order, and taking comments early only divides what would be held otherwise.
-/

namespace LuaTokens

theorem Sweep.ahead_of_item_failure {g : Grammar} {chunk : Option String} {start : Position}
    {input : List CodeUnit} {d : Diagnostic} (h : (Sweep.of g chunk start input).item = some (.failure d)) :
    (Sweep.of g chunk start input).ahead = [] := by
  fun_induction Sweep.of g chunk start input with
  | case1 | case2 => rfl
  | case3 start input cut _ _ _ ih => exact ih h
  | case4 start input cut _ _ _ _ ih => exact ih h
  | case5 => cases h

/-- The items of a run: its tokens, and then the failure if there is one. -/
def Run.items (r : Run) : List Item :=
  r.tokens.map .token ++ r.failure.toList.map .failure

namespace Session

/-- What a session can be called for. -/
inductive Call where
  | next
  | nextToken
  | take (count : Nat)
  | drain
  | comments
  | takeComments
  | source
  | sourceText (first last : Nat)
  | position
  | dialect
  deriving Repr, DecidableEq

/-- What a session answers to a call. -/
inductive Answer where
  | item (delivered : Option Item)
  | outcome (delivered : Except Diagnostic (Option Token))
  | items (delivered : List Item)
  | held (comments : List Comment)
  | taken (comments : List Comment)
  | source (units : List CodeUnit)
  | sourceText (text : Option String)
  | position (p : Position)
  | dialect (d : Dialect)

namespace Answer

/-- A pull as an outcome that is a failure or may be a token. -/
def ofPull : Option Item → Answer
  | none => .outcome (.ok none)
  | some (.token t) => .outcome (.ok (some t))
  | some (.failure d) => .outcome (.error d)

def delivered : Answer → List Item
  | item delivered => delivered.toList
  | outcome (.ok token) => token.toList.map .token
  | outcome (.error d) => [.failure d]
  | items delivered => delivered
  | _ => []

def takenOut : Answer → List Comment
  | taken comments => comments
  | _ => []

theorem delivered_ofPull (item? : Option Item) : (ofPull item?).delivered = item?.toList := by
  cases item? with
  | none => rfl
  | some item => cases item <;> rfl

theorem takenOut_ofPull (item? : Option Item) : (ofPull item?).takenOut = [] := by
  cases item? with
  | none => rfl
  | some item => cases item <;> rfl

end Answer

/-- What a session answers to a call, and the session behind it. -/
def answer (s : Session) : Call → Answer × Session
  | .next => (.item s.pull.1, s.pull.2)
  | .nextToken => (.ofPull s.pull.1, s.pull.2)
  | .take count => (.items (take count s).1, (take count s).2)
  | .drain => (.items s.drain.1, s.drain.2)
  | .comments => (.held s.comments.toList, s)
  | .takeComments => (.taken s.takeComments.1, s.takeComments.2)
  | .source => (.source s.source, s)
  | .sourceText first last => (.sourceText (s.sourceText? first last), s)
  | .position => (.position s.position, s)
  | .dialect => (.dialect s.options.dialect, s)

namespace Call

def isPull : Call → Bool
  | next | nextToken | take _ | drain => true
  | _ => false

/-- Whether a call that delivered so many items asked for more. -/
def asksMore (delivered : Nat) : Call → Bool
  | next | nextToken => delivered < 1
  | take count => delivered < count
  | drain => true
  | _ => false

end Call

structure Exchange where
  call : Call
  answer : Answer

/-- Whether the exchange came upon the failure or the end of the source. -/
def Exchange.meetsEnd (x : Exchange) : Bool :=
  x.call.asksMore x.answer.delivered.length
    || x.answer.delivered.any fun item => item.failure?.isSome

/-- A conversation: what was said, and the session behind it. -/
structure Conversation where
  exchanges : List Exchange
  last : Session

namespace Conversation

def delivered (c : Conversation) : List Item :=
  c.exchanges.flatMap (·.answer.delivered)

def takenOut (c : Conversation) : List Comment :=
  c.exchanges.flatMap (·.answer.takenOut)

def held (c : Conversation) : List Comment :=
  c.last.comments.toList

end Conversation

def converse (s : Session) : List Call → Conversation
  | [] => ⟨[], s⟩
  | call :: calls =>
      let later := (s.answer call).2.converse calls
      ⟨⟨call, (s.answer call).1⟩ :: later.exchanges, later.last⟩

section Delivery

/-- The items that the session still has to deliver. -/
def pending (s : Session) : List Item :=
  s.trace.items s.options.chunk

/-- Between two states of a session, it delivers these items and takes out these comments. -/
structure Yields (s : Session) (items : List Item) (taken : List Comment) (after : Session) : Prop where
  pending : s.pending = items ++ after.pending
  comments : s.finalComments = taken ++ after.finalComments

variable {s mid after : Session} {items more : List Item} {taken others : List Comment}

theorem Yields.refl (s : Session) : Yields s [] [] s :=
  ⟨rfl, rfl⟩

theorem Yields.trans (first : Yields s items taken mid) (second : Yields mid more others after) :
    Yields s (items ++ more) (taken ++ others) after := by
  constructor
  · rw [first.pending, second.pending, List.append_assoc]
  · rw [first.comments, second.comments, List.append_assoc]

theorem yields_pull (s : Session) : Yields s s.pull.1.toList [] s.pull.2 :=
  ⟨s.trace_pull.1, s.finalComments_pull.symm⟩

theorem yields_takeComments (s : Session) : Yields s [] s.takeComments.1 s.takeComments.2 :=
  ⟨rfl, rfl⟩

/-- The ways from one state of a session to another: it is pulled, and comments are taken out
    of it. On the way it delivers these items and these comments. -/
inductive Leads : Session → List Item → List Comment → Session → Prop where
  | refl (s : Session) : Leads s [] [] s
  | pull {s after : Session} {items : List Item} {taken : List Comment}
      (later : Leads s.pull.2 items taken after) : Leads s (s.pull.1.toList ++ items) taken after
  | takeComments {s after : Session} {items : List Item} {taken : List Comment}
      (later : Leads s.takeComments.2 items taken after) :
      Leads s items (s.takeComments.1 ++ taken) after

namespace Leads

theorem trans (first : Leads s items taken mid) (second : Leads mid more others after) :
    Leads s (items ++ more) (taken ++ others) after := by
  induction first with
  | refl => exact second
  | pull _ ih =>
      rw [List.append_assoc]
      exact .pull (ih second)
  | takeComments _ ih =>
      rw [List.append_assoc]
      exact .takeComments (ih second)

theorem source (h : Leads s items taken after) : after.source = s.source := by
  induction h with
  | refl => rfl
  | pull _ ih => exact ih
  | takeComments _ ih => exact ih

theorem options (h : Leads s items taken after) : after.options = s.options := by
  induction h with
  | refl => rfl
  | pull _ ih => exact ih
  | takeComments _ ih => exact ih

theorem yields (h : Leads s items taken after) : Yields s items taken after := by
  induction h with
  | refl s => exact .refl s
  | pull _ ih => exact (yields_pull _).trans ih
  | takeComments _ ih => exact (yields_takeComments _).trans ih

end Leads

theorem leads_pull (s : Session) : Leads s s.pull.1.toList [] s.pull.2 := by
  have one := Leads.pull (.refl s.pull.2)
  rwa [List.append_nil] at one

theorem leads_takeComments (s : Session) : Leads s [] s.takeComments.1 s.takeComments.2 := by
  have one := Leads.takeComments (.refl s.takeComments.2)
  rwa [List.append_nil] at one

theorem take_succ (count : Nat) (s : Session) :
    take (count + 1) s = match s.pull.1 with
      | none => ([], s.pull.2)
      | some item => (item :: (take count s.pull.2).1, (take count s.pull.2).2) := by
  rw [take]
  split
  next same => rw [same]
  next same => rw [same]

theorem take_one (s : Session) : take 1 s = (s.pull.1.toList, s.pull.2) := by
  rw [take_succ]
  split
  next same => rw [same]; rfl
  next same => rw [same]; rfl

theorem drain_cases (s : Session) :
    s.drain = match s.pull.1 with
      | none => ([], s.pull.2)
      | some item => (item :: s.pull.2.drain.1, s.pull.2.drain.2) := by
  rw [drain]
  split
  next same => rw [same]
  next same => rw [same]

theorem leads_take (count : Nat) (s : Session) : Leads s (take count s).1 [] (take count s).2 := by
  induction count generalizing s with
  | zero => exact .refl s
  | succ count ih =>
      have first := s.leads_pull
      rw [take_succ]
      split
      next same =>
        rw [same] at first
        exact first
      next item same =>
        rw [same] at first
        exact first.trans (ih s.pull.2)

theorem leads_drain (s : Session) : Leads s s.drain.1 [] s.drain.2 := by
  fun_induction drain s with
  | case1 s finished =>
      have first := s.leads_pull
      rw [finished] at first
      exact first
  | case2 s item delivered later last same ih =>
      have first := s.leads_pull
      rw [same] at ih
      rw [delivered] at first
      exact first.trans ih

/-- Every call comes down to pulls and to taking comments out. -/
theorem leads_answer (s : Session) (call : Call) :
    Leads s (s.answer call).1.delivered (s.answer call).1.takenOut (s.answer call).2 := by
  cases call with
  | next => exact s.leads_pull
  | nextToken =>
      rw [answer, Answer.delivered_ofPull, Answer.takenOut_ofPull]
      exact s.leads_pull
  | take count => exact leads_take count s
  | drain => exact s.leads_drain
  | takeComments => exact s.leads_takeComments
  | _ => exact .refl s

theorem leads_converse (s : Session) (calls : List Call) :
    Leads s (s.converse calls).delivered (s.converse calls).takenOut (s.converse calls).last := by
  induction calls generalizing s with
  | nil => exact .refl s
  | cons call calls ih => exact (s.leads_answer call).trans (ih _)

theorem yields_converse (s : Session) (calls : List Call) :
    Yields s (s.converse calls).delivered (s.converse calls).takenOut (s.converse calls).last :=
  (s.leads_converse calls).yields

theorem ahead_drain (s : Session) : s.drain.2.ahead = [] := by
  fun_induction drain s with
  | case1 s finished => exact Sweep.ahead_of_item_none finished
  | case2 s item delivered later last same ih =>
      rw [same] at ih
      exact ih

theorem pending_of_over (isOver : s.ahead = []) : s.pending = [] := by
  rw [pending, trace, isOver, Trace.of_nil]
  rfl

theorem finalComments_of_over (isOver : s.ahead = []) : s.finalComments = s.comments.toList := by
  rw [finalComments, trace, isOver, Trace.of_nil]
  simp [Trace.comments]

end Delivery

section Over

variable {s : Session} {call : Call}

theorem pull_of_over (isOver : s.ahead = []) : s.pull = (none, s) := by
  rw [pull, sweep, isOver, Sweep.of_nil]
  simp [← isOver]

theorem take_of_over (isOver : s.ahead = []) (count : Nat) : take count s = ([], s) := by
  cases count with
  | zero => rfl
  | succ count => rw [take_succ, pull_of_over isOver]

theorem drain_of_over (isOver : s.ahead = []) : s.drain = ([], s) := by
  rw [drain]
  split
  · rw [pull_of_over isOver]
  next same =>
    rw [pull_of_over isOver] at same
    cases same

theorem answer_of_over (isOver : s.ahead = []) (pulls : call.isPull = true) :
    (s.answer call).1.delivered = [] ∧ (s.answer call).2 = s := by
  cases call with
  | next | nextToken =>
      rw [answer, pull_of_over isOver]
      exact ⟨rfl, rfl⟩
  | take count =>
      rw [answer, take_of_over isOver]
      exact ⟨rfl, rfl⟩
  | drain =>
      rw [answer, drain_of_over isOver]
      exact ⟨rfl, rfl⟩
  | _ => cases pulls

theorem Leads.over {items : List Item} {taken : List Comment} {after : Session}
    (h : Leads s items taken after) (isOver : s.ahead = []) : after.ahead = [] := by
  induction h with
  | refl => exact isOver
  | pull _ ih =>
      apply ih
      rw [pull_of_over isOver, isOver]
  | takeComments _ ih => exact ih isOver

theorem over_converse (isOver : s.ahead = []) (calls : List Call) : (s.converse calls).last.ahead = [] :=
  (s.leads_converse calls).over isOver

theorem over_pull_of_failure {item : Item} (delivered : s.pull.1 = some item)
    (failed : item.failure?.isSome = true) : s.pull.2.ahead = [] := by
  cases item with
  | token t => cases failed
  | failure d => exact Sweep.ahead_of_item_failure delivered

theorem Leads.over_of_failure {items : List Item} {taken : List Comment} {after : Session}
    (h : Leads s items taken after) {item : Item} (member : item ∈ items)
    (failed : item.failure?.isSome = true) : after.ahead = [] := by
  induction h with
  | refl => cases member
  | pull later ih =>
      rcases List.mem_append.1 member with now | member
      · exact later.over (over_pull_of_failure (Option.mem_toList.1 now) failed)
      · exact ih member
  | takeComments _ ih => exact ih member

/-- A session that delivers less than is asked for is over. -/
theorem over_take {count : Nat} (short : (take count s).1.length < count) : (take count s).2.ahead = [] := by
  induction count generalizing s with
  | zero => exact absurd short (Nat.not_lt_zero _)
  | succ count ih =>
      rw [take_succ] at short ⊢
      split at short
      next finished => exact Sweep.ahead_of_item_none finished
      next item delivered => exact ih (Nat.succ_lt_succ_iff.1 short)

theorem over_of_asksMore (asks : call.asksMore (s.answer call).1.delivered.length = true) :
    (s.answer call).2.ahead = [] := by
  have one (short : s.pull.1.toList.length < 1) : s.pull.2.ahead = [] := by
    have isOver := @over_take s 1
    rw [take_one] at isOver
    exact isOver short
  cases call with
  | next => exact one (of_decide_eq_true asks)
  | nextToken =>
      rw [answer, Answer.delivered_ofPull] at asks
      exact one (of_decide_eq_true asks)
  | take count => exact over_take (of_decide_eq_true asks)
  | drain => exact s.ahead_drain
  | _ => cases asks

theorem over_of_meetsEnd (ended : (Exchange.mk call (s.answer call).1).meetsEnd = true) :
    (s.answer call).2.ahead = [] := by
  simp only [Exchange.meetsEnd, Bool.or_eq_true, List.any_eq_true] at ended
  rcases ended with asks | ⟨item, member, failed⟩
  · exact over_of_asksMore asks
  · exact (s.leads_answer call).over_of_failure member failed

theorem over_converse_of_meetsEnd {calls : List Call} {x : Exchange}
    (member : x ∈ (s.converse calls).exchanges) (ended : x.meetsEnd = true) :
    (s.converse calls).last.ahead = [] := by
  induction calls generalizing s with
  | nil => cases member
  | cons call calls ih =>
      rcases List.mem_cons.1 member with rfl | later
      · exact over_converse (over_of_meetsEnd ended) calls
      · exact ih later

end Over

section Holding

/-- The session with these comments before the ones it holds. -/
def holding (comments : List Comment) (s : Session) : Session :=
  { s with comments := comments.toArray ++ s.comments }

variable {s : Session} {call : Call} (comments : List Comment)

theorem holding_nil (s : Session) : s.holding [] = s := by
  simp [holding]

theorem pull_holding (s : Session) :
    (s.holding comments).pull = (s.pull.1, s.pull.2.holding comments) := by
  by_cases captured : s.options.comments = true
  · simp only [pull, holding, sweep, captured, if_true]
    congr 2
    apply Array.ext'
    simp
  · simp [pull, holding, sweep, captured]

theorem take_holding (count : Nat) (s : Session) :
    take count (s.holding comments) = ((take count s).1, (take count s).2.holding comments) := by
  induction count generalizing s with
  | zero => rfl
  | succ count ih =>
      rw [take_succ, take_succ, pull_holding, ih]
      cases s.pull.1 <;> rfl

theorem drain_holding (s : Session) :
    (s.holding comments).drain = (s.drain.1, s.drain.2.holding comments) := by
  fun_induction drain s with
  | case1 s finished => rw [drain_cases, pull_holding, finished]
  | case2 s item delivered later last same ih =>
      rw [same] at ih
      rw [drain_cases, pull_holding, delivered, ih]

/-- Comments held before a call do not change what it delivers and stay before the others. -/
theorem answer_holding (s : Session) (untaken : call ≠ .takeComments) :
    ((s.holding comments).answer call).1.delivered = (s.answer call).1.delivered
      ∧ ((s.holding comments).answer call).2 = (s.answer call).2.holding comments := by
  cases call with
  | next | nextToken =>
      rw [answer, pull_holding]
      exact ⟨rfl, rfl⟩
  | take count =>
      rw [answer, take_holding]
      exact ⟨rfl, rfl⟩
  | drain =>
      rw [answer, drain_holding]
      exact ⟨rfl, rfl⟩
  | takeComments => exact absurd rfl untaken
  | _ => exact ⟨rfl, rfl⟩

theorem holding_takeComments (s : Session) :
    s.holding comments = s.takeComments.2.holding (comments ++ s.comments.toList) := by
  simp [holding, takeComments]

theorem takenOut_of_untaken (s : Session) (untaken : call ≠ .takeComments) :
    (s.answer call).1.takenOut = [] := by
  cases call with
  | nextToken => exact Answer.takenOut_ofPull _
  | takeComments => exact absurd rfl untaken
  | _ => rfl

theorem converse_untaken (s : Session) (calls : List Call) :
    let full := s.converse calls
    let untaken := (s.holding comments).converse (calls.filter (· ≠ .takeComments))
    untaken.delivered = full.delivered
      ∧ untaken.last = full.last.holding (comments ++ full.takenOut) := by
  -- The two sessions differ in the comments that one of them has given away so far.
  induction calls generalizing s comments with
  | nil => exact ⟨rfl, by simp [converse, Conversation.takenOut]⟩
  | cons call calls ih =>
      by_cases taking : call = .takeComments
      · subst taking
        obtain ⟨same, last⟩ := ih (comments ++ s.comments.toList) s.takeComments.2
        rw [← holding_takeComments] at same last
        refine ⟨same, last.trans ?_⟩
        rw [List.append_assoc]
        rfl
      · obtain ⟨same, after⟩ := answer_holding comments s taking
        have later := ih comments (s.answer call).2
        rw [List.filter_cons_of_pos (by simpa using taking)]
        simp only [converse, Conversation.delivered, Conversation.takenOut, List.flatMap_cons, same, after,
          takenOut_of_untaken s taking, List.nil_append] at later ⊢
        exact ⟨congrArg _ later.1, later.2⟩

end Holding

/-- A conversation delivers the items of a run in their order, and all of them once it has
    come upon the failure or the end. From then on pulls deliver nothing and change nothing.
    The comments taken out and those still held are the ones held had none been taken. -/
theorem converse_start (o : Options) (source : List CodeUnit) (calls : List Call) :
    let run := Run.ofUnits o source
    let talk := (start o source).converse calls
    let untaken := (start o source).converse (calls.filter (· ≠ .takeComments))
    talk.delivered <+: run.items
      ∧ talk.takenOut ++ talk.held <+: run.comments
      ∧ ((∃ x ∈ talk.exchanges, x.meetsEnd = true) →
          talk.delivered = run.items ∧ talk.takenOut ++ talk.held = run.comments
            ∧ ∀ call : Call, call.isPull = true →
                (talk.last.answer call).1.delivered = [] ∧ (talk.last.answer call).2 = talk.last)
      ∧ untaken.delivered = talk.delivered ∧ untaken.last.position = talk.last.position
      ∧ untaken.held = talk.takenOut ++ talk.held := by
  intro run talk untaken
  have yields := (start o source).yields_converse calls
  have items : run.items = talk.delivered ++ talk.last.pending := by
    rw [← yields.pending]
    simp only [run, Run.ofUnits_eq]
    rfl
  have comments : run.comments = talk.takenOut ++ talk.last.finalComments := by
    rw [← yields.comments]
    simp only [run, Run.ofUnits_eq]
    rfl
  obtain ⟨same, whole⟩ := converse_untaken [] (start o source) calls
  rw [holding_nil] at same whole
  refine ⟨⟨_, items.symm⟩, ?_, ?_, same, ?_, ?_⟩
  · rw [comments, finalComments, ← List.append_assoc]
    exact List.prefix_append _ _
  · rintro ⟨x, member, ended⟩
    have isOver := over_converse_of_meetsEnd member ended
    refine ⟨?_, ?_, fun call pulls => answer_of_over isOver pulls⟩
    · rw [items, pending_of_over isOver, List.append_nil]
    · rw [comments, finalComments_of_over isOver, Conversation.held]
  · rw [show untaken.last = _ from whole]
    rfl
  · rw [Conversation.held, show untaken.last = _ from whole]
    simp [holding, Conversation.held, talk]

/-- A comment is taken out between a token and a comment with a failure behind it. -/
theorem converse_start_drained :
    let o : Options := { comments := true }
    let source := spellingUnits "--c\nx --d\n$"
    let run := Run.ofUnits o source
    let talk := (start o source).converse [.next, .takeComments, .drain, .takeComments]
    (∃ x ∈ talk.exchanges, x.meetsEnd = true)
      ∧ talk.delivered = run.items ∧ talk.takenOut ++ talk.held = run.comments
      ∧ (talk.last.answer .next).2 = talk.last := by
  intro o source run talk
  have ended : ∃ x ∈ talk.exchanges, x.meetsEnd = true :=
    ⟨_, List.mem_cons_of_mem _ (List.mem_cons_of_mem _ List.mem_cons_self), rfl⟩
  obtain ⟨-, -, whenEnded, -⟩ := converse_start o source [.next, .takeComments, .drain, .takeComments]
  obtain ⟨items, comments, later⟩ := whenEnded ended
  exact ⟨ended, items, comments, (later .next rfl).2⟩

end Session

end LuaTokens
