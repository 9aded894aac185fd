import LuaTokens.Proofs.Scanner.Trivia

/-! # Sessions that scan

A session can be run by a scanner. No pull of such a session is a fault: the scanner never
leaves its buffer, never cuts out what is not there, never leaves its words and never goes
around in a loop without moving. It delivers what the session delivers.
-/

namespace LuaTokens

namespace Scan

open Scanner

/-- Move over the next token, if there is one. -/
def token (o : Options) : Scan (Option Token) := do
  trivia o.comments o.chunk
  let start ← ask Scanner.position
  match ← ask Scanner.peek with
  | none => return none
  | some u =>
      let kind ← tokenKind o.grammar o.chunk start u
      return some ⟨kind, start, ← ask Scanner.position⟩

/-- Move over the mark of a script, if it is to be ignored. -/
def shebang (o : Options) : Scan Unit := do
  if o.ignoreShebang && (← ask (·.isAt 0 '#')) && (← ask (·.isAt 1 '!')) then
    advanceWhile (!·.isBreak)

end Scan

/-- A session with its scanner. -/
structure ScanSession where
  options : Options
  scanner : Scanner
  isDone : Bool

namespace ScanSession

/-- Begin to scan a source. It is `none` if that is a fault. -/
def start? (o : Options) (source : List CodeUnit) : Option ScanSession :=
  match Scan.shebang o ⟨source, {}, [], Nat.zero_le _, Nat.le_refl _⟩ with
  | some (.ok _, scanner) => some ⟨o, scanner, false⟩
  | _ => none

/-- Scan the next token. It is `none` if that is a fault. -/
def pull? (r : ScanSession) : Option (Option Item × ScanSession) :=
  if r.isDone then some (none, r)
  else
    match Scan.token r.options r.scanner with
    | some (.ok (some t), scanner) => some (some (.token t), { r with scanner := scanner })
    | some (.ok none, scanner) => some (none, { r with scanner := scanner, isDone := true })
    | some (.error d, scanner) =>
        some (some (.failure d), { r with scanner := scanner, isDone := true })
    | none => none

/-- Pull so many times, also when the session is over. -/
def pulls? : Nat → ScanSession → Option (List (Option Item) × ScanSession)
  | 0, r => some ([], r)
  | count + 1, r =>
      match r.pull? with
      | none => none
      | some (item?, next) => (pulls? count next).map fun (items, last) => (item? :: items, last)

end ScanSession

namespace Scan

open Scanner

/-- What the scanner has done is a sweep that delivers this item. -/
structure Swept (o : Options) (s : Scanner) (item? : Option Item) (ahead : List CodeUnit)
    (after : Scanner) : Prop where
  item : (s.sweep o.grammar o.chunk).item = item?
  position : (s.sweep o.grammar o.chunk).position = after.position
  ahead : (s.sweep o.grammar o.chunk).ahead = ahead
  held : after.comments
    = s.comments ++ if o.comments then (s.sweep o.grammar o.chunk).comments else []
  units : after.units = s.units
  offset_le : s.position.offset + item?.toList.length ≤ after.position.offset

variable {o : Options} {s now after : Scanner} {comments : List Comment}

theorem swept_of_failed {d : Diagnostic} (h : FailsPassing o.comments o.grammar o.chunk s d after) :
    Swept o s (some (.failure d)) [] after := by
  obtain ⟨comments, now, m, passes, failed, rfl, position, units, held⟩ := h
  have last : now.sweep o.grammar o.chunk = ⟨[], some (.failure (m.diagnose o.chunk now.position)),
      (m.diagnose o.chunk now.position).stop, []⟩ := Sweep.of_failed failed
  have swept := passes.sweep
  rw [last] at swept
  refine ⟨by rw [swept]; rfl, by rw [swept, position]; rfl, by rw [swept]; rfl, ?_,
    units.trans passes.units, ?_⟩
  · rw [swept, held, passes.held]
    simp [Sweep.behind]
  · have long := List.length_pos_iff.2 (Lexeme.splits_of_failed failed).culprit_ne_nil
    have le := passes.offset_le
    rw [position, m.offset_diagnose, Option.toList_some, List.length_singleton]
    omega

theorem swept_of_finished (passes : Passes o.comments o.grammar o.chunk s comments now)
    (finished : now.ahead = []) : Swept o s none now.ahead now := by
  have last : now.sweep o.grammar o.chunk = ⟨[], none, now.position, []⟩ := by
    rw [Scanner.sweep, finished, Sweep.of_nil]
  have swept := passes.sweep
  rw [last] at swept
  refine ⟨by rw [swept]; rfl, by rw [swept]; rfl, by rw [swept, finished]; rfl, ?_,
    passes.units, passes.offset_le⟩
  rw [swept, passes.held]
  simp [Sweep.behind]

theorem swept_of_token {kind : Token.Kind} {text : List CodeUnit}
    (passes : Passes o.comments o.grammar o.chunk s comments now)
    (read : Lexeme.read o.grammar now.ahead = .read ⟨.token kind, text, after.ahead⟩)
    (moved : Moved now text after) :
    Swept o s (some (.token ⟨kind, now.position, after.position⟩)) after.ahead after := by
  have last : now.sweep o.grammar o.chunk = ⟨[], some (.token ⟨kind, now.position, after.position⟩),
      after.position, after.ahead⟩ := by
    rw [Scanner.sweep, Sweep.of_read read, moved.position]
  have swept := passes.sweep
  rw [last] at swept
  refine ⟨by rw [swept]; rfl, by rw [swept]; rfl, by rw [swept]; rfl, ?_,
    moved.units.trans passes.units, ?_⟩
  · rw [swept, moved.comments, passes.held]
    simp [Sweep.behind]
  · have long := List.length_pos_iff.2 (Lexeme.splits_of_read read).text_ne_nil
    have le := passes.offset_le
    rw [moved.offset_eq, Option.toList_some, List.length_singleton]
    simp only at long
    omega

theorem ensures_token (o : Options) (s : Scanner) : (token o).Ensures s
    (fun token? after => Swept o s (token?.map .token) after.ahead after
      ∧ (token? = none → after.ahead = []))
    (fun d after => Swept o s (some (.failure d)) [] after) := by
  refine ensures_bind (ensures_trivia (g := o.grammar) s) (fun _ _ => swept_of_failed) ?_
  rintro _ now ⟨⟨comments, passes⟩, next⟩
  apply ensures_ask_bind
  apply ensures_ask_bind
  rw [peek_eq]
  cases ahead : now.ahead with
  | nil => exact ensures_pure ⟨swept_of_finished passes ahead, fun _ => ahead⟩
  | cons u rest =>
      obtain ⟨solid, noComment⟩ := next u rest ahead
      refine ensures_bind (finds_tokenKind ahead solid noComment) ?_ ?_
      · rintro d after ⟨m, failed, fails⟩
        exact swept_of_failed ⟨comments, now, m, passes, failed, fails⟩
      · rintro kind after ⟨text, read, moved⟩
        apply ensures_ask_bind
        exact ensures_pure ⟨swept_of_token passes read moved, fun none => by cases none⟩

end Scan

namespace ScanSession

open Scan Scanner

/-- The scanner stands where the session does and holds the same comments. -/
structure Simulates (r : ScanSession) (session : Session) : Prop where
  options : r.options = session.options
  units : r.scanner.units = session.source
  position : r.scanner.position = session.position
  comments : r.scanner.comments = session.comments.toList
  ahead : session.ahead = if r.isDone then [] else r.scanner.ahead

variable {r : ScanSession} {session : Session}

theorem simulates_of_swept (h : Simulates r session) (going : r.isDone = false) {item? : Option Item}
    {ahead : List CodeUnit} {scanner : Scanner} (isDone : Bool)
    (swept : Swept r.options r.scanner item? ahead scanner)
    (left : ahead = if isDone then [] else scanner.ahead) :
    session.pull.1 = item? ∧ Simulates ⟨r.options, scanner, isDone⟩ session.pull.2 := by
  have sessionAhead := h.ahead
  rw [going] at sessionAhead
  have same : session.sweep = r.scanner.sweep r.options.grammar r.options.chunk := by
    rw [Session.sweep, Scanner.sweep, h.options, h.position, sessionAhead]
    rfl
  refine ⟨?_, h.options, swept.units.trans h.units, ?_, ?_, ?_⟩
  · rw [Session.pull, same]
    exact swept.item
  · rw [Session.pull, same]
    exact swept.position.symm
  · rw [swept.held, h.comments, Session.pull, same, ← h.options]
    cases r.options.comments <;> simp
  · rw [Session.pull, same]
    exact swept.ahead.trans left

theorem pull_of_done (h : Simulates r session) (done : r.isDone = true) :
    session.pull.1 = none ∧ Simulates r session.pull.2 := by
  have finished := h.ahead
  rw [done] at finished
  have same : session.sweep = ⟨[], none, session.position, []⟩ := by
    rw [Session.sweep, finished]
    exact Sweep.of_nil
  refine ⟨by rw [Session.pull, same], h.options, h.units, ?_, ?_, ?_⟩
  · rw [Session.pull, same]
    exact h.position
  · rw [h.comments, Session.pull, same]
    cases session.options.comments <;> simp
  · rw [Session.pull, same, done]
    rfl

/-- No pull is a fault. It delivers what the session delivers, and the scanner moves on if that
    is an item, and is done if it is none. -/
theorem pull?_simulates (h : Simulates r session) :
    ∃ next, r.pull? = some (session.pull.1, next) ∧ Simulates next session.pull.2
      ∧ r.scanner.position.offset + session.pull.1.toList.length ≤ next.scanner.position.offset
      ∧ (next.isDone = false → r.isDone = false ∧ session.pull.1.toList.length = 1) := by
  cases going : r.isDone with
  | true =>
      obtain ⟨none, simulates⟩ := pull_of_done h going
      refine ⟨r, ?_, simulates, ?_, ?_⟩
      · rw [pull?, if_pos going, none]
      · rw [none]
        exact Nat.le_refl _
      · intro open'
        rw [going] at open'
        cases open'
  | false =>
      have scanned := ensures_token r.options r.scanner
      unfold Ensures at scanned
      rw [pull?, if_neg (by simp [going])]
      cases result : Scan.token r.options r.scanner with
      | none =>
          rw [result] at scanned
          cases scanned
      | some outcome =>
          rw [result] at scanned
          match outcome with
          | (.ok (some t), scanner) =>
              obtain ⟨item, simulates⟩ := simulates_of_swept h going false scanned.1 rfl
              rw [item, going]
              exact ⟨_, rfl, simulates, scanned.1.offset_le, fun _ => ⟨rfl, rfl⟩⟩
          | (.ok none, scanner) =>
              obtain ⟨item, simulates⟩ := simulates_of_swept h going true scanned.1 (scanned.2 rfl)
              rw [item]
              exact ⟨_, rfl, simulates, scanned.1.offset_le, fun going => by cases going⟩
          | (.error d, scanner) =>
              obtain ⟨item, simulates⟩ := simulates_of_swept h going true scanned rfl
              rw [item]
              exact ⟨_, rfl, simulates, scanned.offset_le, fun going => by cases going⟩

theorem pulls?_simulates (count : Nat) (h : Simulates r session) :
    ∃ last, r.pulls? count = some ((session.pulls count).1, last)
      ∧ Simulates last (session.pulls count).2
      ∧ r.scanner.position.offset + ((session.pulls count).1.filterMap id).length
          ≤ last.scanner.position.offset
      ∧ (last.isDone = false → r.isDone = false
          ∧ ((session.pulls count).1.filterMap id).length = count) := by
  induction count generalizing r session with
  | zero => exact ⟨r, rfl, h, Nat.le_refl _, fun going => ⟨going, rfl⟩⟩
  | succ count ih =>
      obtain ⟨next, pulled, simulates, moved, going⟩ := pull?_simulates h
      obtain ⟨last, rest, simulatesLast, movedLast, goingLast⟩ := ih simulates
      have items : (session.pulls (count + 1)).1.filterMap id
          = session.pull.1.toList ++ (session.pull.2.pulls count).1.filterMap id := by
        rw [Session.pulls]
        cases session.pull.1 <;> simp
      refine ⟨last, ?_, simulatesLast, ?_, ?_⟩
      · rw [pulls?, pulled]
        simp only [rest]
        rfl
      · rw [items, List.length_append]
        omega
      · intro lastGoing
        obtain ⟨nextGoing, all⟩ := goingLast lastGoing
        obtain ⟨going, one⟩ := going nextGoing
        refine ⟨going, ?_⟩
        rw [items, List.length_append, one, all, Nat.add_comm]

theorem shebang_eq (source : List CodeUnit) : Session.shebang source =
    if source.head? = some (.of '#') ∧ source[1]? = some (.of '!') then
      source.takeWhile (!·.isBreak) else [] := by
  have mark : spellingUnits "#!" = [.of '#', .of '!'] := rfl
  rw [Session.shebang, mark]
  apply if_congr _ rfl rfl
  match source with
  | [] => simp
  | [u] => simp
  | u :: v :: rest =>
      simp only [List.isPrefixOf_iff_prefix, List.cons_prefix_cons, List.nil_prefix, and_true,
        List.head?_cons, List.getElem?_cons_succ, List.getElem?_cons_zero, Option.some_inj]
      exact and_congr eq_comm eq_comm

theorem returns_shebang (o : Options) (s : Scanner) : (Scan.shebang o).Returns s fun _ after =>
    Moved s (if o.ignoreShebang then Session.shebang s.ahead else []) after := by
  apply ensures_ask_bind
  apply ensures_ask_bind
  rw [isAt_zero, isAt_eq, shebang_eq]
  split
  next mark =>
    simp only [Bool.and_eq_true, decide_eq_true_eq] at mark
    obtain ⟨⟨ignored, first⟩, second⟩ := mark
    rw [if_pos ignored, if_pos ⟨first, second⟩]
    exact returns_advanceWhile (by simp) s
  next noMark =>
    have nothing : (if o.ignoreShebang then
        if s.ahead.head? = some (.of '#') ∧ s.ahead[1]? = some (.of '!') then
          s.ahead.takeWhile (!·.isBreak) else [] else []) = [] := by
      simp only [Bool.and_eq_true, decide_eq_true_eq, and_assoc] at noMark
      split
      next ignored => rw [if_neg fun both => noMark ⟨ignored, both⟩]
      · rfl
    rw [nothing]
    exact ensures_pure (Moved.refl s)

theorem start?_simulates (o : Options) (source : List CodeUnit) :
    ∃ first, start? o source = some first ∧ Simulates first (.start o source) := by
  have skipped := returns_shebang o ⟨source, {}, [], Nat.zero_le _, Nat.le_refl _⟩
  unfold Returns Ensures at skipped
  rw [start?]
  cases result : Scan.shebang o ⟨source, {}, [], Nat.zero_le _, Nat.le_refl _⟩ with
  | none =>
      rw [result] at skipped
      cases skipped
  | some outcome =>
      rw [result] at skipped
      match outcome with
      | (.error d, scanner) => cases skipped
      | (.ok (), scanner) =>
          refine ⟨_, rfl, rfl, skipped.units, skipped.position, skipped.comments, ?_⟩
          have divided : source = (if o.ignoreShebang then Session.shebang source else [])
              ++ scanner.ahead := skipped.ahead
          exact (congrArg (List.drop _) divided).trans List.drop_left

/-- However often a session is pulled, no step of the scanner is a fault: it never leaves the
    buffer or a word, cuts out only ranges of the buffer, and moves on in each round of a loop.
    Each item moves it on by a unit at least, so there are no more items than units, and the
    session is over after more pulls than units. All positions are in the buffer and not before
    their lines. -/
theorem safe (o : Options) (source : List CodeUnit) (count : Nat) :
    ∃ first items last, start? o source = some first ∧ first.pulls? count = some (items, last)
      ∧ items = ((Session.start o source).pulls count).1
      ∧ last.Simulates ((Session.start o source).pulls count).2
      ∧ last.scanner.position.Within source.length
      ∧ (∀ item ∈ items.filterMap id, item.Within source.length)
      ∧ (∀ c ∈ last.scanner.comments, c.start.Within source.length ∧ c.stop.Within source.length)
      ∧ (items.filterMap id).length ≤ source.length ∧ (source.length < count → last.isDone = true)
      ∧ ∃ item? next, last.pull? = some (item?, next)
        ∧ (item? ≠ none → last.scanner.position.offset < next.scanner.position.offset) := by
  obtain ⟨first, started, simulates⟩ := start?_simulates o source
  obtain ⟨last, pulled, simulatesLast, moved, going⟩ := pulls?_simulates count simulates
  obtain ⟨next, pulledNext, -, movedNext, -⟩ := pull?_simulates simulatesLast
  obtain ⟨within, sameSource, items⟩ := Session.within_pulls count (Session.within_start o source)
  have units : last.scanner.units = source := simulatesLast.units.trans sameSource
  have offset : last.scanner.position.offset ≤ source.length := units ▸ last.scanner.offset_le
  have few : (((Session.start o source).pulls count).1.filterMap id).length ≤ source.length := by
    omega
  refine ⟨first, _, last, started, pulled, rfl, simulatesLast, ⟨last.scanner.lineStart_le, offset⟩,
    items, ?_, few, ?_, _, next, pulledNext, ?_⟩
  · have held := within.comments
    rw [sameSource, ← simulatesLast.comments] at held
    exact held
  · intro many
    by_contra open'
    have all := (going (by simpa using open')).2
    omega
  · intro delivers
    obtain ⟨item, delivered⟩ := Option.ne_none_iff_exists'.1 delivers
    rw [delivered, Option.toList_some, List.length_singleton] at movedNext
    exact movedNext

end ScanSession

end LuaTokens
