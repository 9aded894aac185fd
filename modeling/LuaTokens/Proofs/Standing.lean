import LuaTokens.Proofs.Conversation
import LuaTokens.Proofs.Diagnosis
import LuaTokens.Proofs.Lexeme.Halt
import LuaTokens.Proofs.LineAccounting

/-! # Where a session stands

Whatever it is called for, a session stands at a place of its source until it delivers a
failure. Behind a failure it stands where reading halted, with a position that is exact
unless a faulty escape took a line break for one of its own units.
-/

namespace LuaTokens

/-- The report is about an escape, and the last unit that it covers is a line break. -/
def Diagnostic.EndsInBreak (source : List CodeUnit) (d : Diagnostic) : Prop :=
  d.fault.inEscape = true ∧ ∃ u ∈ (d.slice source).getLast?, u.isBreak = true

namespace Place

variable {source before text after : List CodeUnit} {p : Position} {u : CodeUnit}

theorem shift (h : Place source before (text ++ after) p) (unbroken : ∀ u ∈ text, u.isBreak = false) :
    Place source (before ++ text) after (p.shift text.length) := by
  have behind := h.step (Seam.of_forall unbroken after)
  rwa [p.advance_of_unbroken unbroken] at behind

theorem insideBreak_of_not_seam (h : Place source before (u :: after) p) (noSeam : ¬ Seam [u] after) :
    InsideBreak source (p.offset + 1) := by
  obtain ⟨broken, v, rest, rfl, second, other⟩ : u.isBreak = true ∧ ∃ v rest, after = v :: rest
      ∧ v.isBreak = true ∧ v ≠ u := by
    simp only [Seam, openBreak, not_forall] at noSeam
    obtain ⟨w, opened, v, first, second, other⟩ := noSeam
    split at opened
    next broken =>
      obtain rfl : u = w := Option.some.inj opened
      obtain ⟨rest, rfl⟩ := List.head?_eq_some_iff.1 first
      exact ⟨broken, v, rest, rfl, second, other⟩
    · cases opened
  refine ⟨⟨p.offset, p.offset + 2⟩, ?_, Nat.lt_succ_self _, Nat.lt_succ_self _⟩
  rw [lineBreaks, ← h.append_eq, lineBreaksFrom_append h.seam, h.offset_eq]
  simp [lineBreaksFrom, broken, second, other]

/-- One unit behind a place, the line is still the same only if that unit is no line break. -/
theorem exact_shift_iff (h : Place source before (u :: after) p) :
    (p.shift 1).Exact source ↔ u.isBreak = false := by
  constructor
  · intro exact
    by_contra broken
    rw [Bool.not_eq_false] at broken
    by_cases seam : Seam [u] after
    · have behind : Place source (before ++ [u]) after (p.advance [u]) := h.step seam
      have same : p.shift 1 = p.advance [u] :=
        calc
          p.shift 1 = positionAt source (p.shift 1).offset := exact.eq_positionAt
          _ = positionAt source (p.advance [u]).offset := by rw [Position.offset_advance]; rfl
          _ = p.advance [u] := behind.positionAt_eq.symm
      rw [show p.advance [u] = p.breakLine 1 from if_pos broken] at same
      exact Nat.succ_ne_self _ (congrArg Position.line same).symm
    · exact exact.not_insideBreak (h.insideBreak_of_not_seam seam)
  · intro unbroken
    have behind : Place source (before ++ [u]) after (p.shift 1) := h.shift (by simpa using unbroken)
    exact behind.exact

end Place

namespace Misreading

variable {m : Misreading} {source before rest : List CodeUnit} {start : Position}

theorem exact_stop_iff (place : Place source before (m.culprit ++ rest) start) (halts : m.Halts rest)
    (nonempty : m.culprit ≠ []) :
    (m.stop start).Exact source
      ↔ ¬ (m.fault.inEscape = true ∧ ∃ u ∈ m.culprit.getLast?, u.isBreak = true) := by
  cases inside : m.fault.inEscape with
  | false =>
      have stop : m.stop start = start.advance m.culprit := by simp [stop, inside]
      rw [stop]
      exact ⟨fun _ => by simp, fun _ => (place.step (halts.seam inside)).exact⟩
  | true =>
      have unbroken := halts.escape inside
      obtain ⟨front, u, same⟩ : ∃ front u, m.culprit = front ++ [u] :=
        ⟨_, _, (List.dropLast_concat_getLast nonempty).symm⟩
      have stop : m.stop start = (start.shift front.length).shift 1 := by
        simp [stop, inside, same, Position.shift, Nat.add_assoc]
      rw [same, List.dropLast_concat] at unbroken
      rw [same, List.append_assoc, List.singleton_append] at place
      rw [stop, (place.shift unbroken).exact_shift_iff, same]
      simp

end Misreading

namespace Sweep

theorem exists_place_of {g : Grammar} {chunk : Option String} {source input : List CodeUnit} {p : Position}
    (place : ∃ before, Place source before input p)
    (faultless : ∀ d, (of g chunk p input).item ≠ some (.failure d)) :
    ∃ before, Place source before (of g chunk p input).ahead (of g chunk p input).position := by
  fun_induction of g chunk p input with
  | case1 p input finished =>
      rw [Lexeme.eq_nil_of_finished finished] at place
      exact place
  | case2 => exact absurd rfl (faultless _)
  | case3 p input cut read stop space ih | case4 p input cut read stop body comment ih =>
      obtain ⟨before, place⟩ := place
      exact ih ⟨_, (Trace.readAt_of_read place read).stop⟩ faultless
  | case5 p input cut read =>
      obtain ⟨before, place⟩ := place
      exact ⟨_, (Trace.readAt_of_read place read).stop⟩

end Sweep

namespace Session

variable {source : List CodeUnit} {s after : Session} {items : List Item} {taken : List Comment}

/-- What is ahead of the session begins at a place of the source, and the session is there. -/
def AtPlace (source : List CodeUnit) (s : Session) : Prop :=
  ∃ before, Place source before s.ahead s.position

theorem AtPlace.pull (h : s.AtPlace source) (faultless : ∀ d, s.pull.1 ≠ some (.failure d)) :
    s.pull.2.AtPlace source :=
  Sweep.exists_place_of h faultless

/-- As long as no failure is delivered, a session goes from place to place. -/
theorem Leads.atPlace (h : Leads s items taken after) (start : s.AtPlace source)
    (faultless : ∀ d, Item.failure d ∉ items) : after.AtPlace source := by
  induction h with
  | refl => exact start
  | pull _ ih =>
      refine ih (start.pull fun d delivered => ?_) fun d member => faultless d (List.mem_append_right _ member)
      exact faultless d (List.mem_append_left _ (Option.mem_toList.2 delivered))
  | takeComments _ ih => exact ih start faultless

theorem Leads.position_trace (h : Leads s items taken after) : s.trace.position = after.trace.position := by
  induction h with
  | refl => rfl
  | @pull s _ _ _ _ ih => exact s.trace_pull.2.2.trans ih
  | takeComments _ ih => exact ih

theorem position_trace_of_over (isOver : s.ahead = []) : s.trace.position = s.position := by
  rw [trace, isOver, Trace.of_nil]
  rfl

section Start

variable {o : Options} {calls : List Call} {d : Diagnostic}

theorem mem_items_of_delivered {item : Item}
    (member : item ∈ ((start o source).converse calls).delivered) : item ∈ (Run.ofUnits o source).items := by
  have items : (Run.ofUnits o source).items = (start o source).pending := by
    rw [Run.ofUnits_eq]
    rfl
  rw [items, ((start o source).yields_converse calls).pending]
  exact List.mem_append_left _ member

theorem failure_of_delivered (member : .failure d ∈ ((start o source).converse calls).delivered) :
    (Run.ofUnits o source).failure = some d := by
  have inRun := mem_items_of_delivered member
  simp only [Run.items, List.mem_append, List.mem_map, Option.mem_toList] at inRun
  rcases inRun with ⟨t, -, other⟩ | ⟨d, failed, same⟩
  · cases other
  · cases same
    exact failed

theorem position_of_failure (member : .failure d ∈ ((start o source).converse calls).delivered) :
    ((start o source).converse calls).last.position = d.stop := by
  have leads := (start o source).leads_converse calls
  obtain ⟨_, _, -, stopped, -⟩ := Run.exists_failing (failure_of_delivered member)
  rw [← stopped, ← position_trace_of_over (leads.over_of_failure member rfl), ← leads.position_trace,
    Run.ofUnits_eq]
  rfl

theorem exact_stop_of_failure (failed : (Run.ofUnits o source).failure = some d) :
    d.stop.Exact source ↔ ¬ d.EndsInBreak source := by
  rw [Run.ofUnits_eq] at failed
  obtain ⟨m, misread, rfl⟩ := Option.map_eq_some_iff.1 failed
  obtain ⟨before, place⟩ := Run.place_stop o source
  have read := Run.read_stop_of_failed misread
  have splits := Lexeme.splits_of_failed read
  obtain ⟨rest, divided, halts⟩ := Lexeme.halts_of_failed read
  rw [← place.drop_eq, divided] at place
  rw [Diagnostic.EndsInBreak, Misreading.slice_diagnose rest divided]
  exact Misreading.exact_stop_iff (place.step (splits.seam rest)) halts splits.culprit_ne_nil

theorem stop_of_inEscape (failed : (Run.ofUnits o source).failure = some d)
    (inEscape : d.fault.inEscape = true) : d.stop = d.start.shift (d.slice source).length := by
  obtain ⟨m, rest, rfl, -, divided, -⟩ := Run.exists_failing failed
  rw [Misreading.slice_diagnose rest divided]
  exact if_pos inEscape

end Start

/-- After any calls the position is the exact one of its offset, unless a faulty escape has
    ended with a line break. Then the session stands behind the escape as if all of it were on
    the line that it begins on. -/
theorem exact_position_converse (o : Options) (source : List CodeUnit) (calls : List Call) :
    let talk := (start o source).converse calls
    (talk.last.position.Exact source ↔ ¬ ∃ d, .failure d ∈ talk.delivered ∧ d.EndsInBreak source)
      ∧ ∀ d, .failure d ∈ talk.delivered → d.EndsInBreak source →
          d.start.Exact source ∧ talk.last.position = d.start.shift (d.slice source).length := by
  intro talk
  have leads : Leads (start o source) talk.delivered talk.takenOut talk.last :=
    (start o source).leads_converse calls
  refine ⟨?_, fun d member ends => ?_⟩
  · by_cases failed : ∃ d, .failure d ∈ talk.delivered
    · obtain ⟨d, member⟩ := failed
      have only : ∀ other, .failure other ∈ talk.delivered → other = d := fun other otherMember =>
        Option.some.inj ((failure_of_delivered otherMember).symm.trans (failure_of_delivered member))
      rw [position_of_failure member, exact_stop_of_failure (failure_of_delivered member), not_iff_not]
      refine ⟨fun ends => ⟨d, member, ends⟩, ?_⟩
      rintro ⟨other, otherMember, ends⟩
      rwa [only other otherMember] at ends
    · have faultless : ∀ d, .failure d ∉ talk.delivered := not_exists.1 failed
      obtain ⟨before, place⟩ := leads.atPlace ⟨_, place_start o source⟩ faultless
      exact ⟨fun _ ⟨d, member, _⟩ => faultless d member, fun _ => place.exact⟩
  · have failed := failure_of_delivered member
    refine ⟨Run.exact_of_failure failed, (position_of_failure member).trans ?_⟩
    exact stop_of_inEscape failed ends.1

/-- A hexadecimal escape that lacks its second digit takes the line feed there. The session
    stands behind the line feed, but still on the first line. -/
theorem exact_position_converse_lineFeed :
    let source := spellingUnits "\"\\x1\n"
    let talk := (start { version := .lua52 } source).converse [.next]
    let d : Diagnostic := ⟨.hexDigitExpected, ⟨1, 0, 1⟩, ⟨1, 0, 5⟩, "\\x1\n", none⟩
    (.failure d ∈ talk.delivered ∧ d.EndsInBreak source)
      ∧ ¬ talk.last.position.Exact source ∧ talk.last.position = ⟨1, 0, 5⟩ := by
  intro source talk d
  have member : .failure d ∈ talk.delivered := by decide +kernel
  have ends : d.EndsInBreak source := ⟨rfl, 0x0A, by decide, by decide⟩
  obtain ⟨exact_iff, inBreak⟩ := exact_position_converse { version := .lua52 } source [.next]
  refine ⟨⟨member, ends⟩, fun exact => exact_iff.1 exact ⟨d, member, ends⟩, ?_⟩
  exact (inBreak d member ends).2

/-- So the position is not exact in all states of all sessions. -/
theorem not_forall_exact_position :
    ¬ ∀ (o : Options) (source : List CodeUnit) (calls : List Call),
      ((start o source).converse calls).last.position.Exact source := by
  intro always
  have exact := (always { version := .lua52 } (spellingUnits "\"\\x1\n") [.next]).eq_positionAt
  revert exact
  decide +kernel

end Session

end LuaTokens
