import LuaTokens.Proofs.Lexeme.LongBracket
import LuaTokens.Proofs.Scanner.Run

/-! # Scanning long brackets

The scanner looks for the closing bracket unit by unit, over line breaks in one step
each. It finds what reading the bracket finds, or goes to the end of the buffer.
-/

namespace LuaTokens

namespace Scanner

/-- The number of equals signs behind the unit at the scanner, of which `level` have been
    seen. -/
def signsFrom (s : Scanner) (level : Nat) : Nat :=
  if _h : s.isAt (1 + level) '=' = true then s.signsFrom (level + 1) else level
termination_by s.remaining - level
decreasing_by
  simp only [isAt, peekAt, decide_eq_true_eq, List.getElem?_eq_some_iff] at _h
  obtain ⟨inside, _⟩ := _h
  simp only [remaining]
  omega

/-- Whether the bracket at the scanner closes one of the level. -/
def closesBracket (s : Scanner) (level : Nat) : Bool :=
  (List.range' 1 level).all (s.isAt · '=') && s.isAt (level + 1) ']'

end Scanner

namespace Scan

open Scanner

/-- Look for the bracket that closes one of the level, from the place of a body. -/
def bracketEnd (chunk : Option String) (reason : Fault) (opening : Position) (level : Nat) :
    Scan Nat :=
  loop (fun _ : Unit => do
    if ← consumeBreak then return .inl ()
    else if (← ask Scanner.peek).isNone then fail chunk reason opening
    else if ← ask fun s => s.isAt 0 ']' && s.closesBracket level then
      let last ← ask (·.position.offset)
      advance (level + 2)
      return .inr last
    else
      advance 1
      return .inl ()) ()

/-- Move over a long bracket and return the range of its body, or do nothing where none
    opens. -/
def longBracket (chunk : Option String) (reason : Fault) : Scan (Option (Nat × Nat)) := do
  let opening ← ask Scanner.position
  let level ← ask (·.signsFrom 0)
  if ← ask (·.isAt (1 + level) '[') then
    advance (level + 2)
    let _ ← consumeBreak
    let first ← ask (·.position.offset)
    let last ← bracketEnd chunk reason opening level
    return some (first, last)
  else return none

end Scan

theorem cons_prefix_drop_iff {u : CodeUnit} {pattern input : List CodeUnit} {k : Nat} :
    u :: pattern <+: input.drop k ↔ input[k]? = some u ∧ pattern <+: input.drop (k + 1) := by
  rw [← List.head?_drop, ← List.tail_drop]
  cases input.drop k with
  | nil => simp
  | cons v tail => simp [List.cons_prefix_cons, eq_comm]

namespace Scanner

theorem signsFrom_eq (s : Scanner) (level : Nat) :
    s.signsFrom level = level + (LongBracket.equalsSigns (s.ahead.drop (1 + level))).length := by
  fun_induction signsFrom s level with
  | case1 level sign ih =>
      rw [isAt_eq, decide_eq_true_eq, ← List.head?_drop] at sign
      obtain ⟨tail, divided⟩ := List.head?_eq_some_iff.1 sign
      have later : s.ahead.drop (1 + (level + 1)) = tail := by
        rw [← Nat.add_assoc, ← List.tail_drop, divided, List.tail_cons]
      rw [ih, later, divided]
      simp only [LongBracket.equalsSigns, List.takeWhile_cons, beq_self_eq_true, if_true,
        List.length_cons]
      omega
  | case2 level other =>
      rw [isAt_eq, decide_eq_true_eq, ← List.head?_drop] at other
      have none : LongBracket.equalsSigns (s.ahead.drop (1 + level)) = [] := by
        apply Stops.takeWhile_eq_nil
        intro u first
        rw [show (s.ahead.drop (1 + level)).head? = some u from first] at other
        simpa using other
      rw [none]
      rfl

theorem closes_iff (s : Scanner) (k level : Nat) :
    ((List.range' k level).all (s.isAt · '=') && s.isAt (k + level) ']') = true
      ↔ List.replicate level (.of '=') ++ [.of ']'] <+: s.ahead.drop k := by
  induction level generalizing k with
  | zero =>
      simp only [List.range'_zero, List.all_nil, Bool.true_and, Nat.add_zero, List.replicate_zero,
        List.nil_append, isAt_eq, decide_eq_true_eq, cons_prefix_drop_iff, List.nil_prefix, and_true]
  | succ level ih =>
      have later := ih (k + 1)
      rw [show k + 1 + level = k + (level + 1) by omega] at later
      rw [List.range'_succ, List.all_cons, Bool.and_assoc, Bool.and_eq_true, later,
        List.replicate_succ, List.cons_append, cons_prefix_drop_iff, isAt_eq, decide_eq_true_eq]

theorem closesBracket_iff (s : Scanner) (level : Nat) :
    (s.isAt 0 ']' && s.closesBracket level) = true ↔ LongBracket.closer level <+: s.ahead := by
  have inner := closes_iff s 1 level
  rw [Nat.add_comm 1 level] at inner
  have whole : LongBracket.closer level <+: s.ahead.drop 0 ↔ _ := cons_prefix_drop_iff
  rw [List.drop_zero] at whole
  rw [Bool.and_eq_true, closesBracket, inner, isAt_eq, decide_eq_true_eq]
  exact whole.symm

end Scanner

namespace Scan

open Scanner

/-- A pattern that stands nowhere within what was gone through, nor where the next text
    begins or within it, stands nowhere within both. -/
theorem missing_append {pattern body more : List CodeUnit} {s now : Scanner} (moved : Moved s body now)
    (missing : ∀ k < body.length, ¬ pattern <+: s.ahead.drop k)
    (later : ∀ k < more.length, ¬ pattern <+: now.ahead.drop k) :
    ∀ k < (body ++ more).length, ¬ pattern <+: s.ahead.drop k := by
  intro k below
  by_cases early : k < body.length
  · exact missing k early
  · obtain ⟨j, rfl⟩ := Nat.exists_eq_add_of_le (Nat.le_of_not_lt early)
    rw [List.length_append] at below
    rw [moved.ahead, List.drop_append, List.drop_of_length_le (by omega), List.nil_append,
      Nat.add_sub_cancel_left]
    exact later j (by omega)

theorem closer_missing_break (level : Nat) (input : List CodeUnit) :
    ∀ k < (input.take (CodeUnit.breakWidth input)).length,
      ¬ LongBracket.closer level <+: input.drop k := by
  intro k below closes
  have first : input[k]? = some (.of ']') := (cons_prefix_drop_iff.1 closes).1
  have found : (input.take (CodeUnit.breakWidth input))[k]? = some (.of ']') := by
    rw [List.length_take] at below
    rw [List.getElem?_take, if_pos (by omega), first]
  have broken := isBreak_take_breakWidth input _ (List.mem_of_getElem? found)
  revert broken
  decide

theorem isBreak_bracket {edge : CodeUnit} (solid : edge.isBreak = false) (level : Nat) :
    ∀ u ∈ edge :: List.replicate level (.of '=') ++ [edge], u.isBreak = false := by
  intro u member
  simp only [List.cons_append, List.mem_cons, List.mem_append, List.mem_replicate,
    List.not_mem_nil, or_false] at member
  rcases member with rfl | ⟨-, rfl⟩ | rfl
  · exact solid
  · decide
  · exact solid

theorem isBreak_opener (level : Nat) : ∀ u ∈ LongBracket.opener level, u.isBreak = false :=
  isBreak_bracket (by decide) level

theorem isBreak_closer (level : Nat) : ∀ u ∈ LongBracket.closer level, u.isBreak = false :=
  isBreak_bracket (by decide) level

theorem ensures_bracketEnd {s opening : Scanner} {chunk : Option String} {reason : Fault} {level : Nat}
    (units : s.units = opening.units) (le : opening.position.offset ≤ s.position.offset) :
    (bracketEnd chunk reason opening.position level).Ensures s
      (fun last after => ∃ body stop, Moved s body stop ∧ Moved stop (LongBracket.closer level) after
        ∧ last = stop.position.offset ∧ Seam body stop.ahead
        ∧ LongBracket.offsetOf? (LongBracket.closer level) s.ahead = some body.length)
      (fun d after => Moved s s.ahead after ∧ d = diagnostic chunk reason opening after
        ∧ LongBracket.offsetOf? (LongBracket.closer level) s.ahead = none) := by
  apply ensures_loop fun _ now => ∃ body, Moved s body now ∧ Seam body now.ahead
    ∧ ∀ k < body.length, ¬ LongBracket.closer level <+: s.ahead.drop k
  · rintro _ now ⟨body, moved, seam, missing⟩
    apply Returns.bind (returns_consumeBreak now)
    rintro stepped after ⟨step, inner, found⟩
    cases stepped with
    | true =>
        have absent := missing_append moved missing (closer_missing_break level now.ahead)
        rw [step.ahead] at seam
        exact ⟨⟨_, moved.trans step seam.of_append, seam.append inner, absent⟩,
          step.remaining_lt found⟩
    | false =>
        obtain ⟨rfl, stops⟩ := found
        apply ensures_ask_bind
        rw [peek_eq]
        cases ahead : after.ahead with
        | nil =>
            have whole : s.ahead = body := by rw [moved.ahead, ahead, List.append_nil]
            apply ensures_fail (moved.units.trans units) (Nat.le_trans le moved.offset_le)
            rw [whole]
            exact ⟨moved, rfl, LongBracket.offsetOf?_eq_none (by rwa [whole] at missing)⟩
        | cons u rest =>
            have unbroken : u.isBreak = false := stops u (by rw [ahead]; rfl)
            apply ensures_ask_bind
            split
            next closes =>
              rw [closesBracket_iff] at closes
              obtain ⟨rest, divided⟩ := closes
              apply ensures_ask_bind
              apply Returns.bind (returns_advance_over divided.symm (LongBracket.length_closer level)
                (isBreak_closer level))
              intro _ last step
              refine ⟨body, after, moved, step, rfl, seam, ?_⟩
              apply LongBracket.offsetOf?_eq_some (List.cons_ne_nil _ _) missing
              rw [moved.ahead, List.drop_left]
              exact ⟨rest, divided⟩
            next unclosed =>
              rw [closesBracket_iff] at unclosed
              have single : ∀ v ∈ [u], v.isBreak = false := by simpa using unbroken
              apply Returns.bind (returns_advance_unit ahead unbroken)
              rintro _ last ⟨step, -⟩
              rw [step.ahead] at seam
              refine ⟨⟨body ++ [u], moved.concat step unbroken,
                seam.append (Seam.of_forall single _), ?_⟩, step.remaining_lt (List.cons_ne_nil _ _)⟩
              apply missing_append moved missing
              intro k below
              obtain rfl : k = 0 := by simpa using below
              exact unclosed
  · exact ⟨[], Moved.refl s, Seam.nil_left _, by simp⟩

theorem read_closedText {level : Nat} {lead body rest : List CodeUnit}
    (width : CodeUnit.breakWidth (lead ++ (body ++ (LongBracket.closer level ++ rest))) = lead.length)
    (found : LongBracket.offsetOf? (LongBracket.closer level) (body ++ (LongBracket.closer level ++ rest))
      = some body.length) :
    LongBracket.read (LongBracket.closedText level lead body ++ rest)
      = .closed ⟨body, LongBracket.closedText level lead body, rest⟩ := by
  have closed : LongBracket.IsClosed level lead body := by
    constructor
    · rw [← width]
      have long : 2 ≤ (lead ++ (body ++ LongBracket.closer level)).length := by
        simp only [List.length_append, LongBracket.length_closer]
        omega
      rw [← CodeUnit.breakWidth_append long rest]
      simp only [List.append_assoc]
    · rw [← List.append_assoc] at found
      have alone := LongBracket.offsetOf?_append found (by simp) (List.cons_ne_nil _ _) []
      rwa [List.append_nil] at alone
  exact closed.read_append rest

theorem isAt_opener {s : Scanner} {rest : List CodeUnit} (ahead : s.ahead = .of '[' :: rest) :
    s.isAt (1 + s.signsFrom 0) '['
      = decide (LongBracket.level? s.ahead = some (s.signsFrom 0)) := by
  have signs : s.signsFrom 0 = (LongBracket.equalsSigns rest).length := by
    rw [signsFrom_eq, ahead, Nat.zero_add]
    rfl
  rw [isAt_eq, signs, ahead, Nat.add_comm 1, List.getElem?_cons_succ, ← List.head?_drop]
  simp [LongBracket.level?]

theorem level?_eq_none {s : Scanner} {rest : List CodeUnit} (ahead : s.ahead = .of '[' :: rest)
    (absent : LongBracket.level? s.ahead ≠ some (s.signsFrom 0)) : LongBracket.level? s.ahead = none := by
  rw [signsFrom_eq, Nat.zero_add] at absent
  rw [ahead] at absent ⊢
  unfold LongBracket.level? at absent ⊢
  simp only at absent ⊢
  split
  next opens =>
    rw [if_pos opens] at absent
    exact absurd rfl absent
  · rfl

theorem ensures_longBracket {s : Scanner} {rest : List CodeUnit} (ahead : s.ahead = .of '[' :: rest)
    (chunk : Option String) (reason : Fault) :
    (longBracket chunk reason).Ensures s
      (fun range? after => match range? with
        | none => LongBracket.read s.ahead = .absent ∧ after = s
        | some (first, last) => ∃ body text,
            LongBracket.read s.ahead = .closed ⟨body, text, after.ahead⟩ ∧ Moved s text after
              ∧ Spans s first last body)
      (fun d after => LongBracket.read s.ahead = .unclosed ∧ Moved s s.ahead after
        ∧ d = diagnostic chunk reason s after) := by
  apply ensures_ask_bind
  apply ensures_ask_bind
  apply ensures_ask_bind
  rw [isAt_opener ahead]
  have absent := level?_eq_none ahead
  generalize s.signsFrom 0 = level at absent ⊢
  split
  next opened =>
    rw [decide_eq_true_eq] at opened
    have divided := LongBracket.opener_append_of_level? opened
    apply Returns.bind (returns_advance_over divided.symm (LongBracket.length_opener level)
      (isBreak_opener level))
    intro _ inside step
    apply Returns.bind (returns_consumeBreak inside)
    rintro _ start ⟨broke, leadSeam, -⟩
    apply ensures_ask_bind
    have units : start.units = s.units := broke.units.trans step.units
    have le := Nat.le_trans step.offset_le broke.offset_le
    have openedAhead : inside.ahead = s.ahead.drop (level + 2) := step.rest_eq divided.symm
    have startAhead := broke.rest_eq (List.take_append_drop _ inside.ahead).symm
    refine ensures_bind (ensures_bracketEnd units le) ?_ ?_
    · rintro d after ⟨inner, rfl, missing⟩
      have whole := step.trans (broke.trans inner leadSeam) (Seam.of_forall (isBreak_opener level) _)
      rw [← broke.ahead, ← step.ahead] at whole
      refine ⟨?_, whole, rfl⟩
      rw [LongBracket.read, opened]
      simp only
      rw [← List.drop_drop, ← openedAhead, ← startAhead, missing]
    · rintro last after ⟨body, stop, inner, closed, rfl, seam, found⟩
      rw [closed.ahead] at seam
      rw [inner.ahead] at leadSeam
      rw [inner.ahead, closed.ahead] at found
      have whole := step.trans (broke.trans (inner.trans closed seam.of_append)
        (by rw [closed.ahead, ← List.append_assoc] at leadSeam; exact leadSeam.of_append))
        (Seam.of_forall (isBreak_opener level) _)
      refine ⟨body, _, ?_, whole, start, stop, units, inner, rfl, rfl⟩
      rw [whole.ahead]
      apply read_closedText _ found
      rw [← closed.ahead, ← inner.ahead, ← broke.ahead, List.length_take]
      have := CodeUnit.breakWidth_le inside.ahead
      omega
  next other =>
    rw [decide_eq_true_eq] at other
    exact ensures_pure ⟨LongBracket.read_eq_absent_iff.2 (absent other), rfl⟩

end Scan

end LuaTokens
