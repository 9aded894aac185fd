import LuaTokens.Proofs.Scanner.Motion
import LuaTokens.Proofs.Text.Follow

/-! # Scanning runs

The loops over line breaks, white space and units of one class. Each of them takes as
much as there is and then stands where the run ends.
-/

namespace LuaTokens

namespace Scan

open Scanner

/-- Move over one line break, if one is next. -/
def consumeBreak : Scan Bool := do
  match ← ask Scanner.peek with
  | none => return false
  | some u =>
      if !u.isBreak then return false
      else
        if (← ask (·.peekAt 1)).any fun v => v.isBreak && v != u then advance 1
        advance 1
        startLine
        return true

def advanceWhile (p : CodeUnit → Bool) : Scan Unit :=
  loop (fun _ : Unit => do
    if (← ask Scanner.peek).any p then
      advance 1
      return .inl ()
    else return .inr ()) ()

/-- Move over units of a class and work each of them into a state before passing it. -/
def foldWhile {σ : Type} (p : CodeUnit → Bool) (step : σ → CodeUnit → Scan σ) (state : σ) : Scan σ :=
  loop (fun state => do
    match (← ask Scanner.peek).filter p with
    | none => return .inr state
    | some u =>
        let next ← step state u
        advance 1
        return .inl next) state

def skipSpace : Scan Unit :=
  loop (fun _ : Unit => do
    match ← ask Scanner.peek with
    | none => return .inr ()
    | some u =>
        if u.isBlank then
          advance 1
          return .inl ()
        else if ← consumeBreak then return .inl ()
        else return .inr ()) ()

section Break

variable {s : Scanner}

theorem consumeBreak_stops (h : Stops CodeUnit.isBreak s.ahead) :
    consumeBreak.Returns s fun moved after => moved = false ∧ after = s := by
  apply ensures_ask_bind
  rw [peek_eq]
  cases first : s.ahead.head? with
  | none => exact ensures_pure ⟨rfl, rfl⟩
  | some u =>
      simp only [h u first, Bool.not_false, if_true]
      exact ensures_pure ⟨rfl, rfl⟩

theorem moved_of_breakLine {after : Scanner} {width : Nat}
    (position : after.position = s.position.breakLine width) (units : after.units = s.units)
    (comments : after.comments = s.comments)
    (broken : s.position.advance (s.ahead.take width) = s.position.breakLine width) :
    Moved s (s.ahead.take width) after := by
  refine ⟨position.trans broken.symm, ?_, units, comments⟩
  have ahead : after.ahead = s.ahead.drop width := by
    rw [Scanner.ahead, Scanner.ahead, units, position, List.drop_drop]
    rfl
  rw [ahead, List.take_append_drop]

theorem breakLine_returns {middle : Scanner} {count : Nat} (shifted : Shifted s count middle)
    (fits : 1 ≤ middle.remaining)
    (broken : s.position.advance (s.ahead.take (count + 1)) = s.position.breakLine (count + 1)) :
    (do advance 1; startLine; return true : Scan Bool).Returns middle fun moved after =>
      moved = true ∧ Moved s (s.ahead.take (count + 1)) after := by
  apply Returns.bind (returns_advance fits)
  intro _ last step
  have whole := shifted.trans step
  refine ⟨rfl, moved_of_breakLine ?_ whole.units whole.comments broken⟩
  simp only [whole.position]
  rfl

theorem consumeBreak_moves {u : CodeUnit} {rest : List CodeUnit} (ahead : s.ahead = u :: rest)
    (broken : u.isBreak = true) :
    consumeBreak.Returns s fun moved after => moved = true
      ∧ Moved s (s.ahead.take (CodeUnit.breakWidth s.ahead)) after := by
  have length := s.length_ahead
  rw [ahead, List.length_cons] at length
  apply ensures_ask_bind
  rw [peek_eq, ahead]
  simp only [List.head?_cons, broken, Bool.not_true, Bool.false_eq_true, if_false]
  apply ensures_ask_bind
  rw [peekAt_eq, ahead]
  cases rest with
  | nil =>
      have width : CodeUnit.breakWidth [u] = 0 + 1 := by simp [CodeUnit.breakWidth, broken]
      simp only [List.getElem?_cons_succ, List.getElem?_nil, Option.any_none, Bool.false_eq_true,
        if_false]
      rw [width, ← ahead]
      exact breakLine_returns (Shifted.refl s) (by omega) (by simp [ahead, Position.advance, broken])
  | cons v tail =>
      simp only [List.getElem?_cons_succ, List.getElem?_cons_zero, Option.any_some]
      by_cases paired : (v.isBreak && v != u) = true
      · have width : CodeUnit.breakWidth (u :: v :: tail) = 1 + 1 := by
          simp [CodeUnit.breakWidth, broken, paired]
        rw [if_pos paired, width, ← ahead]
        apply Returns.bind (returns_advance (by omega))
        intro _ middle shifted
        have fits : 1 ≤ middle.remaining := by
          rw [← length_ahead, shifted.ahead, ahead]
          simp
        exact breakLine_returns shifted fits (by simp [ahead, Position.advance, broken, paired])
      · have width : CodeUnit.breakWidth (u :: v :: tail) = 0 + 1 := by
          simp [CodeUnit.breakWidth, broken, paired]
        rw [if_neg paired, width, ← ahead]
        exact breakLine_returns (Shifted.refl s) (by omega)
          (by simp [ahead, Position.advance, broken])

end Break

section Runs

variable {s : Scanner}

theorem takeWhile_of_moved {p : CodeUnit → Bool} {after : Scanner} {text : List CodeUnit}
    (moved : Moved s text after) (all : ∀ u ∈ text, p u = true) (stops : Stops p after.ahead) :
    s.ahead.takeWhile p = text := by
  rw [moved.ahead, stops.takeWhile_append all]

theorem stops_of_head?_any {p : CodeUnit → Bool} {rest : List CodeUnit}
    (h : ¬ rest.head?.any p = true) : Stops p rest := by
  intro u first
  rw [show rest.head? = some u from first] at h
  simpa using h

theorem forall_mem_append {p : CodeUnit → Bool} {text more : List CodeUnit}
    (all : ∀ v ∈ text, p v = true) (others : ∀ v ∈ more, p v = true) :
    ∀ v ∈ text ++ more, p v = true := by
  intro v member
  rcases List.mem_append.1 member with early | late
  · exact all v early
  · exact others v late

theorem returns_advanceWhile {p : CodeUnit → Bool} (unbroken : ∀ u, p u = true → u.isBreak = false)
    (s : Scanner) : (advanceWhile p).Returns s fun _ after =>
      Moved s (s.ahead.takeWhile p) after := by
  apply ensures_loop fun _ now => ∃ text, Moved s text now ∧ ∀ u ∈ text, p u = true
  · rintro _ now ⟨text, moved, all⟩
    apply ensures_ask_bind
    rw [peek_eq]
    split
    next more =>
      obtain ⟨u, first, inClass⟩ := Option.any_eq_true _ _ |>.1 more
      obtain ⟨rest, ahead⟩ := List.head?_eq_some_iff.1 first
      apply Returns.bind (returns_advance_unit ahead (unbroken u inClass))
      rintro _ after ⟨step, -⟩
      exact ⟨⟨text ++ [u], moved.concat step (unbroken u inClass),
        forall_mem_append all (by simpa using inClass)⟩, step.remaining_lt (List.cons_ne_nil _ _)⟩
    next done =>
      apply ensures_pure
      rw [takeWhile_of_moved moved all (stops_of_head?_any done)]
      exact moved
  · exact ⟨[], Moved.refl s, by simp⟩

theorem stops_of_head?_filter {p : CodeUnit → Bool} {rest : List CodeUnit}
    (h : rest.head?.filter p = none) : Stops p rest := by
  intro u first
  rw [show rest.head? = some u from first] at h
  simpa using h

theorem returns_foldWhile {σ : Type} {p : CodeUnit → Bool} {step : σ → CodeUnit → Scan σ}
    {f : σ → CodeUnit → σ} (unbroken : ∀ u, p u = true → u.isBreak = false)
    (spec : ∀ state u s, p u = true →
      (step state u).Returns s fun next after => next = f state u ∧ after = s)
    (first : σ) (s : Scanner) :
    (foldWhile p step first).Returns s fun last after =>
      last = (s.ahead.takeWhile p).foldl f first ∧ Moved s (s.ahead.takeWhile p) after := by
  apply ensures_loop fun state now => ∃ text, Moved s text now ∧ (∀ u ∈ text, p u = true)
    ∧ state = text.foldl f first
  · rintro _ now ⟨text, moved, all, rfl⟩
    apply ensures_ask_bind
    rw [peek_eq]
    cases next : now.ahead.head?.filter p with
    | none =>
        apply ensures_pure
        rw [takeWhile_of_moved moved all (stops_of_head?_filter next)]
        exact ⟨rfl, moved⟩
    | some u =>
        obtain ⟨head, inClass⟩ := Option.filter_eq_some_iff.1 next
        obtain ⟨rest, ahead⟩ := List.head?_eq_some_iff.1 head
        apply Returns.bind (spec _ u now inClass)
        rintro _ _ ⟨rfl, rfl⟩
        apply Returns.bind (returns_advance_unit ahead (unbroken u inClass))
        rintro _ after ⟨step, -⟩
        refine ⟨⟨text ++ [u], moved.concat step (unbroken u inClass),
          forall_mem_append all (by simpa using inClass), ?_⟩, step.remaining_lt (List.cons_ne_nil _ _)⟩
        rw [List.foldl_append]
        rfl
  · exact ⟨[], Moved.refl s, by simp, rfl⟩

theorem consumeBreak_takes (s : Scanner) : consumeBreak.Returns s fun stepped after =>
    Moved s (s.ahead.take (CodeUnit.breakWidth s.ahead)) after
      ∧ if stepped then s.ahead.take (CodeUnit.breakWidth s.ahead) ≠ []
        else after = s ∧ Stops CodeUnit.isBreak s.ahead := by
  cases ahead : s.ahead with
  | nil =>
      refine (consumeBreak_stops (by rw [ahead]; exact Stops.nil)).mono ?_
      rintro _ _ ⟨rfl, rfl⟩
      exact ⟨Moved.refl _, rfl, Stops.nil⟩
  | cons u rest =>
      cases broken : u.isBreak with
      | true =>
          refine (consumeBreak_moves ahead broken).mono ?_
          rintro _ after ⟨rfl, moved⟩
          have positive := CodeUnit.breakWidth_pos broken rest
          rw [ahead] at moved
          refine ⟨moved, ?_⟩
          simp only [if_true, ne_eq, List.take_eq_nil_iff, reduceCtorEq, or_false]
          omega
      | false =>
          have stops : Stops CodeUnit.isBreak (u :: rest) := by
            intro v first
            cases first
            exact broken
          refine (consumeBreak_stops (by rwa [ahead])).mono ?_
          rintro _ _ ⟨rfl, rfl⟩
          rw [CodeUnit.breakWidth_of_unbroken broken]
          exact ⟨Moved.refl _, rfl, stops⟩

theorem returns_consumeBreak (s : Scanner) : consumeBreak.Returns s fun stepped after =>
    let text := s.ahead.take (CodeUnit.breakWidth s.ahead)
    Moved s text after ∧ Seam text after.ahead
      ∧ if stepped then text ≠ [] else after = s ∧ Stops CodeUnit.isBreak s.ahead := by
  refine (consumeBreak_takes s).mono ?_
  rintro stepped after ⟨moved, found⟩
  refine ⟨moved, ?_, found⟩
  rw [moved.rest_eq (List.take_append_drop _ s.ahead).symm]
  exact seam_take_breakWidth s.ahead

theorem returns_skipSpace (s : Scanner) : skipSpace.Returns s fun _ after =>
    Moved s (s.ahead.takeWhile CodeUnit.isSpace) after := by
  apply ensures_loop fun _ now => ∃ text, Moved s text now ∧ (∀ u ∈ text, u.isSpace = true)
    ∧ Seam text now.ahead
  · rintro _ now ⟨text, moved, all, seam⟩
    apply ensures_ask_bind
    rw [peek_eq]
    cases ahead : now.ahead with
    | nil =>
        apply ensures_pure
        rw [takeWhile_of_moved moved all (by rw [ahead]; exact Stops.nil)]
        exact moved
    | cons u rest =>
        simp only [List.head?_cons]
        split
        next blank =>
          have unbroken : u.isBreak = false := CodeUnit.isBreak_of_isBlank blank
          have single : ∀ v ∈ [u], v.isBreak = false := by simpa using unbroken
          have space : ∀ v ∈ [u], v.isSpace = true := by simp [CodeUnit.isSpace, blank]
          apply Returns.bind (returns_advance_unit ahead unbroken)
          rintro _ after ⟨step, -⟩
          rw [step.ahead] at seam
          exact ⟨⟨text ++ [u], moved.concat step unbroken, forall_mem_append all space,
            seam.append (Seam.of_forall single _)⟩, step.remaining_lt (List.cons_ne_nil _ _)⟩
        next solid =>
          apply Returns.bind (returns_consumeBreak now)
          rintro stepped after ⟨step, inner, found⟩
          cases stepped with
          | true =>
              have spaces := isBreak_take_breakWidth now.ahead
              rw [step.ahead] at seam
              exact ⟨⟨_, moved.trans step seam.of_append,
                forall_mem_append all fun v member => CodeUnit.isSpace_of_isBreak (spaces v member),
                seam.append inner⟩, step.remaining_lt found⟩
          | false =>
              obtain ⟨rfl, unbroken⟩ := found
              have stops : Stops CodeUnit.isSpace after.ahead := by
                rw [ahead] at unbroken ⊢
                rintro v ⟨⟩
                simp [CodeUnit.isSpace, unbroken u rfl, solid]
              apply ensures_pure
              rw [takeWhile_of_moved moved all stops]
              exact moved
  · exact ⟨[], Moved.refl s, by simp, Seam.nil_left _⟩

end Runs

end Scan

end LuaTokens
