import LuaTokens.Lexeme.LongBracket
import LuaTokens.Proofs.Text.CodeUnit

/-! # The parts of a long bracket

A closed long bracket is its opener, a line break that may stand there, the body and
the closer, and the closer stands nowhere earlier. These parts decide the reading,
whatever follows them. A text is a body if no closer begins anywhere in it.
-/

namespace LuaTokens

namespace LongBracket

@[simp] theorem length_opener (level : Nat) : (opener level).length = level + 2 := by
  simp [opener]

@[simp] theorem length_closer (level : Nat) : (closer level).length = level + 2 := by
  simp [closer]

theorem closer_ne_nil (level : Nat) : closer level ≠ [] := by
  simp [closer]

theorem isBreak_opener (level : Nat) : ∀ u ∈ opener level, u.isBreak = false := by
  intro u member
  simp only [opener, List.cons_append, List.mem_cons, List.mem_append, List.mem_replicate,
    List.not_mem_nil, or_false] at member
  rcases member with rfl | ⟨-, rfl⟩ | rfl <;> decide

theorem isBreak_closer (level : Nat) : ∀ u ∈ closer level, u.isBreak = false := by
  intro u member
  simp only [closer, List.cons_append, List.mem_cons, List.mem_append, List.mem_replicate,
    List.not_mem_nil, or_false] at member
  rcases member with rfl | ⟨-, rfl⟩ | rfl <;> decide

theorem level?_opener_append (level : Nat) (opened : List CodeUnit) :
    level? (opener level ++ opened) = some level := by
  have signs : equalsSigns (List.replicate level (.of '=') ++ .of '[' :: opened)
      = List.replicate level (.of '=') := by
    rw [equalsSigns, List.takeWhile_append_of_pos (by simp)]
    simp [show (CodeUnit.of '[' == CodeUnit.of '=') = false from by decide]
  simp only [opener, level?, List.cons_append, List.append_assoc, List.nil_append]
  simp [signs]

theorem read_eq_absent_iff {input : List CodeUnit} : read input = .absent ↔ level? input = none := by
  constructor
  · intro h
    unfold read at h
    split at h
    next absent => exact absent
    · simp only at h
      split at h <;> cases h
  · intro absent
    rw [read, absent]

theorem level?_eq_some_iff {input : List CodeUnit} {level : Nat} :
    level? input = some level ↔ ∃ opened, input = opener level ++ opened := by
  constructor
  · intro h
    exact ⟨_, (opener_append_of_level? h).symm⟩
  · rintro ⟨opened, rfl⟩
    exact level?_opener_append level opened

theorem read_eq_absent_iff_unopened {input : List CodeUnit} :
    read input = .absent ↔ ∀ level, ¬ opener level <+: input := by
  rw [read_eq_absent_iff, Option.eq_none_iff_forall_ne_some]
  refine forall_congr' fun level => not_congr ?_
  rw [level?_eq_some_iff]
  exact exists_congr fun opened => eq_comm

section Occurrence

variable {pattern : List CodeUnit}

theorem prefix_of_offsetOf? {input : List CodeUnit} {k : Nat}
    (h : offsetOf? pattern input = some k) : pattern <+: input.drop k := by
  induction input generalizing k with
  | nil => cases h
  | cons u rest ih =>
      unfold offsetOf? at h
      split at h
      next here =>
        cases h
        exact List.isPrefixOf_iff_prefix.1 here
      next =>
        obtain ⟨j, found, rfl⟩ := Option.map_eq_some_iff.1 h
        exact ih found

theorem not_prefix_of_offsetOf? {input : List CodeUnit} {n : Nat}
    (h : offsetOf? pattern input = some n) : ∀ k < n, ¬ pattern <+: input.drop k := by
  induction input generalizing n with
  | nil => cases h
  | cons u rest ih =>
      unfold offsetOf? at h
      split at h
      next here =>
        cases h
        simp
      next absent =>
        obtain ⟨j, found, rfl⟩ := Option.map_eq_some_iff.1 h
        intro k earlier fits
        cases k with
        | zero => exact absent (List.isPrefixOf_iff_prefix.2 fits)
        | succ k => exact ih found k (Nat.lt_of_succ_lt_succ earlier) fits

theorem offsetOf?_eq_some {input : List CodeUnit} {n : Nat} (nonempty : pattern ≠ [])
    (missing : ∀ k < n, ¬ pattern <+: input.drop k) (fits : pattern <+: input.drop n) :
    offsetOf? pattern input = some n := by
  induction input generalizing n with
  | nil =>
      rw [List.drop_nil, List.prefix_nil] at fits
      exact absurd fits nonempty
  | cons u rest ih =>
      cases n with
      | zero =>
          rw [offsetOf?, if_pos]
          exact List.isPrefixOf_iff_prefix.2 fits
      | succ n =>
          have first : ¬ pattern <+: u :: rest := missing 0 (Nat.succ_pos n)
          have later := ih (fun k below => missing (k + 1) (Nat.succ_lt_succ below)) fits
          rw [offsetOf?, if_neg (fun found => first (List.isPrefixOf_iff_prefix.1 found)), later]
          rfl

theorem offsetOf?_eq_none {input : List CodeUnit}
    (missing : ∀ k < input.length, ¬ pattern <+: input.drop k) : offsetOf? pattern input = none := by
  induction input with
  | nil => rfl
  | cons u rest ih =>
      have first : ¬ pattern <+: u :: rest := missing 0 (Nat.succ_pos _)
      have later := ih fun k below => missing (k + 1) (Nat.succ_lt_succ below)
      rw [offsetOf?, if_neg (fun found => first (List.isPrefixOf_iff_prefix.1 found)), later]
      rfl

theorem offsetOf?_append {text rest : List CodeUnit} {k : Nat}
    (h : offsetOf? pattern (text ++ rest) = some k) (within : k + pattern.length ≤ text.length)
    (nonempty : pattern ≠ []) (other : List CodeUnit) :
    offsetOf? pattern (text ++ other) = some k := by
  induction text generalizing k with
  | nil =>
      have := List.length_pos_iff.2 nonempty
      simp only [List.length_nil] at within
      omega
  | cons u tail ih =>
      simp only [List.cons_append, offsetOf?] at h ⊢
      split at h
      next here =>
        cases h
        have inside : pattern <+: u :: tail :=
          List.prefix_of_prefix_length_le (List.isPrefixOf_iff_prefix.1 here)
            (List.prefix_append (u :: tail) rest) (by simpa using within)
        exact if_pos (List.isPrefixOf_iff_prefix.2 (inside.trans (List.prefix_append _ other)))
      next absent =>
        obtain ⟨j, found, rfl⟩ := Option.map_eq_some_iff.1 h
        have absentNow : ¬ pattern.isPrefixOf (u :: (tail ++ other)) = true := by
          intro here
          have inside : pattern <+: u :: tail :=
            List.prefix_of_prefix_length_le (List.isPrefixOf_iff_prefix.1 here)
              (List.prefix_append (u :: tail) other)
              (by simp only [List.length_cons] at within ⊢; omega)
          exact absent (List.isPrefixOf_iff_prefix.2 (inside.trans (List.prefix_append _ rest)))
        rw [if_neg absentNow, ih found (by simp only [List.length_cons] at within; omega)]
        rfl

end Occurrence

/-- The opener, the line break behind it if there is one, the body and the closer. -/
def closedText (level : Nat) (lead body : List CodeUnit) : List CodeUnit :=
  opener level ++ (lead ++ (body ++ closer level))

/-- The line break is all that belongs to it, and the closer stands nowhere earlier. -/
structure IsClosed (level : Nat) (lead body : List CodeUnit) : Prop where
  lead_eq : CodeUnit.breakWidth (lead ++ (body ++ closer level)) = lead.length
  first_closer : offsetOf? (closer level) (body ++ closer level) = some body.length

theorem IsClosed.read_append {level : Nat} {lead body : List CodeUnit}
    (closed : IsClosed level lead body) (rest : List CodeUnit) :
    read (closedText level lead body ++ rest) = .closed ⟨body, closedText level lead body, rest⟩ := by
  have opens : level? (closedText level lead body ++ rest) = some level := by
    simp only [closedText, List.append_assoc]
    exact level?_opener_append _ _
  have width : CodeUnit.breakWidth (lead ++ (body ++ closer level) ++ rest) = lead.length := by
    rw [CodeUnit.breakWidth_append (by simp; omega), closed.lead_eq]
  have first : offsetOf? (closer level) (body ++ closer level ++ rest) = some body.length := by
    have alone : offsetOf? (closer level) (body ++ closer level ++ []) = some body.length := by
      simpa using closed.first_closer
    exact offsetOf?_append alone (by simp) (by simp [closer]) rest
  have opened : (closedText level lead body ++ rest).drop (level + 2)
      = lead ++ (body ++ closer level) ++ rest := by
    simp only [closedText, List.append_assoc]
    exact List.drop_left' (length_opener level)
  have inner : (closedText level lead body ++ rest).drop (level + 2 + lead.length)
      = body ++ closer level ++ rest := by
    rw [← List.drop_drop, opened]
    simp
  have length : (closedText level lead body).length
      = level + 2 + lead.length + body.length + (level + 2) := by
    simp [closedText]
    omega
  simp only [read, opens, opened, width, inner, first, ← length, Cut.ofWidth]
  simp

theorem exists_isClosed_of_read {input : List CodeUnit} {cut : Cut (List CodeUnit)}
    (h : read input = .closed cut) :
    ∃ level lead, IsClosed level lead cut.value ∧ cut.text = closedText level lead cut.value
      ∧ input = cut.text ++ cut.rest := by
  have whole := h
  unfold read at h
  split at h
  · cases h
  next level opens =>
    obtain ⟨opened, rfl⟩ := level?_eq_some_iff.1 opens
    have dropped : (opener level ++ opened).drop (level + 2) = opened :=
      List.drop_left' (length_opener level)
    simp only [dropped] at h
    split at h
    · cases h
    next k found =>
      rw [← List.drop_drop, dropped] at found
      obtain ⟨rest, closes⟩ := prefix_of_offsetOf? found
      generalize leadEq : opened.take (CodeUnit.breakWidth opened) = lead at *
      generalize bodyEq : (opened.drop (CodeUnit.breakWidth opened)).take k = body at *
      have leadLength : lead.length = CodeUnit.breakWidth opened := by
        rw [← leadEq, List.length_take, Nat.min_eq_left (CodeUnit.breakWidth_le opened)]
      have bodyLength : body.length = k := by
        have fits := congrArg List.length closes
        rw [← bodyEq, List.length_take]
        simp only [List.length_append, length_closer, List.length_drop] at fits ⊢
        omega
      have later : opened.drop (CodeUnit.breakWidth opened) = body ++ closer level ++ rest := by
        rw [← bodyEq, List.append_assoc, closes, List.take_append_drop]
      have divided : opened = lead ++ (body ++ closer level) ++ rest := by
        rw [← leadEq, List.append_assoc, ← later, List.take_append_drop]
      have closed : IsClosed level lead body := by
        constructor
        · have long : 2 ≤ (lead ++ (body ++ closer level)).length := by
            simp
            omega
          have same := CodeUnit.breakWidth_append long rest
          rw [← divided] at same
          rw [leadLength, same]
        · rw [later, ← bodyLength] at found
          simpa using offsetOf?_append found (by simp) (by simp [closer]) []
      have input : opener level ++ opened = closedText level lead body ++ rest := by
        simp only [divided, closedText, List.append_assoc]
      rw [input, closed.read_append] at whole
      cases whole
      exact ⟨level, lead, closed, rfl, input⟩

section Bodies

/-- The closing bracket up to its last unit. -/
def closerFront (level : Nat) : List CodeUnit :=
  .of ']' :: List.replicate level (.of '=')

/-- No closer stands in the body, and none begins in it that the closing bracket completes. -/
structure Clear (level : Nat) (body : List CodeUnit) : Prop where
  absent : ¬ closer level <:+: body
  unbegun : ¬ closerFront level <:+ body

variable {level : Nat} {body rest : List CodeUnit}

theorem length_closerFront (level : Nat) : (closerFront level).length = level + 1 := by
  simp [closerFront]

/-- A closer does not begin within another one. -/
theorem not_prefix_drop_closer {k : Nat} (inside : 0 < k) (short : k ≤ level) :
    ¬ (closer level).drop k <+: closer level := by
  intro fits
  obtain ⟨n, rfl⟩ : ∃ n, k = n + 1 := ⟨k - 1, by omega⟩
  obtain ⟨m, rfl⟩ : ∃ m, level = n + (m + 1) := ⟨level - n - 1, by omega⟩
  have signs : (closer (n + (m + 1))).drop (n + 1) = .of '=' :: (List.replicate m (.of '=') ++ [.of ']']) := by
    rw [closer, List.cons_append, List.drop_succ_cons, ← List.replicate_append_replicate, List.append_assoc,
      List.drop_left' List.length_replicate]
    rfl
  rw [signs] at fits
  exact absurd (List.cons_prefix_cons.1 fits).1 (by decide)

theorem clear_iff : Clear level body ↔ ∀ k < body.length, ¬ closer level <+: (body ++ closer level).drop k := by
  constructor
  · intro clear k within fits
    rw [List.drop_append_of_le_length (Nat.le_of_lt within)] at fits
    have nonempty : 0 < (body.drop k).length := by
      rw [List.length_drop]
      omega
    by_cases long : (closer level).length ≤ (body.drop k).length
    · have inside := List.prefix_of_prefix_length_le fits (List.prefix_append _ _) long
      exact clear.absent (inside.isInfix.trans (List.drop_suffix k body).isInfix)
    · obtain ⟨tail, divided⟩ := List.prefix_of_prefix_length_le (List.prefix_append (body.drop k) (closer level))
        fits (by omega)
      rw [length_closer] at long
      by_cases almost : (body.drop k).length = level + 1
      · have front : body.drop k = closerFront level := by
          have fronts := congrArg (List.take (level + 1)) divided
          rwa [List.take_left' almost, closer, ← closerFront, List.take_left' (length_closerFront level)]
            at fronts
        exact clear.unbegun (front ▸ List.drop_suffix k body)
      · have behind : tail = (closer level).drop (body.drop k).length := by
          rw [← divided, List.drop_left]
        rw [← divided, List.prefix_append_right_inj, divided, behind] at fits
        exact not_prefix_drop_closer nonempty (by omega) fits
  · intro missing
    constructor
    · rintro ⟨before, after, rfl⟩
      refine missing before.length ?_ ?_
      · simp only [List.length_append, length_closer]
        omega
      · simp only [List.append_assoc, List.drop_left, List.prefix_append]
    · rintro ⟨before, rfl⟩
      refine missing before.length ?_ ?_
      · rw [List.length_append, length_closerFront]
        omega
      · have completed : closer level = closerFront level ++ [.of ']'] := rfl
        rw [List.append_assoc, List.drop_left]
        nth_rewrite 1 [completed]
        rw [List.prefix_append_right_inj]
        exact List.prefix_append _ _

section Unbroken

variable (unbroken : ∀ u ∈ body.head?, u.isBreak = false)

include unbroken

theorem breakWidth_body (rest : List CodeUnit) : CodeUnit.breakWidth (body ++ (closer level ++ rest)) = 0 := by
  cases body with
  | nil => exact CodeUnit.breakWidth_of_unbroken (by decide) _
  | cons u body => exact CodeUnit.breakWidth_of_unbroken (unbroken u rfl) _

/-- Where no line break follows the opening bracket, a body is closed behind its end exactly if
    it is clear. -/
theorem isClosed_iff : IsClosed level [] body ↔ Clear level body := by
  rw [clear_iff]
  constructor
  · intro closed
    exact not_prefix_of_offsetOf? closed.first_closer
  · intro missing
    refine ⟨?_, offsetOf?_eq_some (closer_ne_nil level) missing ?_⟩
    · simpa using breakWidth_body unbroken []
    · simp only [List.drop_left, List.prefix_rfl]

theorem isClosed_of_read {cut : Cut (List CodeUnit)}
    (closed : read (closedText level [] body ++ rest) = .closed cut) (same : cut.value = body) :
    IsClosed level [] body := by
  obtain ⟨level', lead, isClosed, text, input⟩ := exists_isClosed_of_read closed
  rw [same] at isClosed text
  rw [text] at input
  obtain rfl : level = level' := by
    have opens := congrArg level? input
    simp only [closedText, List.append_assoc, level?_opener_append] at opens
    exact Option.some.inj opens
  simp only [closedText, List.append_assoc, List.append_cancel_left_eq, List.nil_append] at input
  have width : CodeUnit.breakWidth (lead ++ (body ++ (closer level ++ cut.rest))) = lead.length := by
    rw [← isClosed.lead_eq, ← List.append_assoc, ← List.append_assoc, List.append_assoc lead]
    exact CodeUnit.breakWidth_append (by simp; omega) _
  rw [← input, breakWidth_body unbroken] at width
  rwa [List.eq_nil_of_length_eq_zero width.symm] at isClosed

end Unbroken

end Bodies

end LongBracket

end LuaTokens
