import LuaTokens.Proofs.Scanner.Basic

/-! # Motion

What a step does to a scanner: it moves over text that is ahead and leaves the buffer
and the comments alone. Over text without line breaks it may move by a count.
-/

namespace LuaTokens

namespace Scanner

variable {s middle after : Scanner} {text rest : List CodeUnit}

theorem length_ahead (s : Scanner) : s.ahead.length = s.remaining := by
  simp [ahead, remaining]

theorem peekAt_eq (s : Scanner) (distance : Nat) : s.peekAt distance = s.ahead[distance]? := by
  rw [peekAt, ahead, List.getElem?_drop]

theorem peek_eq (s : Scanner) : s.peek = s.ahead.head? := by
  rw [peek, peekAt_eq, List.head?_eq_getElem?]

theorem isAt_eq (s : Scanner) (distance : Nat) (c : Char) :
    s.isAt distance c = decide (s.ahead[distance]? = some (.of c)) := by
  rw [isAt, peekAt_eq]

theorem isAt_zero (s : Scanner) (c : Char) :
    s.isAt 0 c = decide (s.ahead.head? = some (.of c)) := by
  rw [isAt_eq, List.head?_eq_getElem?]

/-- The scanner has moved by so many units on its line. -/
structure Shifted (s : Scanner) (count : Nat) (after : Scanner) : Prop where
  position : after.position = s.position.shift count
  units : after.units = s.units
  comments : after.comments = s.comments

/-- The scanner has moved over the text. -/
structure Moved (s : Scanner) (text : List CodeUnit) (after : Scanner) : Prop where
  position : after.position = s.position.advance text
  ahead : s.ahead = text ++ after.ahead
  units : after.units = s.units
  comments : after.comments = s.comments

theorem Shifted.ahead (h : Shifted s count after) : after.ahead = s.ahead.drop count := by
  rw [Scanner.ahead, Scanner.ahead, h.units, h.position, List.drop_drop]
  rfl

theorem Shifted.ahead_eq (h : Shifted s text.length after) (divided : s.ahead = text ++ rest) :
    after.ahead = rest := by
  rw [h.ahead, divided, List.drop_left]

theorem Shifted.trans {count more : Nat} (first : Shifted s count middle)
    (second : Shifted middle more after) : Shifted s (count + more) after := by
  refine ⟨?_, second.units.trans first.units, second.comments.trans first.comments⟩
  rw [second.position, first.position]
  simp [Position.shift, Nat.add_assoc]

theorem Shifted.count_le (h : Shifted s count after) : count ≤ s.remaining := by
  have within := after.offset_le
  simp only [h.position, h.units, Position.shift] at within
  simp only [remaining]
  omega

theorem Shifted.remaining_eq (h : Shifted s count after) : after.remaining = s.remaining - count := by
  simp only [remaining, h.position, h.units, Position.shift]
  omega

theorem Shifted.refl (s : Scanner) : Shifted s 0 s :=
  ⟨rfl, rfl, rfl⟩

theorem Shifted.moved (h : Shifted s text.length after) (divided : s.ahead = text ++ rest)
    (unbroken : ∀ u ∈ text, u.isBreak = false) : Moved s text after := by
  refine ⟨?_, ?_, h.units, h.comments⟩
  · rw [h.position, Position.advance_of_unbroken _ unbroken]
  · rw [h.ahead, divided, List.drop_left]

namespace Moved

theorem refl (s : Scanner) : Moved s [] s :=
  ⟨rfl, rfl, rfl, rfl⟩

theorem trans {more : List CodeUnit} (first : Moved s text middle) (second : Moved middle more after)
    (seam : Seam text more) : Moved s (text ++ more) after := by
  refine ⟨?_, ?_, second.units.trans first.units, second.comments.trans first.comments⟩
  · rw [second.position, first.position, Position.advance_append _ seam]
  · rw [first.ahead, second.ahead, List.append_assoc]

theorem concat {u : CodeUnit} (first : Moved s text middle) (step : Moved middle [u] after)
    (unbroken : u.isBreak = false) : Moved s (text ++ [u]) after := by
  apply first.trans step
  apply Seam.of_head
  rintro v ⟨⟩
  exact unbroken

theorem rest_eq (h : Moved s text after) (divided : s.ahead = text ++ rest) : after.ahead = rest := by
  rw [h.ahead] at divided
  exact List.append_cancel_left divided

theorem offset_eq (h : Moved s text after) :
    after.position.offset = s.position.offset + text.length := by
  rw [h.position, Position.offset_advance]

theorem offset_le (h : Moved s text after) : s.position.offset ≤ after.position.offset := by
  rw [h.offset_eq]
  exact Nat.le_add_right _ _

theorem take_ahead (h : Moved s text after) :
    s.ahead.take (after.position.offset - s.position.offset) = text := by
  rw [h.offset_eq, Nat.add_sub_cancel_left, h.ahead, List.take_left]

theorem shifted (h : Moved s text after) (unbroken : ∀ u ∈ text, u.isBreak = false) :
    Shifted s text.length after := by
  refine ⟨?_, h.units, h.comments⟩
  rw [h.position, Position.advance_of_unbroken _ unbroken]

theorem remaining_le (h : Moved s text after) : after.remaining ≤ s.remaining := by
  rw [← length_ahead, ← length_ahead, h.ahead, List.length_append]
  omega

theorem remaining_lt (h : Moved s text after) (nonempty : text ≠ []) :
    after.remaining < s.remaining := by
  have := List.length_pos_iff.2 nonempty
  rw [← length_ahead, ← length_ahead, h.ahead, List.length_append]
  omega

end Moved

/-- The text is what the buffer holds between the two offsets. -/
def Spans (s : Scanner) (first last : Nat) (text : List CodeUnit) : Prop :=
  ∃ start stop, start.units = s.units ∧ Moved start text stop
    ∧ first = start.position.offset ∧ last = stop.position.offset

theorem Moved.spans (h : Moved s text after) :
    Spans s s.position.offset after.position.offset text :=
  ⟨s, after, rfl, h, rfl, rfl⟩

end Scanner

namespace Scan

open Scanner

variable {s after : Scanner} {text rest : List CodeUnit} {bad : Diagnostic → Scanner → Prop}

theorem returns_advance {count : Nat} (fits : count ≤ s.remaining) :
    (advance count).Returns s fun _ after => Shifted s count after := by
  have within : s.position.offset + count ≤ s.units.length := by
    have := s.offset_le
    simp only [Scanner.remaining] at fits
    omega
  unfold Returns Ensures
  rw [advance, dif_pos within]
  exact ⟨rfl, rfl, rfl⟩

theorem returns_advanceClamped (count : Nat) (s : Scanner) :
    (advanceClamped count).Returns s fun _ after => Shifted s (min count s.remaining) after :=
  ensures_ask_bind (returns_advance (Nat.min_le_right count s.remaining))

theorem returns_advance_over {count : Nat} (divided : s.ahead = text ++ rest)
    (length : text.length = count) (unbroken : ∀ u ∈ text, u.isBreak = false) :
    (advance count).Returns s fun _ after => Moved s text after := by
  subst length
  have fits : text.length ≤ s.remaining := by
    rw [← length_ahead, divided, List.length_append]
    omega
  exact (returns_advance fits).mono fun _ _ shifted => shifted.moved divided unbroken

theorem returns_advance_unit {u : CodeUnit} (ahead : s.ahead = u :: rest)
    (unbroken : u.isBreak = false) :
    (advance 1).Returns s fun _ after => Moved s [u] after ∧ after.ahead = rest := by
  have single : ∀ v ∈ [u], v.isBreak = false := by simpa using unbroken
  refine (returns_advance_over (show s.ahead = [u] ++ rest from ahead) rfl single).mono ?_
  intro _ after moved
  exact ⟨moved, moved.rest_eq ahead⟩

theorem returns_slice {start stop : Scanner} (units : s.units = start.units)
    (same : stop.units = start.units) (le : start.position.offset ≤ stop.position.offset) :
    (slice start.position.offset stop.position.offset).Returns s fun found after =>
      found = start.ahead.take (stop.position.offset - start.position.offset) ∧ after = s := by
  have within : stop.position.offset ≤ s.units.length := by
    rw [units, ← same]
    exact stop.offset_le
  unfold Returns Ensures
  rw [slice, if_pos ⟨le, within⟩, units]
  exact ⟨rfl, rfl⟩

theorem returns_slice_ahead {count : Nat} (fits : count ≤ s.remaining) :
    (slice s.position.offset (s.position.offset + count)).Returns s fun found after =>
      found = s.ahead.take count ∧ after = s := by
  have within : s.position.offset + count ≤ s.units.length := by
    have := s.offset_le
    simp only [Scanner.remaining] at fits
    omega
  unfold Returns Ensures
  rw [slice, if_pos ⟨Nat.le_add_right _ _, within⟩, Nat.add_sub_cancel_left]
  exact ⟨rfl, rfl⟩

theorem returns_slice_spans {t : Scanner} {first last : Nat} (spans : Spans s first last text)
    (same : t.units = s.units) :
    (slice first last).Returns t fun found later => found = text ∧ later = t := by
  obtain ⟨start, stop, units, moved, rfl, rfl⟩ := spans
  have found := returns_slice (same.trans units.symm) moved.units moved.offset_le
  rwa [moved.take_ahead] at found

/-- The diagnostic of a failure on what is between two states of a scanner. -/
def diagnostic (chunk : Option String) (reason : Fault) (start stop : Scanner) : Diagnostic :=
  ⟨reason, start.position, stop.position,
    if reason.atEnd then "<eof>"
    else Utf16.lossy (start.ahead.take (stop.position.offset - start.position.offset)), chunk⟩

theorem ensures_fail {α : Type} {ok : α → Scanner → Prop} {start : Scanner} {chunk : Option String}
    {reason : Fault} (units : s.units = start.units)
    (le : start.position.offset ≤ s.position.offset) (h : bad (diagnostic chunk reason start s) s) :
    (fail chunk reason start.position : Scan α).Ensures s ok bad := by
  apply ensures_ask_bind
  by_cases atEnd : reason.atEnd = true
  · simp only [diagnostic, if_pos atEnd] at h ⊢
    exact ensures_raise h
  · simp only [diagnostic, if_neg atEnd] at h ⊢
    have near : (Utf16.lossy <$> slice start.position.offset s.position.offset).Returns s
        fun near after => near = Utf16.lossy
            (start.ahead.take (s.position.offset - start.position.offset)) ∧ after = s :=
      Ensures.map ((returns_slice units units le).mono fun _ _ found =>
        ⟨congrArg Utf16.lossy found.1, found.2⟩)
    apply Returns.bind near
    rintro _ _ ⟨rfl, rfl⟩
    exact ensures_raise h

theorem ensures_fail_shifted {α : Type} {ok : α → Scanner → Prop} {start : Scanner}
    {chunk : Option String} {reason : Fault} {count : Nat} (shifted : Shifted start count s)
    (h : bad (diagnostic chunk reason start s) s) :
    (fail chunk reason start.position : Scan α).Ensures s ok bad := by
  refine ensures_fail shifted.units ?_ h
  rw [shifted.position]
  exact Nat.le_add_right _ _

theorem returns_subtract {a b : Nat} (le : b ≤ a) (s : Scanner) :
    (subtract a b).Returns s fun difference after => difference = a - b ∧ after = s := by
  rw [subtract, if_pos le]
  exact ensures_pure ⟨rfl, rfl⟩

theorem returns_word {bits value : Nat} (fits : value < 2 ^ bits) (s : Scanner) :
    (word bits value).Returns s fun number after => number = value ∧ after = s := by
  rw [word, if_pos fits]
  exact ensures_pure ⟨rfl, rfl⟩

section Finding

/-- The scanner reports the misreading and stands where it stops. -/
structure Fails (chunk : Option String) (s : Scanner) (m : Misreading) (d : Diagnostic)
    (after : Scanner) : Prop where
  diagnostic_eq : d = m.diagnose chunk s.position
  position : after.position = d.stop
  units : after.units = s.units
  comments : after.comments = s.comments

/-- The scan finds the token that is read where the scanner is, or reports its misreading. -/
def Finds (scan : Scan Token.Kind) (chunk : Option String) (s : Scanner) (reading : Lexeme.Reading) :
    Prop :=
  scan.Ensures s
    (fun kind after => ∃ text, reading = .read ⟨.token kind, text, after.ahead⟩ ∧ Moved s text after)
    (fun d after => ∃ m, reading = .failed m ∧ Fails chunk s m d after)

variable {start : Scanner} {chunk : Option String} {m : Misreading}

theorem fails_of_stop (lead : Moved s m.lead start) (front : m.culprit <+: start.ahead)
    (position : after.position = m.stop start.position) (units : after.units = start.units)
    (comments : after.comments = start.comments) :
    Fails chunk s m (diagnostic chunk m.fault start after) after := by
  have width : after.position.offset = start.position.offset + m.culprit.length := by
    rw [position, Misreading.stop]
    split
    · rfl
    · rw [Position.offset_advance]
  have near : start.ahead.take (after.position.offset - start.position.offset) = m.culprit := by
    rw [width, Nat.add_sub_cancel_left, ← List.prefix_iff_eq_take.1 front]
  refine ⟨?_, rfl, units.trans lead.units, comments.trans lead.comments⟩
  rw [diagnostic, Misreading.diagnose, near, position, lead.position]

theorem fails_of_moved (lead : Moved s m.lead start) (moved : Moved start m.culprit after)
    (outside : m.fault.inEscape = false) :
    Fails chunk s m (diagnostic chunk m.fault start after) after := by
  apply fails_of_stop lead ⟨_, moved.ahead.symm⟩ _ moved.units moved.comments
  rw [moved.position, Misreading.stop, if_neg (by simp [outside])]

theorem ensures_fail_moved {α : Type} {ok : α → Scanner → Prop} {reason : Fault}
    (moved : Moved start text s) (outside : reason.inEscape = false)
    (h : ∀ d, Fails chunk start ⟨reason, [], text⟩ d s → bad d s) :
    (fail chunk reason start.position : Scan α).Ensures s ok bad := by
  apply ensures_fail moved.units moved.offset_le
  exact h _ (fails_of_moved (m := ⟨reason, [], text⟩) (Moved.refl start) moved outside)

/-- Inside an escape a scanner stays on its line. -/
theorem fails_of_shifted (lead : Moved s m.lead start) (front : m.culprit <+: start.ahead)
    (shifted : Shifted start m.culprit.length after) (inside : m.fault.inEscape = true) :
    Fails chunk s m (diagnostic chunk m.fault start after) after := by
  apply fails_of_stop lead front _ shifted.units shifted.comments
  rw [shifted.position, Misreading.stop, if_pos inside]

end Finding

end Scan

end LuaTokens
