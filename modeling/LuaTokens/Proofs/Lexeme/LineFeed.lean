import LuaTokens.Proofs.Lexeme.Failure
import LuaTokens.Proofs.Position.LineFeed

/-! # Reading with line feeds for line breaks

No reader tells one kind of line break from another. So the counterpart of a text, in
which every line break is a line feed, is read as the counterparts of its lexemes, and
the values differ only in the line breaks of long brackets.
-/

namespace LuaTokens

namespace LongBracket

variable {input pattern : List CodeUnit}

theorem level?_unifyBreaks (input : List CodeUnit) : level? (unifyBreaks input) = level? input := by
  have opens : ∀ (text : List CodeUnit) (level : Nat), level? text = some level ↔ opener level <+: text := by
    intro text level
    rw [level?_eq_some_iff]
    exact exists_congr fun _ => eq_comm
  apply Option.ext
  intro level
  rw [opens, opens, prefix_unifyBreaks (isBreak_opener level)]

theorem offsetOf?_cons_of_isBreak {u : CodeUnit} (nonempty : pattern ≠ [])
    (unbroken : ∀ v ∈ pattern, v.isBreak = false) (broken : u.isBreak = true) (rest : List CodeUnit) :
    offsetOf? pattern (u :: rest) = (offsetOf? pattern rest).map (· + 1) := by
  rw [offsetOf?, if_neg]
  intro here
  obtain ⟨v, more, rfl⟩ := List.exists_cons_of_ne_nil nonempty
  obtain ⟨rfl, -⟩ := List.cons_prefix_cons.1 (List.isPrefixOf_iff_prefix.1 here)
  rw [unbroken v List.mem_cons_self] at broken
  cases broken

theorem offsetOf?_unifyBreaks (nonempty : pattern ≠ []) (unbroken : ∀ v ∈ pattern, v.isBreak = false)
    (input : List CodeUnit) :
    offsetOf? pattern (unifyBreaks input)
      = (offsetOf? pattern input).map fun k => (unifyBreaks (input.take k)).length := by
  have lineFeed : CodeUnit.isBreak 0x0A = true := by decide
  induction input using unifyBreaks.induct with
  | case1 => rfl
  | case2 u broken =>
      simp only [unifyBreaks, broken, if_true, offsetOf?_cons_of_isBreak nonempty unbroken broken,
        offsetOf?_cons_of_isBreak nonempty unbroken lineFeed]
      rfl
  | case3 u solid =>
      simp only [unifyBreaks, solid, if_false, Bool.false_eq_true, offsetOf?, Option.map_none]
      split <;> rfl
  | case4 u v rest broken paired ih =>
      simp only [Bool.and_eq_true] at paired
      rw [offsetOf?_cons_of_isBreak nonempty unbroken broken,
        offsetOf?_cons_of_isBreak nonempty unbroken paired.1]
      simp only [unifyBreaks, broken, paired, Bool.and_self, if_true,
        offsetOf?_cons_of_isBreak nonempty unbroken lineFeed, ih]
      cases offsetOf? pattern rest <;> simp [unifyBreaks, broken, paired]
  | case5 u v rest broken unpaired ih =>
      rw [offsetOf?_cons_of_isBreak nonempty unbroken broken]
      simp only [unifyBreaks, broken, unpaired, if_true, if_false, Bool.false_eq_true,
        offsetOf?_cons_of_isBreak nonempty unbroken lineFeed, ih]
      cases offsetOf? pattern (v :: rest) with
      | none => rfl
      | some k => cases k <;> simp [unifyBreaks, broken, unpaired]
  | case6 u v rest solid ih =>
      have single : u.isBreak = false := by simpa using solid
      have front := prefix_unifyBreaks unbroken (u :: v :: rest)
      rw [unifyBreaks_cons_of_unbroken single] at front ⊢
      rw [offsetOf?, offsetOf?, ih]
      simp only [List.isPrefixOf_iff_prefix, front]
      split
      next => rfl
      next =>
        cases offsetOf? pattern (v :: rest) with
        | none => rfl
        | some k => simp [unifyBreaks_cons_of_unbroken single]

theorem IsClosed.unified {level : Nat} {lead body : List CodeUnit} (h : IsClosed level lead body) :
    IsClosed level (unifyBreaks lead) (unifyBreaks body)
      ∧ unifyBreaks (closedText level lead body) = closedText level (unifyBreaks lead) (unifyBreaks body) := by
  have ends : unifyBreaks (body ++ closer level) = unifyBreaks body ++ closer level := by
    have seam : Seam body (closer level) := Seam.of_head fun u first =>
      isBreak_closer level u (List.mem_of_mem_head? first)
    rw [unifyBreaks_append seam, unifyBreaks_of_unbroken (isBreak_closer level)]
  have inner : unifyBreaks (lead ++ (body ++ closer level))
      = unifyBreaks lead ++ (unifyBreaks body ++ closer level) := by
    have seam := seam_take_breakWidth (lead ++ (body ++ closer level))
    rw [h.lead_eq, List.take_left, List.drop_left] at seam
    rw [unifyBreaks_append seam, ends]
  refine ⟨⟨?_, ?_⟩, ?_⟩
  · rw [← inner, breakWidth_unifyBreaks, h.lead_eq, List.take_left]
  · rw [← ends, offsetOf?_unifyBreaks (by simp [closer]) (isBreak_closer level), h.first_closer,
      Option.map_some, List.take_left]
  · rw [closedText, unifyBreaks_append_of_unbroken (isBreak_opener level), inner]
    rfl

/-- The same reading of the counterpart. -/
def Reading.unified : Reading → Reading
  | .absent => .absent
  | .unclosed => .unclosed
  | .closed cut => .closed ⟨unifyBreaks cut.value, unifyBreaks cut.text, unifyBreaks cut.rest⟩

theorem read_unifyBreaks (input : List CodeUnit) : read (unifyBreaks input) = (read input).unified := by
  cases found : read input with
  | absent =>
      rw [read_eq_absent_iff] at found
      exact read_eq_absent_iff.2 (by rw [level?_unifyBreaks, found])
  | closed cut =>
      obtain ⟨level, lead, closed, text, whole⟩ := exists_isClosed_of_read found
      obtain ⟨still, textEq⟩ := closed.unified
      have seam : Seam cut.text cut.rest := seam_of_read found [] cut.rest
      rw [whole, unifyBreaks_append seam, text, textEq, still.read_append, ← textEq, ← text]
      rfl
  | unclosed =>
      unfold read at found
      split at found
      · cases found
      next level opens =>
        simp only at found
        split at found
        next none =>
          have still := offsetOf?_unifyBreaks (by simp [closer]) (isBreak_closer level)
            (input.drop (level + 2 + CodeUnit.breakWidth (input.drop (level + 2))))
          rw [none, Option.map_none, ← List.drop_drop, ← drop_breakWidth_unifyBreaks] at still
          obtain ⟨opened, rfl⟩ := level?_eq_some_iff.1 opens
          rw [List.drop_left' (length_opener level)] at still
          rw [unifyBreaks_append_of_unbroken (isBreak_opener level), read, level?_opener_append]
          simp only [← List.drop_drop, List.drop_left' (length_opener level), still]
          rfl
        · cases found

end LongBracket

namespace Utf16

theorem leadingWidth_unifyBreaks {u : CodeUnit} (unbroken : u.isBreak = false) (rest : List CodeUnit) :
    leadingWidth (unifyBreaks (u :: rest)) = leadingWidth (u :: rest) := by
  rw [unifyBreaks_cons_of_unbroken unbroken]
  cases rest with
  | nil => rfl
  | cons v rest =>
      cases broken : v.isBreak with
      | true =>
          have high : v.isLowSurrogate = false := by
            cases low : v.isLowSurrogate with
            | false => rfl
            | true => rw [isBreak_of_isLowSurrogate low] at broken; cases broken
          rw [unifyBreaks_cons_of_isBreak broken]
          simp [leadingWidth, high, show CodeUnit.isLowSurrogate 0x0A = false by decide]
      | false =>
          rw [unifyBreaks_cons_of_unbroken broken]
          rfl

theorem divide_leadingWidth_unifyBreaks {u : CodeUnit} (unbroken : u.isBreak = false)
    (rest : List CodeUnit) :
    (unifyBreaks (u :: rest)).take (leadingWidth (u :: rest)) = (u :: rest).take (leadingWidth (u :: rest))
      ∧ (unifyBreaks (u :: rest)).drop (leadingWidth (u :: rest))
        = unifyBreaks ((u :: rest).drop (leadingWidth (u :: rest))) :=
  divide_unifyBreaks (leadingWidth_le _) (isBreak_leading unbroken rest)

end Utf16

namespace Escape

variable {features : FeatureSet} {bytes : ByteString} {v : CodeUnit}

theorem decimal_unifyBreaks (input : List CodeUnit) : decimal (unifyBreaks input) = decimal input := by
  have digits := (run_unifyBreaks (p := CodeUnit.isDigit) (CodeUnit.forall_isBreak rfl rfl) input).1
  simp only [decimal, ← List.take_takeWhile, digits]

theorem outcome_hexadecimal (input : List CodeUnit) :
    (hexadecimal input).outcome = match input.takeWhile CodeUnit.isHexDigit with
      | high :: low :: _ => .ok [UInt8.ofNat (high.digitValue * 16 + low.digitValue)]
      | _ => .error .hexDigitExpected := by
  match input with
  | [] => rfl
  | [high] => cases digit : high.isHexDigit <;> simp [hexadecimal, digit]
  | high :: low :: rest =>
      cases first : high.isHexDigit <;> cases second : low.isHexDigit <;>
        simp [hexadecimal, first, second]

theorem outcome_hexadecimal_unifyBreaks (input : List CodeUnit) :
    (hexadecimal (unifyBreaks input)).outcome = (hexadecimal input).outcome := by
  rw [outcome_hexadecimal, outcome_hexadecimal,
    (run_unifyBreaks (p := CodeUnit.isHexDigit) (CodeUnit.forall_isBreak rfl rfl) input).1]

theorem codePoint_unifyBreaks (input : List CodeUnit) : codePoint (unifyBreaks input) = codePoint input := by
  have brace := head?_unifyBreaks_eq_some (show (CodeUnit.of '\x7b').isBreak = false by decide) input
  by_cases opens : input.head? = some (.of '\x7b')
  · obtain ⟨tail, rfl⟩ := List.head?_eq_some_iff.1 opens
    obtain ⟨digits, behind⟩ := run_unifyBreaks (p := CodeUnit.isHexDigit) (CodeUnit.forall_isBreak rfl rfl) tail
    have closes := head?_unifyBreaks_eq_some (show (CodeUnit.of '\x7d').isBreak = false by decide)
      (tail.dropWhile CodeUnit.isHexDigit)
    have quotes := any_head?_unifyBreaks (p := CodeUnit.isQuote) (CodeUnit.forall_isBreak rfl rfl)
      (tail.dropWhile CodeUnit.isHexDigit)
    have after : (unifyBreaks tail).drop (tail.takeWhile CodeUnit.isHexDigit).length
        = unifyBreaks (tail.dropWhile CodeUnit.isHexDigit) := by
      rw [← digits, drop_length_takeWhile, behind]
    rw [unifyBreaks_cons_of_unbroken (by decide)]
    simp only [codePoint, List.head?_cons, List.drop_succ_cons, List.drop_zero, Nat.add_comm 1, digits,
      after, drop_length_takeWhile, closes, quotes]
  · simp only [codePoint, opens, brace, ne_eq, not_false_eq_true, if_true]

theorem literal_unifyBreaks (unbroken : v.isBreak = false) (rest : List CodeUnit) :
    literal (unifyBreaks (v :: rest)) = literal (v :: rest) := by
  simp only [literal, Utf16.leadingWidth_unifyBreaks unbroken,
    (Utf16.divide_leadingWidth_unifyBreaks unbroken rest).1]

/-- The counterpart of an escape is read as the escape is, and takes the counterpart of its
    text. -/
structure Unified (input : List CodeUnit) (old new : Reading) : Prop where
  outcome : new.outcome = old.outcome
  text : ∀ bytes, old.outcome = .ok bytes → Seam (input.take old.width) (input.drop old.width)
    ∧ new.width = (unifyBreaks (input.take old.width)).length

theorem Unified.of_unbroken {input : List CodeUnit} {old new : Reading}
    (outcome : new.outcome = old.outcome)
    (text : ∀ bytes, old.outcome = .ok bytes → new.width = old.width
      ∧ old.width ≤ input.length ∧ ∀ u ∈ input.take old.width, u.isBreak = false) :
    Unified input old new := by
  refine ⟨outcome, fun bytes ok => ?_⟩
  obtain ⟨width, fits, unbroken⟩ := text bytes ok
  refine ⟨Seam.of_forall unbroken _, ?_⟩
  rw [unifyBreaks_of_unbroken unbroken, List.length_take, Nat.min_eq_left fits, width]

theorem isBreak_take_decimal (input : List CodeUnit) :
    ∀ u ∈ input.take (decimal input).width, u.isBreak = false := by
  have front := (List.takeWhile_prefix CodeUnit.isDigit).trans (List.take_prefix 3 input)
  intro u member
  rw [decimal, ← List.prefix_iff_eq_take.1 front] at member
  exact CodeUnit.isBreak_eq_false CodeUnit.isDigit_spaces (List.mem_takeWhile_imp member)

theorem isBreak_take_hexadecimal (unbroken : v.isBreak = false) {input : List CodeUnit}
    (ok : (hexadecimal input).outcome = .ok bytes) : ∀ u ∈ (v :: input).take 3, u.isBreak = false := by
  unfold hexadecimal at ok
  split at ok
  next high low tail =>
    split at ok
    · cases ok
    next first =>
      split at ok
      · cases ok
      next second =>
        have digit : ∀ u : CodeUnit, ¬ (!u.isHexDigit) = true → u.isBreak = false := fun u isDigit =>
          CodeUnit.isBreak_eq_false CodeUnit.isHexDigit_spaces (by simpa using isDigit)
        simp [unbroken, digit high first, digit low second]
  · cases ok

theorem isBreak_take_codePoint (unbroken : v.isBreak = false) {input : List CodeUnit}
    (ok : (codePoint input).outcome = .ok bytes) :
    ∀ u ∈ (v :: input).take (codePoint input).width, u.isBreak = false := by
  obtain ⟨digits, tail, rfl, all⟩ := braced_of_codePoint ok
  rw [codePoint_braced all] at ok ⊢
  have text : (v :: .of '\x7b' :: (digits ++ .of '\x7d' :: tail)).take (3 + digits.length)
      = v :: .of '\x7b' :: (digits ++ [.of '\x7d']) := by
    rw [show 3 + digits.length = digits.length + 1 + 1 + 1 by omega, List.take_succ_cons,
      List.take_succ_cons, List.take_length_add_append]
    rfl
  intro u member
  rw [width_bracedOutcome ok, text] at member
  simp only [List.mem_cons, List.mem_append, List.not_mem_nil, or_false] at member
  rcases member with rfl | rfl | digit | rfl
  · exact unbroken
  · decide
  · exact CodeUnit.isBreak_eq_false CodeUnit.isHexDigit_spaces (all u digit)
  · decide

theorem unified_skip (unbroken : v.isBreak = false) (rest : List CodeUnit) :
    Unified (v :: rest) ⟨.ok [], 1 + (rest.takeWhile CodeUnit.isSpace).length⟩
      ⟨.ok [], 1 + ((unifyBreaks rest).takeWhile CodeUnit.isSpace).length⟩ := by
  refine ⟨rfl, fun bytes ok => ?_⟩
  simp only [Nat.add_comm 1, List.take_succ_cons, List.drop_succ_cons, drop_length_takeWhile,
    ← List.prefix_iff_eq_take.1 (List.takeWhile_prefix (l := rest) CodeUnit.isSpace)]
  constructor
  · exact Seam.of_head fun u first => CodeUnit.isBreak_of_not_isSpace (stops_dropWhile rest u first)
  · rw [unifyBreaks_cons_of_unbroken unbroken, (spaces_unifyBreaks rest).1, List.length_cons]

theorem read_of_isBreak {features : FeatureSet} (broken : v.isBreak = true) (rest : List CodeUnit) :
    read features v rest = ⟨.ok [0x0A], CodeUnit.breakWidth (v :: rest)⟩ := by
  simp only [read, control?_of_isBreak broken, broken, if_true]

theorem read_unifyBreaks (features : FeatureSet) (v : CodeUnit) (rest : List CodeUnit)
    {w : CodeUnit} {other : List CodeUnit} (same : unifyBreaks (v :: rest) = w :: other) :
    Unified (v :: rest) (read features v rest) (read features w other) := by
  cases broken : v.isBreak with
  | true =>
      have lineFeed : w = 0x0A := by
        rw [unifyBreaks_cons_of_isBreak broken] at same
        exact (List.cons.inj same).1.symm
      rw [read_of_isBreak broken, read_of_isBreak (lineFeed ▸ rfl), ← same]
      exact ⟨rfl, fun _ _ => ⟨seam_take_breakWidth _, breakWidth_unifyBreaks _⟩⟩
  | false =>
      have whole := same
      rw [unifyBreaks_cons_of_unbroken broken] at same
      obtain ⟨rfl, rfl⟩ := List.cons.inj same
      cases form features v with
      | control byte h =>
          rw [h, h]
          exact .of_unbroken rfl fun _ _ => ⟨rfl, by simp, by simpa using broken⟩
      | lineBreak isBreak h =>
          rw [broken] at isBreak
          cases isBreak
      | decimal digit h =>
          rw [h, h, ← whole, decimal_unifyBreaks]
          exact .of_unbroken rfl fun _ _ => ⟨rfl, width_decimal_le _, isBreak_take_decimal _⟩
      | skip h =>
          rw [h, h]
          exact unified_skip broken rest
      | hexadecimal h =>
          rw [h, h]
          refine .of_unbroken (outcome_hexadecimal_unifyBreaks rest) fun bytes ok => ?_
          have old := width_hexadecimal ok
          have new := width_hexadecimal ((outcome_hexadecimal_unifyBreaks rest).trans ok)
          refine ⟨new.1.trans old.1.symm, ?_, ?_⟩
          · rw [old.1]
            exact Nat.succ_le_succ old.2
          · rw [old.1]
            exact isBreak_take_hexadecimal broken ok
      | codePoint h =>
          rw [h, h, codePoint_unifyBreaks]
          refine .of_unbroken rfl fun bytes ok => ⟨rfl, ?_, isBreak_take_codePoint broken ok⟩
          rw [List.length_cons, Nat.add_comm]
          exact width_codePoint_le ok
      | unknown h =>
          rw [h, h]
          exact .of_unbroken rfl nofun
      | literal h =>
          rw [h, h, ← whole, literal_unifyBreaks broken]
          exact .of_unbroken rfl fun _ _ =>
            ⟨rfl, Utf16.leadingWidth_le _, Utf16.isBreak_leading broken rest⟩

end Escape

/-- Failures for the same reason, behind counterparts. The offending parts may differ: a part
    that ends in a line break takes only one unit of it. -/
structure Misreading.Unified (old new : Misreading) : Prop where
  fault : new.fault = old.fault
  lead : new.lead = unifyBreaks old.lead

namespace Quoted

variable {features : FeatureSet} {quote : CodeUnit} {input rest : List CodeUnit}

/-- Endings of the same kind. -/
inductive Ending.Unified : Ending → Ending → Prop where
  | closed : Unified .closed .closed
  | cutOff (tail : List CodeUnit) : Unified (.cutOff tail) (.cutOff tail)
  | misread (fault : Fault) (old new : List CodeUnit) : Unified (.misread fault old) (.misread fault new)

/-- An element ends at a seam, and its counterpart is an element of the same value. -/
theorem step_unifyBreaks_of_element {e : Element} (h : step features quote input = .element e rest) :
    Seam e.text rest
      ∧ step features quote (unifyBreaks input) = .element ⟨unifyBreaks e.text, e.bytes⟩ (unifyBreaks rest) := by
  have found := form features quote input
  rw [h] at found
  cases found with
  | @plain u tail inside unbroken unescaped =>
      have solid := Utf16.isBreak_leading unbroken tail
      have width := Utf16.leadingWidth_unifyBreaks unbroken tail
      obtain ⟨taken, left⟩ := Utf16.divide_leadingWidth_unifyBreaks unbroken tail
      refine ⟨Seam.of_forall solid _, ?_⟩
      rw [unifyBreaks_of_unbroken solid]
      rw [unifyBreaks_cons_of_unbroken unbroken] at taken width left ⊢
      rw [step_plain inside unbroken unescaped, width, taken, left]
  | @escape v bytes tail inside ok =>
      obtain ⟨w, other, same⟩ := List.exists_cons_of_ne_nil (unifyBreaks_ne_nil (List.cons_ne_nil v tail))
      have unified := Escape.read_unifyBreaks features v tail same
      obtain ⟨seam, width⟩ := unified.text bytes ok
      have whole := unifyBreaks_append seam
      rw [List.take_append_drop, same] at whole
      have backslash : ∀ u ∈ [CodeUnit.of '\\'], u.isBreak = false := CodeUnit.forall_of_any (by decide)
      refine ⟨Seam.append (Seam.of_forall backslash _) seam, ?_⟩
      have escaped : ∀ text, unifyBreaks (.of '\\' :: text) = .of '\\' :: unifyBreaks text :=
        unifyBreaks_append_of_unbroken backslash
      rw [escaped, escaped, same, step_escape inside (unified.outcome.trans ok), width, whole,
        List.take_left, List.drop_left]

theorem step_unifyBreaks_of_ending {ending : Ending} (isQuote : quote.isQuote = true)
    (h : step features quote input = .ending ending) :
    ∃ other, ending.Unified other ∧ step features quote (unifyBreaks input) = .ending other := by
  have found := form features quote input
  rw [h] at found
  cases found with
  | finished => exact ⟨_, .cutOff [], rfl⟩
  | closed rest =>
      rw [unifyBreaks_cons_of_unbroken (CodeUnit.isBreak_of_isQuote isQuote)]
      exact ⟨_, .closed, by simp [step]⟩
  | lineBreak rest inside broken =>
      have outside : (0x0A : CodeUnit) ≠ quote := by
        rintro rfl
        cases isQuote
      rw [unifyBreaks_cons_of_isBreak broken]
      exact ⟨_, .cutOff [], by simp [step, outside, show CodeUnit.isBreak 0x0A = true by decide]⟩
  | bare inside => exact ⟨_, .cutOff _, h⟩
  | @misread v fault tail inside error =>
      obtain ⟨w, other, same⟩ := List.exists_cons_of_ne_nil (unifyBreaks_ne_nil (List.cons_ne_nil v tail))
      have unified := Escape.read_unifyBreaks features v tail same
      rw [unifyBreaks_cons_of_unbroken (by decide), same]
      exact ⟨_, .misread fault _ _, step_misread inside (unified.outcome.trans error)⟩

/-- The elements of the counterpart are the counterparts of the elements. -/
structure Body.Unified (old new : Body) : Prop where
  bytes : new.bytes = old.bytes
  text : new.text = unifyBreaks old.text
  ending : old.ending.Unified new.ending
  rest : new.rest = unifyBreaks old.rest

theorem body_unifyBreaks (isQuote : quote.isQuote = true) (input : List CodeUnit) :
    (body features quote input).Unified (body features quote (unifyBreaks input)) := by
  induction input using body.induct features quote with
  | case1 input e rest h ih =>
      obtain ⟨seam, now⟩ := step_unifyBreaks_of_element h
      rw [← text_append_rest_body features quote rest] at seam
      rw [body_of_element h, body_of_element now]
      refine ⟨?_, ?_, ih.ending, ih.rest⟩
      · exact congrArg (e.bytes ++ ·) ih.bytes
      · exact (congrArg (unifyBreaks e.text ++ ·) ih.text).trans (unifyBreaks_append seam.of_append).symm
  | case2 input ending h =>
      obtain ⟨other, unified, now⟩ := step_unifyBreaks_of_ending isQuote h
      rw [body_of_ending h, body_of_ending now]
      exact ⟨rfl, rfl, unified, rfl⟩

theorem read_unifyBreaks_of_ok (isQuote : quote.isQuote = true) {cut : Cut ByteString}
    (h : read features quote input = .ok cut) :
    read features quote (unifyBreaks input)
      = .ok ⟨cut.value, unifyBreaks cut.text, unifyBreaks cut.rest⟩ := by
  have solid := CodeUnit.isBreak_of_isQuote isQuote
  have unified : (body features quote input).Unified _ := body_unifyBreaks isQuote input
  have ends := unified.ending
  unfold read at h ⊢
  simp only at h ⊢
  split at h
  next closed =>
    cases h
    obtain ⟨rest, behind⟩ := rest_body_of_closed closed
    rw [closed] at ends
    generalize (body features quote (unifyBreaks input)).ending = ending at ends
    cases ends
    have left := unified.rest
    rw [behind, unifyBreaks_cons_of_unbroken solid] at left
    have seam : Seam (body features quote input).text [quote] := Seam.of_head (by simpa using solid)
    have text : unifyBreaks (quote :: (body features quote input).text ++ [quote])
        = quote :: unifyBreaks (body features quote input).text ++ [quote] := by
      rw [List.cons_append, unifyBreaks_cons_of_unbroken solid, unifyBreaks_append seam]
      simp [unifyBreaks, solid]
    simp only [unified.bytes, unified.text, left, behind, text, List.drop_succ_cons, List.drop_zero]
  all_goals cases h

theorem read_unifyBreaks_of_error (isQuote : quote.isQuote = true) {m : Misreading}
    (h : read features quote input = .error m) :
    ∃ other, m.Unified other ∧ read features quote (unifyBreaks input) = .error other := by
  have unified : (body features quote input).Unified _ := body_unifyBreaks isQuote input
  have ends := unified.ending
  unfold read at h ⊢
  simp only at h ⊢
  split at h
  · cases h
  next tail cutOff =>
    cases h
    rw [cutOff] at ends
    generalize (body features quote (unifyBreaks input)).ending = ending at ends
    cases ends
    refine ⟨_, ?_, rfl⟩
    exact ⟨rfl, rfl⟩
  next fault culprit misread =>
    cases h
    rw [misread] at ends
    generalize (body features quote (unifyBreaks input)).ending = ending at ends
    cases ends
    refine ⟨_, ?_, rfl⟩
    refine ⟨rfl, ?_⟩
    rw [unified.text, unifyBreaks_cons_of_unbroken (CodeUnit.isBreak_of_isQuote isQuote)]

end Quoted

end LuaTokens
