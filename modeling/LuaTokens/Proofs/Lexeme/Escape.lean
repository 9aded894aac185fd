import LuaTokens.Lexeme.Escape
import LuaTokens.Proofs.Text.Follow
import LuaTokens.Proofs.Text.Utf16

/-! # What an escape looks at

A faultless escape looks at no more than its own units and the one behind them, so it
reads the same before any text that begins alike.
-/

namespace LuaTokens

theorem ByteString.ofUnits_of_ascii {u : CodeUnit} (ascii : u.toNat ≤ 0x7E) :
    ofUnits [u] = [UInt8.ofNat u.toNat] := by
  have short : u.toNat < 0x80 := Nat.lt_of_le_of_lt ascii (by decide)
  simp [ofUnits, Utf16.points, Utf8.encode, short]

namespace Escape

/-- The kinds of escapes, told apart by the unit behind the backslash. -/
inductive Form (features : FeatureSet) (u : CodeUnit) : Prop where
  | control (byte : UInt8) (h : ∀ rest, read features u rest = ⟨.ok [byte], 1⟩)
  | lineBreak (broken : u.isBreak = true)
      (h : ∀ rest, read features u rest = ⟨.ok [0x0A], CodeUnit.breakWidth (u :: rest)⟩)
  | decimal (digit : u.isDigit = true) (h : ∀ rest, read features u rest = decimal (u :: rest))
  | skip (h : ∀ rest,
      read features u rest = ⟨.ok [], 1 + (rest.takeWhile CodeUnit.isSpace).length⟩)
  | hexadecimal (h : ∀ rest, read features u rest = hexadecimal rest)
  | codePoint (h : ∀ rest, read features u rest = codePoint rest)
  | unknown (h : ∀ rest,
      read features u rest = ⟨.error .invalidEscape, Utf16.leadingWidth (u :: rest)⟩)
  | literal (h : ∀ rest, read features u rest = literal (u :: rest))

theorem form (features : FeatureSet) (u : CodeUnit) : Form features u := by
  cases control : control? u with
  | some byte => exact .control byte (fun rest => by simp only [read, control])
  | none =>
      by_cases broken : u.isBreak = true
      · exact .lineBreak broken (fun rest => by simp only [read, control, if_pos broken])
      by_cases digit : u.isDigit = true
      · exact .decimal digit (fun rest => by
          simp only [read, control, if_neg broken, if_pos digit])
      by_cases skip : (u = .of 'z' && .skipEscape ∈ features) = true
      · exact .skip (fun rest => by
          simp only [read, control, if_neg broken, if_neg digit, if_pos skip])
      by_cases hex : (u = .of 'x' && .hexEscapes ∈ features) = true
      · exact .hexadecimal (fun rest => by
          simp only [read, control, if_neg broken, if_neg digit, if_neg skip, if_pos hex])
      by_cases braces : (u = .of 'u' && .codePointEscapes ∈ features) = true
      · exact .codePoint (fun rest => by
          simp only [read, control, if_neg broken, if_neg digit, if_neg skip, if_neg hex,
            if_pos braces])
      by_cases strict : (!isSelf u && .strictEscapes ∈ features) = true
      · exact .unknown (fun rest => by
          simp only [read, control, if_neg broken, if_neg digit, if_neg skip, if_neg hex,
            if_neg braces, if_pos strict])
      · exact .literal (fun rest => by
          simp only [read, control, if_neg broken, if_neg digit, if_neg skip, if_neg hex,
            if_neg braces, if_neg strict])

theorem control?_of_isBreak {u : CodeUnit} (broken : u.isBreak = true) : control? u = none := by
  simp only [CodeUnit.isBreak, Bool.or_eq_true, beq_iff_eq] at broken
  rcases broken with rfl | rfl <;> decide

section Parts

theorem exists_parts (tail : List CodeUnit) : ∃ zeros significant more,
    tail = zeros ++ (significant ++ more) ∧ (∀ u ∈ zeros, (u == .of '0') = true)
      ∧ Stops (· == .of '0') (significant ++ more)
      ∧ (∀ u ∈ significant, u.isHexDigit = true) ∧ Stops CodeUnit.isHexDigit more := by
  have digits : (tail.dropWhile (· == .of '0')).takeWhile CodeUnit.isHexDigit
      ++ (tail.dropWhile (· == .of '0')).dropWhile CodeUnit.isHexDigit
        = tail.dropWhile (· == .of '0') := List.takeWhile_append_dropWhile
  refine ⟨tail.takeWhile (· == .of '0'), _, _, ?_, ?_, digits.symm ▸ stops_dropWhile tail,
    fun u member => List.mem_takeWhile_imp member, stops_dropWhile _⟩
  · rw [digits, List.takeWhile_append_dropWhile]
  · intro u member
    exact List.mem_takeWhile_imp (p := fun v : CodeUnit => v == .of '0') member

theorem isHexDigit_parts {zeros significant : List CodeUnit}
    (leading : ∀ u ∈ zeros, (u == .of '0') = true) (all : ∀ u ∈ significant, u.isHexDigit = true) :
    ∀ u ∈ zeros ++ significant, u.isHexDigit = true := by
  intro u member
  rcases List.mem_append.1 member with zero | digit
  · obtain rfl : u = .of '0' := by simpa using leading u zero
    decide
  · exact all u digit

/-- What a number in braces is, given what is behind its digits. -/
def closing (number count : Nat) (next? : Option CodeUnit) : Reading :=
  if next? = some (.of '\x7d') then
    ⟨if number ≤ 0x10FFFF then .ok (Utf8.encode number) else .error .tooLargeCodePoint, count + 1⟩
  else if next?.any CodeUnit.isQuote then ⟨.error (.missingInEscape '\x7d'), count⟩
  else ⟨.error .hexDigitExpected, count + 1⟩

theorem codePoint_parts {zeros significant more : List CodeUnit}
    (leading : ∀ u ∈ zeros, (u == .of '0') = true)
    (first : Stops (· == .of '0') (significant ++ more))
    (all : ∀ u ∈ significant, u.isHexDigit = true) (stops : Stops CodeUnit.isHexDigit more) :
    codePoint (.of '\x7b' :: (zeros ++ (significant ++ more))) =
      if zeros ++ significant = [] then ⟨.error .hexDigitExpected, 3⟩
      else if 6 < significant.length then ⟨.error .tooLargeCodePoint, 2 + zeros.length + 7⟩
      else closing (CodeUnit.numberOf 16 significant) (2 + (zeros ++ significant).length) more.head? := by
  have head : Stops (· == .of '0') significant := by
    cases significant with
    | nil => exact Stops.nil
    | cons u others => exact first
  have run : (zeros ++ (significant ++ more)).takeWhile CodeUnit.isHexDigit = zeros ++ significant := by
    rw [← List.append_assoc]
    exact stops.takeWhile_append (isHexDigit_parts leading all)
  have behind : (CodeUnit.of '\x7b' :: (zeros ++ (significant ++ more))).drop
      (1 + (zeros ++ significant).length) = more := by
    rw [Nat.add_comm, List.drop_succ_cons, ← List.append_assoc, List.drop_left]
  have width : 2 + (zeros ++ significant).length + 1 = 3 + (zeros ++ significant).length := by omega
  simp only [codePoint, closing, List.head?_cons, List.drop_succ_cons, List.drop_zero, run, behind,
    head.takeWhile_append leading, head.dropWhile_append leading, ne_eq, not_true_eq_false,
    if_false, width]

end Parts

section Lookahead

variable {text rest other : List CodeUnit} {bytes : ByteString}

theorem decimal_append (width : (decimal (text ++ rest)).width = text.length)
    (same : other.head? = rest.head?) : decimal (text ++ other) = decimal (text ++ rest) := by
  have digits : ((text ++ rest).take 3).takeWhile CodeUnit.isDigit = text := by
    have front := (List.takeWhile_prefix CodeUnit.isDigit).trans (List.take_prefix 3 (text ++ rest))
    rw [List.prefix_iff_eq_take.1 front]
    simp only [decimal] at width
    rw [width, List.take_left']
    rfl
  suffices now : ((text ++ other).take 3).takeWhile CodeUnit.isDigit = text by
    simp only [decimal, digits, now]
  have short : text.length ≤ 3 := by
    rw [← digits]
    exact (List.takeWhile_prefix _).length_le.trans (List.length_take_le _ _)
  rw [List.take_append, List.take_of_length_le short] at digits ⊢
  have all : ∀ u ∈ text, u.isDigit = true := by
    intro u member
    rw [← digits] at member
    exact List.mem_takeWhile_imp member
  have stops : Stops CodeUnit.isDigit (other.take (3 - text.length)) := by
    apply (stops_of_takeWhile_append digits).of_head_eq
    rw [List.head?_take, List.head?_take, same]
  exact stops.takeWhile_append all

theorem two_le_width_hexadecimal (input : List CodeUnit) : 2 ≤ (hexadecimal input).width := by
  unfold hexadecimal
  split
  · split
    · exact Nat.le_refl 2
    · split <;> exact Nat.le_succ 2
  · exact Nat.le_succ 2

theorem hexadecimal_append (width : (hexadecimal (text ++ rest)).width = text.length + 1)
    (same : other.head? = rest.head?) : hexadecimal (text ++ other) = hexadecimal (text ++ rest) := by
  match text with
  | [] =>
      have := two_le_width_hexadecimal ([] ++ rest)
      rw [width, List.length_nil] at this
      omega
  | [high] =>
      cases rest with
      | nil => cases width
      | cons low tail =>
          obtain ⟨more, rfl⟩ := List.head?_eq_some_iff.1 same
          rfl
  | _ :: _ :: _ => rfl

theorem literal_append (nonempty : text ≠ [])
    (width : (literal (text ++ rest)).width = text.length)
    (same : other.head? = rest.head?) : literal (text ++ other) = literal (text ++ rest) := by
  have now := Utf16.leadingWidth_append nonempty same
  simp only [literal] at width
  simp only [literal, now, width, List.take_left]

/-- What a code point in braces stands for, given its digits. -/
def bracedOutcome (digits : List CodeUnit) : Reading :=
  let zeros := digits.takeWhile (· == .of '0')
  let significant := digits.dropWhile (· == .of '0')
  let value := CodeUnit.numberOf 16 significant
  if digits = [] then ⟨.error .hexDigitExpected, 3⟩
  else if 6 < significant.length then ⟨.error .tooLargeCodePoint, 2 + zeros.length + 7⟩
  else ⟨if value ≤ 0x10FFFF then .ok (Utf8.encode value) else .error .tooLargeCodePoint,
    3 + digits.length⟩

theorem codePoint_braced {digits : List CodeUnit} (all : ∀ u ∈ digits, u.isHexDigit = true)
    (tail : List CodeUnit) :
    codePoint (.of '\x7b' :: (digits ++ .of '\x7d' :: tail)) = bracedOutcome digits := by
  have stops : Stops CodeUnit.isHexDigit (.of '\x7d' :: tail) := by
    intro u first
    cases first
    decide
  have run : (digits ++ .of '\x7d' :: tail).takeWhile CodeUnit.isHexDigit = digits :=
    stops.takeWhile_append all
  simp only [codePoint, List.head?_cons, List.drop_succ_cons, List.drop_zero, run]
  rw [Nat.add_comm 1 digits.length, List.drop_succ_cons, List.drop_left]
  simp [bracedOutcome]

theorem braced_of_codePoint {input : List CodeUnit} (ok : (codePoint input).outcome = .ok bytes) :
    ∃ digits tail, input = .of '\x7b' :: (digits ++ .of '\x7d' :: tail)
      ∧ ∀ u ∈ digits, u.isHexDigit = true := by
  simp only [codePoint] at ok
  split at ok
  · cases ok
  next brace =>
    obtain ⟨afterBrace, rfl⟩ := List.head?_eq_some_iff.1 (Classical.not_not.1 brace)
    simp only [List.drop_succ_cons, List.drop_zero] at ok
    split at ok
    · cases ok
    split at ok
    · cases ok
    split at ok
    next closes =>
      rw [Nat.add_comm, List.drop_succ_cons] at closes
      obtain ⟨tail, behind⟩ := List.head?_eq_some_iff.1 closes
      refine ⟨afterBrace.takeWhile CodeUnit.isHexDigit, tail, ?_, fun u member =>
        List.mem_takeWhile_imp member⟩
      have whole := List.take_append_drop (afterBrace.takeWhile CodeUnit.isHexDigit).length afterBrace
      rw [behind, ← List.prefix_iff_eq_take.1 (List.takeWhile_prefix _)] at whole
      rw [whole]
    split at ok <;> cases ok

theorem width_bracedOutcome {digits : List CodeUnit} (ok : (bracedOutcome digits).outcome = .ok bytes) :
    (bracedOutcome digits).width = 3 + digits.length := by
  unfold bracedOutcome at ok ⊢
  simp only at ok ⊢
  split at ok
  · cases ok
  next filled =>
    split at ok
    · cases ok
    next short => rw [if_neg filled, if_neg short]

/-- Too many digits are too many whatever follows the seventh. -/
theorem codePoint_of_many {zeros significant : List CodeUnit}
    (leading : ∀ u ∈ zeros, (u == .of '0') = true) (first : Stops (· == .of '0') significant)
    (all : ∀ u ∈ significant, u.isHexDigit = true) (many : 6 < significant.length)
    (rest : List CodeUnit) :
    codePoint (.of '\x7b' :: (zeros ++ (significant ++ rest)))
      = ⟨.error .tooLargeCodePoint, 2 + zeros.length + 7⟩ := by
  obtain ⟨u, more, rfl⟩ : ∃ u more, significant = u :: more := by
    apply List.exists_cons_of_ne_nil
    rintro rfl
    cases many
  have digits : ∀ v ∈ u :: more ++ rest.takeWhile CodeUnit.isHexDigit, v.isHexDigit = true := by
    intro v member
    rcases List.mem_append.1 member with inside | later
    · exact all v inside
    · exact List.mem_takeWhile_imp later
  have leads : Stops (· == .of '0') (u :: more ++ rest.takeWhile CodeUnit.isHexDigit
      ++ rest.dropWhile CodeUnit.isHexDigit) := first
  have parts := codePoint_parts leading leads digits (stops_dropWhile rest)
  rw [List.append_assoc, List.takeWhile_append_dropWhile, if_neg (by simp), if_pos] at parts
  · exact parts
  · rw [List.length_append]
    omega

theorem le_width_closing (number count : Nat) (next? : Option CodeUnit) :
    count ≤ (closing number count next?).width := by
  unfold closing
  split
  · exact Nat.le_succ count
  split
  · exact Nat.le_refl count
  · exact Nat.le_succ count

theorem two_le_width_codePoint (input : List CodeUnit) : 2 ≤ (codePoint input).width := by
  simp only [codePoint]
  split
  · exact Nat.le_refl 2
  split
  · exact Nat.le_succ 2
  split
  · simp only
    omega
  split
  · simp only
    omega
  split
  · simp only
    omega
  · simp only
    omega

theorem codePoint_append (width : (codePoint (text ++ rest)).width = text.length + 1)
    (same : other.head? = rest.head?) : codePoint (text ++ other) = codePoint (text ++ rest) := by
  have long := two_le_width_codePoint (text ++ rest)
  obtain ⟨u, text, rfl⟩ : ∃ u more, text = u :: more := by
    apply List.exists_cons_of_ne_nil
    rintro rfl
    rw [List.length_nil] at width
    omega
  by_cases brace : u = .of '\x7b'
  · subst brace
    obtain ⟨zeros, significant, more, parts, leading, first, all, stops⟩ := exists_parts (text ++ rest)
    have old := codePoint_parts leading first all stops
    rw [← parts] at old
    by_cases within : (zeros ++ significant).length ≤ text.length
    · -- The digits end in the text, and what ends them begins as before.
      rw [← List.append_assoc] at parts
      obtain ⟨tail, rfl⟩ : zeros ++ significant <+: text :=
        List.prefix_of_prefix_length_le ⟨more, parts.symm⟩ (List.prefix_append text rest) within
      rw [List.append_assoc, List.append_cancel_left_eq] at parts
      have behind : (tail ++ other).head? = more.head? := by
        rw [← parts, List.head?_append, List.head?_append, same]
      have leads : Stops (· == .of '0') (significant ++ (tail ++ other)) :=
        first.of_head_eq (by rw [List.head?_append, behind, ← List.head?_append])
      have now := codePoint_parts leading leads all (stops.of_head_eq behind)
      rw [behind, ← old] at now
      rw [List.cons_append, List.cons_append, ← now]
      simp only [List.append_assoc]
    · -- More digits than the escape takes: there are too many.
      have length := width
      rw [List.cons_append, old, if_neg (by rintro none; simp [none] at within)] at length
      split at length
      next many =>
        simp only [List.length_cons] at length
        have seven : (significant.take 7).length = 7 := by rw [List.length_take]; omega
        have text_eq : text = zeros ++ significant.take 7 := by
          have front := congrArg (List.take text.length) parts
          rw [List.take_left, show text.length = zeros.length + 7 by omega, List.take_length_add_append,
            List.take_append_of_le_length (by omega)] at front
          exact front
        have leads : Stops (· == .of '0') (significant.take 7) :=
          first.of_append.of_head_eq (by rw [List.head?_take, if_neg (by decide)])
        have digits : ∀ u ∈ significant.take 7, u.isHexDigit = true :=
          fun u member => all u (List.mem_of_mem_take member)
        rw [text_eq]
        simp only [List.cons_append, List.append_assoc]
        rw [codePoint_of_many leading leads digits (by omega), codePoint_of_many leading leads digits (by omega)]
      next few =>
        have closed := le_width_closing (CodeUnit.numberOf 16 significant)
          (2 + (zeros ++ significant).length) more.head?
        rw [length, List.length_cons] at closed
        omega
  · simp [codePoint, brace]

/-- An escape that does not end the source reads the same before any text that begins
    alike. -/
theorem read_append {features : FeatureSet} {u : CodeUnit}
    (width : (read features u (text ++ rest)).width = text.length + 1)
    (same : other.head? = rest.head?) :
    read features u (text ++ other) = read features u (text ++ rest) := by
  cases form features u with
  | control byte h => rw [h, h]
  | lineBreak broken h =>
      have now := CodeUnit.breakWidth_append_of_head? (List.cons_ne_nil u text) same
      rw [h, h]
      exact congrArg (Reading.mk _) now
  | decimal digit h =>
      rw [h] at width
      rw [h, h]
      exact decimal_append (show (Escape.decimal (u :: text ++ rest)).width = (u :: text).length from width) same
  | skip h =>
      rw [h] at width
      simp only at width
      have run : (text ++ rest).takeWhile CodeUnit.isSpace = text := by
        rw [List.prefix_iff_eq_take.1 (List.takeWhile_prefix _),
          show ((text ++ rest).takeWhile CodeUnit.isSpace).length = text.length by omega,
          List.take_left]
      have all : ∀ v ∈ text, v.isSpace = true := by
        intro v member
        rw [← run] at member
        exact List.mem_takeWhile_imp member
      have now := ((stops_of_takeWhile_append run).of_head_eq same).takeWhile_append all
      rw [h, h, run, now]
  | hexadecimal h =>
      rw [h] at width
      rw [h, h]
      exact hexadecimal_append width same
  | codePoint h =>
      rw [h] at width
      rw [h, h]
      exact codePoint_append width same
  | unknown h =>
      have now := Utf16.leadingWidth_append (List.cons_ne_nil u text) same
      rw [h, h]
      exact congrArg (Reading.mk _) now
  | literal h =>
      rw [h] at width
      rw [h, h]
      exact literal_append (List.cons_ne_nil u text) width same

end Lookahead

section Width

variable {bytes : ByteString}

theorem width_decimal_le (input : List CodeUnit) : (decimal input).width ≤ input.length :=
  (List.takeWhile_prefix _).length_le.trans (List.take_prefix 3 input).length_le

theorem width_decimal_pos {u : CodeUnit} (digit : u.isDigit = true) (rest : List CodeUnit) :
    0 < (decimal (u :: rest)).width := by
  simp [decimal, digit]

theorem width_hexadecimal {input : List CodeUnit} (ok : (hexadecimal input).outcome = .ok bytes) :
    (hexadecimal input).width = 3 ∧ 2 ≤ input.length := by
  unfold hexadecimal at ok ⊢
  split at ok
  next high low tail =>
    split at ok
    · cases ok
    next highDigit =>
      split at ok
      · cases ok
      next lowDigit =>
        simp only [if_neg highDigit, if_neg lowDigit]
        simp
  · cases ok

theorem width_codePoint_le {input : List CodeUnit} (ok : (codePoint input).outcome = .ok bytes) :
    (codePoint input).width ≤ 1 + input.length := by
  obtain ⟨digits, tail, rfl, all⟩ := braced_of_codePoint ok
  rw [codePoint_braced all] at ok ⊢
  rw [width_bracedOutcome ok]
  simp only [List.length_cons, List.length_append]
  omega

theorem width_pos (features : FeatureSet) (u : CodeUnit) (rest : List CodeUnit) :
    0 < (read features u rest).width := by
  cases form features u with
  | control byte h => simp [h]
  | lineBreak broken h =>
      rw [h]
      exact CodeUnit.breakWidth_pos broken rest
  | decimal digit h =>
      rw [h]
      exact width_decimal_pos digit rest
  | skip h =>
      rw [h]
      exact Nat.add_pos_left Nat.one_pos _
  | hexadecimal h =>
      rw [h]
      exact Nat.lt_of_lt_of_le Nat.two_pos (two_le_width_hexadecimal rest)
  | codePoint h =>
      rw [h]
      exact Nat.lt_of_lt_of_le Nat.two_pos (two_le_width_codePoint rest)
  | unknown h =>
      rw [h]
      exact Utf16.leadingWidth_pos u rest
  | literal h =>
      rw [h]
      exact Utf16.leadingWidth_pos u rest

theorem width_le_of_ok {features : FeatureSet} {u : CodeUnit} {rest : List CodeUnit}
    (ok : (read features u rest).outcome = .ok bytes) :
    (read features u rest).width ≤ (u :: rest).length := by
  cases form features u with
  | control byte h => simp [h]
  | lineBreak broken h =>
      rw [h]
      exact CodeUnit.breakWidth_le _
  | decimal digit h =>
      rw [h]
      exact width_decimal_le _
  | skip h =>
      have := (List.takeWhile_prefix (l := rest) CodeUnit.isSpace).length_le
      rw [h]
      simp only [List.length_cons]
      omega
  | hexadecimal h =>
      rw [h] at ok ⊢
      have := width_hexadecimal ok
      simp only [List.length_cons]
      omega
  | codePoint h =>
      rw [h] at ok ⊢
      have := width_codePoint_le ok
      simp only [List.length_cons]
      omega
  | unknown h =>
      rw [h] at ok
      cases ok
  | literal h =>
      rw [h]
      exact Utf16.leadingWidth_le _

end Width

section Faults

theorem inEscape_of_codePoint {input : List CodeUnit} {fault : Fault}
    (error : (codePoint input).outcome = .error fault) : fault.inEscape = true := by
  simp only [codePoint] at error
  split at error
  · cases error
    rfl
  split at error
  · cases error
    rfl
  split at error
  · cases error
    rfl
  split at error
  · split at error <;> cases error
    rfl
  split at error <;> cases error <;> rfl

theorem inEscape_of_error {features : FeatureSet} {u : CodeUnit} {rest : List CodeUnit} {fault : Fault}
    (error : (read features u rest).outcome = .error fault) : fault.inEscape = true := by
  cases form features u with
  | control byte h => rw [h] at error; cases error
  | lineBreak broken h => rw [h] at error; cases error
  | decimal digit h =>
      rw [h, Escape.decimal] at error
      simp only at error
      split at error <;> cases error
      rfl
  | skip h => rw [h] at error; cases error
  | hexadecimal h =>
      rw [h] at error
      unfold Escape.hexadecimal at error
      split at error
      · split at error
        · cases error
          rfl
        split at error <;> cases error
        rfl
      · cases error
        rfl
  | codePoint h =>
      rw [h] at error
      exact inEscape_of_codePoint error
  | unknown h =>
      rw [h] at error
      cases error
      rfl
  | literal h => rw [h] at error; cases error

end Faults

section Self

theorem literal_of_ascii {u : CodeUnit} (ascii : u.toNat ≤ 0x7E) (rest : List CodeUnit) :
    literal (u :: rest) = ⟨.ok [UInt8.ofNat u.toNat], 1⟩ := by
  simp only [literal, Utf16.leadingWidth_of_ascii ascii, List.take_succ_cons, List.take_zero,
    ByteString.ofUnits_of_ascii ascii]

theorem read_self {features : FeatureSet} {u : CodeUnit} (self : isSelf u = true) (rest : List CodeUnit) :
    read features u rest = ⟨.ok [UInt8.ofNat u.toNat], 1⟩ := by
  have member : u = .of '\\' ∨ u = .of '"' ∨ u = .of '\'' := by
    simpa [isSelf, CodeUnit.isQuote] using self
  have other : control? u = none ∧ u.isBreak = false ∧ u.isDigit = false ∧ u ≠ .of 'z' ∧ u ≠ .of 'x'
      ∧ u ≠ .of 'u' ∧ u.toNat ≤ 0x7E := by
    rcases member with rfl | rfl | rfl <;> decide
  obtain ⟨control, unbroken, digit, skip, hex, braces, ascii⟩ := other
  simp only [read, control, unbroken, digit, skip, hex, braces, self, literal_of_ascii ascii,
    decide_false, Bool.false_and, Bool.not_true, Bool.false_eq_true, if_false]

end Self

end Escape

end LuaTokens
