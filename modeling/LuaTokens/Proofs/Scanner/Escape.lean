import LuaTokens.Proofs.Lexeme.Escape
import LuaTokens.Proofs.Scanner.Run

/-! # Scanning escapes

Escapes are where the scanner computes in words and moves by counts that were not
peeked at. Digits are classified before their values are taken, at most three decimal
and six hexadecimal ones are added up, and a count that may be too large is clamped.
-/

namespace LuaTokens

/-- The units of the code point at the scanner. -/
def Scanner.charWidth (s : Scanner) : Nat :=
  match s.peek, s.peekAt 1 with
  | some high, some low => if high.isHighSurrogate && low.isLowSurrogate then 2 else 1
  | some _, none => 1
  | none, _ => 0

namespace Scan

/-- The value of a hexadecimal digit, computed in its low byte. -/
def hexValue (u : CodeUnit) : Scan Nat :=
  let byte := u.toNat % 2 ^ 8
  if 0x30 ≤ byte && byte ≤ 0x39 then subtract byte 0x30
  else if 0x41 ≤ byte && byte ≤ 0x46 then do
    let letter ← subtract byte 0x41
    word 8 (letter + 10)
  else do
    let letter ← subtract byte 0x61
    word 8 (letter + 10)

/-- Add up to `count` decimal digits to a number. -/
def decimalDigits : Nat → Nat → Scan Nat
  | 0, number => return number
  | count + 1, number => do
      match (← ask Scanner.peek).filter CodeUnit.isDigit with
      | none => return number
      | some u =>
          let scaled ← word 32 (number * 10)
          let digit ← subtract u.toNat 0x30
          let next ← word 32 (scaled + digit)
          advance 1
          decimalDigits count next

section Escapes

variable (chunk : Option String) (escape : Position)

def decimalEscape : Scan ByteString := do
  let number ← decimalDigits 3 0
  if number ≤ 255 then return [UInt8.ofNat number] else fail chunk .decimalEscapeTooLarge escape

def hexEscape : Scan ByteString := do
  let high? ← ask (·.peekAt 1)
  let low? ← ask (·.peekAt 2)
  match high?, low? with
  | some high, some low =>
      if !high.isHexDigit || !low.isHexDigit then
        advance (if high.isHexDigit then 3 else 2)
        fail chunk .hexDigitExpected escape
      else
        advance 3
        let upper ← hexValue high
        let lower ← hexValue low
        return [UInt8.ofNat upper <<< 4 ||| UInt8.ofNat lower]
  | _, _ =>
      advanceClamped 3
      fail chunk .hexDigitExpected escape

/-- Add up hexadecimal digits, at most six of them. -/
def codePointDigits : Scan Nat :=
  loop (fun (number, count) => do
    match (← ask Scanner.peek).filter CodeUnit.isHexDigit with
    | none => return .inr number
    | some u =>
        advance 1
        if 6 < count + 1 then fail chunk .tooLargeCodePoint escape
        else
          let scaled ← word 32 (number * 16)
          let digit ← hexValue u
          let next ← word 32 (scaled + digit)
          return .inl (next, count + 1)) (0, 0)

/-- Move over the brace behind the digits of a number. -/
def closeCodePoint (number : Nat) : Scan ByteString := do
  if ← ask (·.isAt 0 '\x7d') then
    advance 1
    if number ≤ 0x10FFFF then return Utf8.encode number
    else fail chunk .tooLargeCodePoint escape
  else if (← ask Scanner.peek).any CodeUnit.isQuote then
    fail chunk (.missingInEscape '\x7d') escape
  else
    advanceClamped 1
    fail chunk .hexDigitExpected escape

def codePointEscape : Scan ByteString := do
  advance 1
  if ← ask (·.isAt 0 '\x7b') then
    advance 1
    if (← ask Scanner.peek).any CodeUnit.isHexDigit then
      advanceWhile (· == .of '0')
      let number ← codePointDigits chunk escape
      closeCodePoint chunk escape number
    else
      advanceClamped 1
      fail chunk .hexDigitExpected escape
  else
    advanceClamped 1
    fail chunk (.missingInEscape '\x7b') escape

end Escapes

/-- Move over what `u` begins behind a backslash. -/
def escaped (features : FeatureSet) (chunk : Option String) (start : Position) (u : CodeUnit) :
    Scan ByteString := do
  match Escape.control? u with
  | some byte =>
      advance 1
      return [byte]
  | none =>
      if u.isBreak then
        let _ ← consumeBreak
        return [0x0A]
      else if u.isDigit then decimalEscape chunk start
      else if u = .of 'z' && .skipEscape ∈ features then
        advance 1
        skipSpace
        return []
      else if u = .of 'x' && .hexEscapes ∈ features then hexEscape chunk start
      else if u = .of 'u' && .codePointEscapes ∈ features then codePointEscape chunk start
      else if !Escape.isSelf u && .strictEscapes ∈ features then
        advance (← ask Scanner.charWidth)
        fail chunk .invalidEscape start
      else
        let width ← ask Scanner.charWidth
        let first ← ask (·.position.offset)
        let point ← slice first (first + width)
        advance width
        return .ofUnits point

/-- Move over the escape at the scanner, backslash and all. Nothing is behind a last
    backslash. -/
def escape (features : FeatureSet) (chunk : Option String) : Scan ByteString := do
  let start ← ask Scanner.position
  advance 1
  match ← ask Scanner.peek with
  | none => return []
  | some u => escaped features chunk start u

end Scan

open Scanner

namespace Scan

variable {s opening : Scanner} {chunk : Option String}

theorem isBreak_of_zero {u : CodeUnit} (zero : (u == .of '0') = true) : u.isBreak = false := by
  obtain rfl : u = .of '0' := by simpa using zero
  decide

theorem charWidth_eq (s : Scanner) : s.charWidth = Utf16.leadingWidth s.ahead := by
  rw [charWidth, peek_eq, peekAt_eq]
  match s.ahead with
  | [] => rfl
  | [_] => rfl
  | _ :: _ :: _ => rfl

theorem returns_hexValue {u : CodeUnit} (digit : u.isHexDigit = true) (s : Scanner) :
    (hexValue u).Returns s fun value after => value = u.digitValue ∧ after = s := by
  have bounds := CodeUnit.toNat_of_isHexDigit digit
  have low : u.toNat % 2 ^ 8 = u.toNat := Nat.mod_eq_of_lt (by omega)
  simp only [hexValue, low, Bool.and_eq_true, decide_eq_true_eq]
  rcases bounds with ⟨_, _, value⟩ | ⟨_, _, value⟩ | ⟨_, _, value⟩
  · rw [if_pos (by omega), value]
    exact returns_subtract (by omega) s
  · rw [if_neg (by omega), if_pos (by omega), value]
    apply Returns.bind (returns_subtract (by omega) s)
    rintro _ _ ⟨rfl, rfl⟩
    exact returns_word (by omega) _
  · rw [if_neg (by omega), if_neg (by omega), value]
    apply Returns.bind (returns_subtract (by omega) s)
    rintro _ _ ⟨rfl, rfl⟩
    exact returns_word (by omega) _

theorem returns_decimalDigits (count number : Nat) (small : (number + 1) * 10 ^ count ≤ 2 ^ 32)
    (s : Scanner) : (decimalDigits count number).Returns s fun value after =>
      value = ((s.ahead.take count).takeWhile CodeUnit.isDigit).foldl
          (fun number digit => number * 10 + digit.digitValue) number
        ∧ Moved s ((s.ahead.take count).takeWhile CodeUnit.isDigit) after := by
  induction count generalizing number s with
  | zero => exact ensures_pure ⟨rfl, Moved.refl s⟩
  | succ count ih =>
      apply ensures_ask_bind
      rw [peek_eq]
      cases ahead : s.ahead with
      | nil => exact ensures_pure ⟨rfl, Moved.refl s⟩
      | cons u rest =>
          cases digit : u.isDigit with
          | false =>
              simp only [List.head?_cons, Option.filter, digit, List.take_succ_cons,
                List.takeWhile_cons, Bool.false_eq_true, if_false]
              exact ensures_pure ⟨rfl, Moved.refl s⟩
          | true =>
              have bounds := CodeUnit.toNat_of_isDigit digit
              have power : 1 ≤ 10 ^ count := Nat.one_le_pow _ _ (by omega)
              rw [Nat.pow_succ] at small
              have scaled : (number + 1) * 10 ≤ 2 ^ 32 := by
                refine Nat.le_trans ?_ small
                rw [Nat.mul_comm (10 ^ count), ← Nat.mul_assoc]
                exact Nat.le_mul_of_pos_right _ power
              simp only [List.head?_cons, Option.filter, digit, List.take_succ_cons,
                List.takeWhile_cons, if_true, List.foldl_cons]
              apply Returns.bind (returns_word (by omega) s)
              rintro _ _ ⟨rfl, rfl⟩
              apply Returns.bind (returns_subtract bounds.1 _)
              rintro _ _ ⟨rfl, rfl⟩
              apply Returns.bind (returns_word (by omega) _)
              rintro _ now ⟨rfl, rfl⟩
              have unbroken := CodeUnit.isBreak_eq_false CodeUnit.isDigit_spaces digit
              apply Returns.bind (returns_advance_unit ahead unbroken)
              rintro _ middle ⟨step, rfl⟩
              have smaller : (number * 10 + (u.toNat - 0x30) + 1) * 10 ^ count ≤ 2 ^ 32 := by
                refine Nat.le_trans ?_ small
                rw [Nat.mul_comm (10 ^ count), ← Nat.mul_assoc]
                exact Nat.mul_le_mul_right _ (by omega)
              refine (ih _ smaller middle).mono ?_
              rintro value after ⟨rfl, moved⟩
              rw [CodeUnit.digitValue_of_isDigit digit]
              exact ⟨rfl, step.trans moved (Seam.of_forall (by simpa using unbroken) _)⟩

theorem ensures_codePointDigits {count : Nat} (opened : Shifted opening count s) :
    (codePointDigits chunk opening.position).Ensures s
      (fun number after => number = CodeUnit.numberOf 16 (s.ahead.takeWhile CodeUnit.isHexDigit)
        ∧ Moved s (s.ahead.takeWhile CodeUnit.isHexDigit) after
        ∧ (s.ahead.takeWhile CodeUnit.isHexDigit).length ≤ 6)
      (fun d after => d = diagnostic chunk .tooLargeCodePoint opening after ∧ Shifted s 7 after
        ∧ 6 < (s.ahead.takeWhile CodeUnit.isHexDigit).length) := by
  apply ensures_loop fun state now => ∃ text, Moved s text now
    ∧ (∀ u ∈ text, u.isHexDigit = true) ∧ text.length ≤ 6
    ∧ state = (CodeUnit.numberOf 16 text, text.length)
  · rintro _ now ⟨text, moved, all, short, rfl⟩
    apply ensures_ask_bind
    rw [peek_eq]
    cases next : now.ahead.head?.filter CodeUnit.isHexDigit with
    | none =>
        apply ensures_pure
        rw [takeWhile_of_moved moved all (stops_of_head?_filter next)]
        exact ⟨rfl, moved, short⟩
    | some u =>
        obtain ⟨first, digit⟩ := Option.filter_eq_some_iff.1 next
        obtain ⟨rest, ahead⟩ := List.head?_eq_some_iff.1 first
        have digits : ∀ v ∈ text ++ [u], v.isHexDigit = true :=
          forall_mem_append all (by simpa using digit)
        have unbroken : ∀ v ∈ text ++ [u], v.isBreak = false := fun v member =>
          CodeUnit.isBreak_eq_false CodeUnit.isHexDigit_spaces (digits v member)
        have solid := unbroken u (by simp)
        apply Returns.bind (returns_advance_unit ahead solid)
        rintro _ after ⟨step, -⟩
        have whole := moved.concat step solid
        by_cases long : 6 < text.length + 1
        · have shifted := whole.shifted unbroken
          have seven : (text ++ [u]).length = 7 := by
            rw [List.length_append, List.length_singleton]
            omega
          rw [seven] at shifted
          rw [if_pos long]
          refine ensures_fail_shifted (opened.trans shifted) ⟨rfl, shifted, ?_⟩
          rw [whole.ahead, List.takeWhile_append_of_pos digits, List.length_append, seven]
          omega
        · have bound := CodeUnit.numberOf_lt digits
          have top : 16 ^ (text ++ [u]).length ≤ 16 ^ 6 := by
            apply Nat.pow_le_pow_right (by omega)
            rw [List.length_append, List.length_singleton]
            omega
          rw [CodeUnit.numberOf_concat] at bound
          rw [if_neg long]
          apply Returns.bind (returns_word (by omega) after)
          rintro _ _ ⟨rfl, rfl⟩
          apply Returns.bind (returns_hexValue digit _)
          rintro _ _ ⟨rfl, rfl⟩
          apply Returns.bind (returns_word (by omega) _)
          rintro _ _ ⟨rfl, rfl⟩
          refine ⟨⟨text ++ [u], whole, digits, ?_, ?_⟩, step.remaining_lt (List.cons_ne_nil _ _)⟩
          · rw [List.length_append, List.length_singleton]
            omega
          · rw [CodeUnit.numberOf_concat, List.length_append, List.length_singleton]
  · exact ⟨[], Moved.refl s, by simp, by simp, rfl⟩

theorem byte_of_hexDigits : ∀ high < 16, ∀ low < 16,
    UInt8.ofNat high <<< 4 ||| UInt8.ofNat low = UInt8.ofNat (high * 16 + low) := by
  decide

/-- The scanner has moved over a faultless escape. -/
def ReadsEscape (s : Scanner) (reading : Escape.Reading) (bytes : ByteString) (after : Scanner) : Prop :=
  reading.outcome = .ok bytes ∧ Moved s (s.ahead.take reading.width) after
    ∧ Seam (s.ahead.take reading.width) after.ahead

/-- The scanner has moved over a faulty escape, as far as there is one, and reports it from
    the backslash on. -/
def MisreadsEscape (chunk : Option String) (opening s : Scanner) (reading : Escape.Reading)
    (d : Diagnostic) (after : Scanner) : Prop :=
  ∃ reason, reading.outcome = .error reason ∧ Shifted s (min reading.width s.remaining) after
    ∧ d = diagnostic chunk reason opening after

/-- The scan from behind the backslash finds what the reader of escapes finds. -/
def FindsEscape (scan : Scan ByteString) (chunk : Option String) (opening s : Scanner)
    (reading : Escape.Reading) : Prop :=
  scan.Ensures s (ReadsEscape s reading) (MisreadsEscape chunk opening s reading)

theorem readsEscape_of_shifted {after : Scanner} {reading : Escape.Reading} {bytes : ByteString}
    {count : Nat} (shifted : Shifted s count after) (ok : reading.outcome = .ok bytes)
    (width : reading.width = count) (solid : ∀ v ∈ s.ahead.take count, v.isBreak = false) :
    ReadsEscape s reading bytes after := by
  have fits := shifted.count_le
  have length : (s.ahead.take count).length = count := by
    rw [List.length_take, length_ahead]
    omega
  refine ⟨ok, ?_, ?_⟩
  · rw [width]
    rw [← length] at shifted
    exact shifted.moved (List.take_append_drop count s.ahead).symm solid
  · rw [width]
    exact Seam.of_forall solid _

section Parts

variable (opened : Shifted opening 1 s)

include opened

theorem misreadsEscape_of_shifted {after : Scanner} {reading : Escape.Reading} {reason : Fault}
    {count : Nat} {ok : ByteString → Scanner → Prop} (shifted : Shifted s count after)
    (error : reading.outcome = .error reason) (width : count = min reading.width s.remaining) :
    (fail chunk reason opening.position : Scan ByteString).Ensures after ok
      (MisreadsEscape chunk opening s reading) :=
  ensures_fail_shifted (opened.trans shifted) ⟨reason, error, width ▸ shifted, rfl⟩

theorem misreadsEscape_of_clamped {middle : Scanner} {reading : Escape.Reading} {reason : Fault}
    {count more : Nat} {ok : ByteString → Scanner → Prop} (shifted : Shifted s count middle)
    (error : reading.outcome = .error reason) (width : reading.width = count + more) :
    (do advanceClamped more; fail chunk reason opening.position : Scan ByteString).Ensures middle ok
      (MisreadsEscape chunk opening s reading) := by
  apply Returns.bind (returns_advanceClamped more middle)
  intro _ after step
  have left := shifted.remaining_eq
  have fits := shifted.count_le
  exact misreadsEscape_of_shifted opened (shifted.trans step) error (by omega)

theorem findsEscape_decimal {u : CodeUnit} {rest : List CodeUnit} (ahead : s.ahead = u :: rest) :
    FindsEscape (decimalEscape chunk opening.position) chunk opening s (Escape.decimal (u :: rest)) := by
  rw [← ahead]
  have front : (s.ahead.take 3).takeWhile CodeUnit.isDigit <+: s.ahead :=
    (List.takeWhile_prefix _).trans (List.take_prefix _ _)
  have unbroken : ∀ v ∈ (s.ahead.take 3).takeWhile CodeUnit.isDigit, v.isBreak = false :=
    fun v member => CodeUnit.isBreak_eq_false CodeUnit.isDigit_spaces (List.mem_takeWhile_imp member)
  have length := front.length_le
  rw [length_ahead] at length
  apply Returns.bind (returns_decimalDigits 3 0 (by omega) s)
  rintro number after ⟨rfl, moved⟩
  by_cases small : CodeUnit.numberOf 10 ((s.ahead.take 3).takeWhile CodeUnit.isDigit) ≤ 255
  · rw [CodeUnit.numberOf] at small
    rw [if_pos small]
    refine ensures_pure ⟨if_pos small, ?_, ?_⟩
    · rwa [Escape.decimal, ← List.prefix_iff_eq_take.1 front]
    · rw [Escape.decimal, ← List.prefix_iff_eq_take.1 front]
      exact Seam.of_forall unbroken _
  · rw [CodeUnit.numberOf] at small
    rw [if_neg small]
    have shifted := moved.shifted unbroken
    exact misreadsEscape_of_shifted opened shifted (if_neg small) (Nat.min_eq_left length).symm

theorem findsEscape_hexadecimal {u : CodeUnit} {rest : List CodeUnit} (ahead : s.ahead = u :: rest)
    (unbroken : u.isBreak = false) :
    FindsEscape (hexEscape chunk opening.position) chunk opening s (Escape.hexadecimal rest) := by
  have length := s.length_ahead
  rw [ahead, List.length_cons] at length
  have first : s.peekAt 1 = rest[0]? := by
    rw [peekAt_eq, ahead]
    rfl
  have second : s.peekAt 2 = rest[1]? := by
    rw [peekAt_eq, ahead]
    rfl
  apply ensures_ask_bind
  apply ensures_ask_bind
  rw [first, second]
  match rest, length with
  | [], _ => exact misreadsEscape_of_clamped opened (Shifted.refl s) rfl (Nat.zero_add 3).symm
  | [_], _ => exact misreadsEscape_of_clamped opened (Shifted.refl s) rfl (Nat.zero_add 3).symm
  | high :: low :: tail, length =>
      simp only [List.length_cons] at length
      cases upper : high.isHexDigit with
      | false =>
          simp only [List.getElem?_cons_succ, List.getElem?_cons_zero, Escape.hexadecimal, upper,
            Bool.not_false, Bool.true_or, if_true, Bool.false_eq_true, if_false]
          apply Returns.bind (returns_advance (by omega))
          intro _ after shifted
          exact misreadsEscape_of_shifted opened shifted rfl (by simp only; omega)
      | true =>
          cases lower : low.isHexDigit with
          | false =>
              simp only [List.getElem?_cons_succ, List.getElem?_cons_zero, Escape.hexadecimal, upper,
                lower, Bool.not_true, Bool.not_false, Bool.or_true, if_true, Bool.false_eq_true,
                if_false]
              apply Returns.bind (returns_advance (by omega))
              intro _ after shifted
              exact misreadsEscape_of_shifted opened shifted rfl (by simp only; omega)
          | true =>
              simp only [List.getElem?_cons_succ, List.getElem?_cons_zero, Escape.hexadecimal, upper,
                lower, Bool.not_true, Bool.or_self, Bool.false_eq_true, if_false]
              have solid : ∀ v ∈ [u, high, low], v.isBreak = false := by
                simp [unbroken, CodeUnit.isBreak_eq_false CodeUnit.isHexDigit_spaces upper,
                  CodeUnit.isBreak_eq_false CodeUnit.isHexDigit_spaces lower]
              apply Returns.bind (returns_advance_over (show s.ahead = [u, high, low] ++ tail from ahead)
                rfl solid)
              intro _ after moved
              apply Returns.bind (returns_hexValue upper after)
              rintro _ _ ⟨rfl, rfl⟩
              apply Returns.bind (returns_hexValue lower _)
              rintro _ _ ⟨rfl, rfl⟩
              rw [byte_of_hexDigits _ (CodeUnit.digitValue_lt upper) _ (CodeUnit.digitValue_lt lower)]
              refine ensures_pure ⟨rfl, ?_, ?_⟩
              · rw [ahead]
                exact moved
              · rw [ahead]
                exact Seam.of_forall solid _

theorem ensures_closeCodePoint {now : Scanner} {count number : Nat} {more : List CodeUnit}
    (shifted : Shifted s count now) (solid : ∀ v ∈ s.ahead.take count, v.isBreak = false)
    (ahead : now.ahead = more) :
    (closeCodePoint chunk opening.position number).Ensures now
      (ReadsEscape s (Escape.closing number count more.head?))
      (MisreadsEscape chunk opening s (Escape.closing number count more.head?)) := by
  have fits := shifted.count_le
  apply ensures_ask_bind
  rw [isAt_zero, ahead]
  by_cases closes : more.head? = some (.of '\x7d')
  · obtain ⟨rest, rfl⟩ := List.head?_eq_some_iff.1 closes
    have same : Escape.closing number count _ = ⟨_, count + 1⟩ := if_pos closes
    rw [decide_eq_true closes, if_pos rfl, same]
    have left := shifted.ahead
    rw [ahead] at left
    have brace : ∀ v ∈ [CodeUnit.of '\x7d'], v.isBreak = false := CodeUnit.forall_of_any (by decide)
    apply Returns.bind (returns_advance_over (show now.ahead = [.of '\x7d'] ++ rest from ahead) rfl
      brace)
    intro _ after step
    have whole : Shifted s (count + 1) after := shifted.trans (step.shifted brace)
    have text : s.ahead.take (count + 1) = s.ahead.take count ++ [.of '\x7d'] := by
      rw [List.take_add, ← left]
      rfl
    by_cases small : number ≤ 0x10FFFF
    · rw [if_pos small]
      refine ensures_pure (readsEscape_of_shifted whole (if_pos small) rfl ?_)
      rw [text]
      intro v member
      rcases List.mem_append.1 member with early | late
      · exact solid v early
      · exact brace v late
    · rw [if_neg small]
      exact misreadsEscape_of_shifted opened whole (if_neg small) (Nat.min_eq_left whole.count_le).symm
  · rw [decide_eq_false closes, if_neg (by simp)]
    apply ensures_ask_bind
    rw [peek_eq, ahead]
    by_cases quoted : more.head?.any CodeUnit.isQuote = true
    · have same : Escape.closing number count _ = ⟨_, count⟩ := (if_neg closes).trans (if_pos quoted)
      rw [if_pos quoted, same]
      exact misreadsEscape_of_shifted opened shifted rfl (Nat.min_eq_left fits).symm
    · have same : Escape.closing number count _ = ⟨_, count + 1⟩ := (if_neg closes).trans (if_neg quoted)
      rw [if_neg quoted, same]
      exact misreadsEscape_of_clamped opened shifted rfl rfl

theorem ensures_codePointDigits_close {braced : Scanner} {lead zeros significant more : List CodeUnit}
    (arrived : Moved s lead braced) (ahead : braced.ahead = zeros ++ (significant ++ more))
    (solid : ∀ v ∈ lead, v.isBreak = false) (leading : ∀ u ∈ zeros, (u == .of '0') = true)
    (first : Stops (· == .of '0') (significant ++ more))
    (all : ∀ u ∈ significant, u.isHexDigit = true) (stops : Stops CodeUnit.isHexDigit more) :
    let reading : Escape.Reading :=
      if 6 < significant.length then ⟨.error .tooLargeCodePoint, lead.length + zeros.length + 7⟩
      else Escape.closing (CodeUnit.numberOf 16 significant) (lead ++ (zeros ++ significant)).length more.head?
    (do
      advanceWhile (· == .of '0')
      let number ← codePointDigits chunk opening.position
      closeCodePoint chunk opening.position number : Scan ByteString).Ensures braced
        (ReadsEscape s reading) (MisreadsEscape chunk opening s reading) := by
  intro reading
  have digits : ∀ v ∈ zeros ++ significant, v.isBreak = false := fun v member =>
    CodeUnit.isBreak_eq_false CodeUnit.isHexDigit_spaces (Escape.isHexDigit_parts leading all v member)
  apply Returns.bind (returns_advanceWhile (fun _ => isBreak_of_zero) braced)
  intro _ atDigits passed
  rw [ahead, first.takeWhile_append leading] at passed
  have digitsAhead : atDigits.ahead = significant ++ more := passed.rest_eq ahead
  have shifted := (arrived.shifted solid).trans (passed.shifted fun v zero => isBreak_of_zero (leading v zero))
  refine ensures_bind (ensures_codePointDigits (opened.trans shifted)) ?_ ?_
  · rintro d after ⟨rfl, overrun, long⟩
    rw [digitsAhead, stops.takeWhile_append all] at long
    have same : reading = ⟨_, lead.length + zeros.length + 7⟩ := if_pos long
    have whole := shifted.trans overrun
    rw [same]
    exact ⟨_, rfl, (Nat.min_eq_left whole.count_le).symm ▸ whole, rfl⟩
  · rintro number after ⟨rfl, moved, short⟩
    rw [digitsAhead, stops.takeWhile_append all] at moved short ⊢
    have same : reading = Escape.closing _ _ _ := if_neg (Nat.not_lt.2 short)
    have passedAll := passed.trans moved
      (Seam.of_forall (fun v zero => isBreak_of_zero (leading v zero)) _)
    have whole := arrived.trans passedAll (Seam.of_forall solid _)
    have solidAll : ∀ v ∈ lead ++ (zeros ++ significant), v.isBreak = false := by
      intro v member
      rcases List.mem_append.1 member with early | late
      · exact solid v early
      · exact digits v late
    have front : s.ahead.take (lead ++ (zeros ++ significant)).length = lead ++ (zeros ++ significant) := by
      rw [whole.ahead, List.take_left]
    rw [same]
    exact ensures_closeCodePoint opened (whole.shifted solidAll) (front.symm ▸ solidAll)
      (moved.rest_eq digitsAhead)

theorem findsEscape_codePoint {u : CodeUnit} {rest : List CodeUnit} (ahead : s.ahead = u :: rest)
    (unbroken : u.isBreak = false) :
    FindsEscape (codePointEscape chunk opening.position) chunk opening s (Escape.codePoint rest) := by
  have solid : ∀ v ∈ [u], v.isBreak = false := by simpa using unbroken
  apply Returns.bind (returns_advance_unit ahead unbroken)
  rintro _ letter ⟨atLetter, letterAhead⟩
  have letterShifted := atLetter.shifted solid
  apply ensures_ask_bind
  rw [isAt_zero, letterAhead]
  by_cases opens : rest.head? = some (.of '\x7b')
  · obtain ⟨tail, rfl⟩ := List.head?_eq_some_iff.1 opens
    obtain ⟨zeros, significant, more, rfl, leading, first, all, stops⟩ := Escape.exists_parts tail
    rw [decide_eq_true opens, if_pos rfl, Escape.codePoint_parts leading first all stops]
    apply Returns.bind (returns_advance_unit letterAhead (by decide))
    rintro _ braced ⟨atBrace, bracedAhead⟩
    have arrived := atLetter.trans atBrace (Seam.of_forall solid _)
    have solidBoth : ∀ v ∈ [u] ++ [.of '\x7b'], v.isBreak = false := by
      simp [unbroken, show (CodeUnit.of '\x7b').isBreak = false by decide]
    apply ensures_ask_bind
    rw [peek_eq, bracedAhead]
    by_cases empty : zeros ++ significant = []
    · have none : ¬ (zeros ++ (significant ++ more)).head?.any CodeUnit.isHexDigit = true := by
        rw [← List.append_assoc, empty, List.nil_append, Option.any_eq_true]
        rintro ⟨v, head, digit⟩
        rw [stops v head] at digit
        cases digit
      rw [if_neg none, if_pos empty]
      exact misreadsEscape_of_clamped opened (arrived.shifted solidBoth) rfl rfl
    · have some : (zeros ++ (significant ++ more)).head?.any CodeUnit.isHexDigit = true := by
        have digits := Escape.isHexDigit_parts leading all
        rw [← List.append_assoc]
        obtain ⟨v, others, same⟩ := List.exists_cons_of_ne_nil empty
        rw [same] at digits ⊢
        exact digits v List.mem_cons_self
      have width : 2 + (zeros ++ significant).length
          = ([u] ++ [CodeUnit.of '\x7b'] ++ (zeros ++ significant)).length := by
        simp only [List.length_append, List.length_singleton]
      rw [if_pos some, if_neg empty, width]
      exact ensures_codePointDigits_close opened arrived bracedAhead solidBoth leading first all stops
  · rw [decide_eq_false opens, if_neg (by simp)]
    have reading : Escape.codePoint rest = ⟨.error (.missingInEscape '\x7b'), 2⟩ := by
      rw [Escape.codePoint, if_pos opens]
    rw [reading]
    exact misreadsEscape_of_clamped opened letterShifted rfl rfl

end Parts

section Whole

variable {features : FeatureSet} {v : CodeUnit} {tail : List CodeUnit}

theorem findsEscape_control {byte : UInt8} (ahead : s.ahead = v :: tail) (unbroken : v.isBreak = false) :
    FindsEscape (do advance 1; return [byte]) chunk opening s ⟨.ok [byte], 1⟩ := by
  have single : ∀ w ∈ [v], w.isBreak = false := by simpa using unbroken
  apply Returns.bind (returns_advance_unit ahead unbroken)
  rintro _ after ⟨moved, -⟩
  refine ensures_pure (readsEscape_of_shifted (moved.shifted single) rfl rfl ?_)
  rwa [ahead]

theorem findsEscape_break : FindsEscape (do let _ ← consumeBreak; return [0x0A]) chunk opening s
    ⟨.ok [0x0A], CodeUnit.breakWidth s.ahead⟩ := by
  apply Returns.bind (returns_consumeBreak s)
  rintro _ after ⟨moved, seam, -⟩
  exact ensures_pure ⟨rfl, moved, seam⟩

theorem findsEscape_skip (ahead : s.ahead = v :: tail) (unbroken : v.isBreak = false) :
    FindsEscape (do advance 1; skipSpace; return []) chunk opening s
      ⟨.ok [], 1 + (tail.takeWhile CodeUnit.isSpace).length⟩ := by
  have single : ∀ w ∈ [v], w.isBreak = false := by simpa using unbroken
  apply Returns.bind (returns_advance_unit ahead unbroken)
  rintro _ letter ⟨atLetter, letterAhead⟩
  apply Returns.bind (returns_skipSpace letter)
  intro _ after spaces
  rw [letterAhead] at spaces
  have whole := atLetter.trans spaces (Seam.of_forall single _)
  have rest : after.ahead = tail.dropWhile CodeUnit.isSpace := by
    apply spaces.rest_eq
    rw [letterAhead, List.takeWhile_append_dropWhile]
  have text : s.ahead.take (1 + (tail.takeWhile CodeUnit.isSpace).length)
      = [v] ++ tail.takeWhile CodeUnit.isSpace := by
    rw [whole.ahead, ← List.length_singleton (a := v), ← List.length_append, List.take_left]
  refine ensures_pure ⟨rfl, ?_, ?_⟩
  · rwa [text]
  · rw [text, rest]
    apply Seam.of_head
    intro w first
    exact CodeUnit.isBreak_of_not_isSpace (stops_dropWhile tail w first)

theorem leadingWidth_ahead_le (s : Scanner) : Utf16.leadingWidth s.ahead ≤ s.remaining := by
  rw [← length_ahead]
  exact Utf16.leadingWidth_le s.ahead

theorem findsEscape_invalid (opened : Shifted opening 1 s) :
    FindsEscape (do advance (← ask Scanner.charWidth); fail chunk .invalidEscape opening.position)
      chunk opening s ⟨.error .invalidEscape, Utf16.leadingWidth s.ahead⟩ := by
  apply ensures_ask_bind
  rw [charWidth_eq]
  apply Returns.bind (returns_advance (leadingWidth_ahead_le s))
  intro _ after shifted
  exact misreadsEscape_of_shifted opened shifted rfl (Nat.min_eq_left (leadingWidth_ahead_le s)).symm

theorem findsEscape_literal (ahead : s.ahead = v :: tail) (unbroken : v.isBreak = false) :
    FindsEscape (do
        let width ← ask Scanner.charWidth
        let first ← ask (·.position.offset)
        let point ← slice first (first + width)
        advance width
        return .ofUnits point) chunk opening s (Escape.literal s.ahead) := by
  apply ensures_ask_bind
  apply ensures_ask_bind
  rw [charWidth_eq]
  apply Returns.bind (returns_slice_ahead (leadingWidth_ahead_le s))
  rintro _ _ ⟨rfl, rfl⟩
  apply Returns.bind (returns_advance (leadingWidth_ahead_le _))
  intro _ after shifted
  refine ensures_pure (readsEscape_of_shifted shifted rfl rfl ?_)
  rw [ahead]
  exact Utf16.isBreak_leading unbroken tail

theorem findsEscape_escaped (opened : Shifted opening 1 s) (ahead : s.ahead = v :: tail) :
    FindsEscape (escaped features chunk opening.position v) chunk opening s
      (Escape.read features v tail) := by
  rw [escaped, Escape.read, ← ahead]
  cases control : Escape.control? v with
  | some byte =>
      apply findsEscape_control ahead
      by_contra broken
      rw [Escape.control?_of_isBreak (by simpa using broken)] at control
      cases control
  | none =>
      simp only
      by_cases broken : v.isBreak = true
      · simp only [if_pos broken]
        exact findsEscape_break
      have unbroken : v.isBreak = false := by simpa using broken
      simp only [if_neg broken]
      by_cases digit : v.isDigit = true
      · simp only [if_pos digit]
        rw [ahead]
        exact findsEscape_decimal opened ahead
      simp only [if_neg digit]
      by_cases skip : (v = .of 'z' && .skipEscape ∈ features) = true
      · simp only [if_pos skip]
        exact findsEscape_skip ahead unbroken
      simp only [if_neg skip]
      by_cases hex : (v = .of 'x' && .hexEscapes ∈ features) = true
      · simp only [if_pos hex]
        exact findsEscape_hexadecimal opened ahead unbroken
      simp only [if_neg hex]
      by_cases braces : (v = .of 'u' && .codePointEscapes ∈ features) = true
      · simp only [if_pos braces]
        exact findsEscape_codePoint opened ahead unbroken
      simp only [if_neg braces]
      by_cases strict : (!Escape.isSelf v && .strictEscapes ∈ features) = true
      · simp only [if_pos strict]
        exact findsEscape_invalid opened
      · simp only [if_neg strict]
        exact findsEscape_literal ahead unbroken

/-- At the end of the buffer a backslash is left to itself. -/
theorem returns_escape_end (ahead : s.ahead = [.of '\\']) :
    (escape features chunk).Returns s fun bytes after => bytes = [] ∧ Moved s [.of '\\'] after := by
  apply ensures_ask_bind
  apply Returns.bind (returns_advance_unit ahead (by decide))
  rintro _ after ⟨moved, none⟩
  apply ensures_ask_bind
  rw [peek_eq, none]
  exact ensures_pure ⟨rfl, moved⟩

theorem ensures_escape (ahead : s.ahead = .of '\\' :: v :: tail) :
    let reading := Escape.read features v tail
    let text := .of '\\' :: (v :: tail).take reading.width
    (escape features chunk).Ensures s
      (fun bytes after => reading.outcome = .ok bytes ∧ Moved s text after ∧ Seam text after.ahead)
      (fun d after => ∃ reason, reading.outcome = .error reason ∧ Shifted s text.length after
        ∧ d = diagnostic chunk reason s after) := by
  intro reading text
  have backslash : ∀ w ∈ [CodeUnit.of '\\'], w.isBreak = false := CodeUnit.forall_of_any (by decide)
  apply ensures_ask_bind
  apply Returns.bind (returns_advance_unit ahead (by decide))
  rintro _ inside ⟨atUnit, insideAhead⟩
  have opened : Shifted s 1 inside := atUnit.shifted backslash
  apply ensures_ask_bind
  rw [peek_eq, insideAhead]
  refine (findsEscape_escaped opened insideAhead).mono ?_ ?_
  · rintro bytes after ⟨ok, moved, seam⟩
    rw [insideAhead] at moved seam
    exact ⟨ok, atUnit.trans moved (Seam.of_forall backslash _),
      Seam.append (Seam.of_forall backslash _) seam⟩
  · rintro _ after ⟨reason, error, shifted, rfl⟩
    have whole := opened.trans shifted
    rw [← length_ahead, insideAhead, Nat.add_comm, ← List.length_take] at whole
    exact ⟨reason, error, whole, rfl⟩

end Whole

end Scan

end LuaTokens
