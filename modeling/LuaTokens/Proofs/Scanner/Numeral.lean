import LuaTokens.Proofs.Lexeme.Numeral
import LuaTokens.Proofs.Lexeme.Seam
import LuaTokens.Proofs.Scanner.Run
import LuaTokens.Proofs.Scanner.Escape

/-! # Scanning numerals

A decimal numeral is scanned for its end only and its text is read again, which cannot
fail. The digits of a hexadecimal one are computed on the way, each only once it is
known to be a digit.
-/

namespace LuaTokens

namespace Scan

open Scanner

/-- Compute hexadecimal digits and count them. -/
def hexDigits : Scan (Binary64 × Nat) :=
  foldWhile CodeUnit.isHexDigit (fun (number, count) u => do
    let digit ← hexValue u
    return (number.appendDigit 16 digit, count + 1)) (.zero, 0)

def exponentDigits : Scan Nat :=
  foldWhile CodeUnit.isDigit (fun number u => do
    let digit ← subtract u.toNat 0x30
    return number * 10 + digit) 0

section Parts

variable {α : Type} (radix : Radix) (chunk : Option String) (start : Position) (digits : Scan α)

/-- Move over a point and the digits behind it, if there is a point. -/
def fraction : Scan (Option α) := do
  if ← ask (·.isAt 0 '.') then
    advance 1
    some <$> digits
  else return none

/-- Move over a sign, if there is one. It may be a minus. -/
def sign : Scan Bool := do
  match (← ask Scanner.peek).filter Numeral.isSign with
  | none => return false
  | some u =>
      advance 1
      return u == .of '-'

/-- Move over an exponent with its sign, if there is one. -/
def exponent : Scan (Option (Bool × α)) := do
  if (← ask Scanner.peek).any radix.isExponentMark then
    advance 1
    let negative ← sign
    if (← ask Scanner.peek).any CodeUnit.isDigit then
      let magnitude ← digits
      return some (negative, magnitude)
    else fail chunk .malformedNumber start
  else return none

/-- The double that is written by the whole text. -/
def parseNumber (text : List CodeUnit) : Option Binary64 :=
  match Numeral.read text with
  | .ok cut => if cut.rest = [] then some cut.value.value else none
  | .error _ => none

def decimalNumeral : Scan Binary64 := do
  advanceWhile CodeUnit.isDigit
  let _ ← fraction (advanceWhile CodeUnit.isDigit)
  let _ ← exponent .decimal chunk start (advanceWhile CodeUnit.isDigit)
  match parseNumber (← slice start.offset (← ask (·.position.offset))) with
  | some value => return value
  | none => fail chunk .malformedNumber start

/-- Scan a decimal numeral whose text any parser may read, and do anything with what it does not
    accept. -/
def decimalNumeralBy (parse : List CodeUnit → Option Binary64) (refuse : Scan Binary64) : Scan Binary64 := do
  advanceWhile CodeUnit.isDigit
  let _ ← fraction (advanceWhile CodeUnit.isDigit)
  let _ ← exponent .decimal chunk start (advanceWhile CodeUnit.isDigit)
  match parse (← slice start.offset (← ask (·.position.offset))) with
  | some value => return value
  | none => refuse

theorem decimalNumeral_eq : decimalNumeral chunk start
    = decimalNumeralBy chunk start parseNumber (fail chunk .malformedNumber start) :=
  rfl

/-- The value of a fraction with so many digits. -/
def scaledFraction : Option (Binary64 × Nat) → Binary64
  | some (number, count + 1) => number.div (.powerOfTwo (4 * ((count : Int) + 1)))
  | _ => .zero

def exponentFactor : Option (Bool × Nat) → Binary64
  | none => .one
  | some (negative, magnitude) => .powerOfTwo (if negative then -(magnitude : Int) else magnitude)

/-- Move over the mark of the radix and the digits behind it. -/
def hexWhole : Scan (Binary64 × Nat) := do
  advance 2
  hexDigits

def hexNumeral (letter : CodeUnit) : Scan Binary64 := do
  let (number, count) ← hexWhole
  if count = 0 && !(← ask (·.isAt 0 '.')) then fail chunk .malformedNumber start
  else
    let part? ← fraction hexDigits
    if part?.any fun part => count = 0 && part.2 = 0 then fail chunk .malformedNumber start
    else
      let exponent? ← exponent (.hexadecimal letter) chunk start exponentDigits
      return (number.add (scaledFraction part?)).mul (exponentFactor exponent?)

/-- Move over the numeral that begins at the scanner. -/
def numeral : Scan Token.Kind := do
  match ← ask (·.peekAt 1) with
  | none => .number <$> decimalNumeral chunk start
  | some letter =>
      if (← ask (·.isAt 0 '0')) && (letter = .of 'x' || letter = .of 'X') then
        .number <$> hexNumeral chunk start letter
      else .number <$> decimalNumeral chunk start

end Parts

section Specs

variable {α : Type} {radix : Radix} {chunk : Option String} {digits : Scan α} {s opening : Scanner}
  {holds : List CodeUnit → α → Prop}

theorem foldl_count {β : Type} (f : β → CodeUnit → β) (text : List CodeUnit) (value : β) (count : Nat) :
    text.foldl (fun state u => (f state.1 u, state.2 + 1)) (value, count)
      = (text.foldl f value, count + text.length) := by
  induction text generalizing value count with
  | nil => rfl
  | cons u rest ih =>
      rw [List.foldl_cons, ih, List.foldl_cons, List.length_cons, Nat.add_right_comm, Nat.add_assoc]

theorem returns_hexDigits (s : Scanner) : hexDigits.Returns s fun result after =>
    result = (Numeral.hexadecimalDigits (s.ahead.takeWhile CodeUnit.isHexDigit),
        (s.ahead.takeWhile CodeUnit.isHexDigit).length)
      ∧ Moved s (s.ahead.takeWhile CodeUnit.isHexDigit) after := by
  refine Returns.mono (returns_foldWhile
    (f := fun (state : Binary64 × Nat) u => (state.1.appendDigit 16 u.digitValue, state.2 + 1))
    (fun _ digit => CodeUnit.isBreak_eq_false CodeUnit.isHexDigit_spaces digit) ?_ _ s) ?_
  · rintro ⟨number, count⟩ u s digit
    apply Returns.bind (returns_hexValue digit s)
    rintro _ _ ⟨rfl, rfl⟩
    exact ensures_pure ⟨rfl, rfl⟩
  · rintro _ after ⟨rfl, moved⟩
    have folded := foldl_count (fun (number : Binary64) u => number.appendDigit 16 u.digitValue)
      (s.ahead.takeWhile CodeUnit.isHexDigit) .zero 0
    rw [Nat.zero_add] at folded
    exact ⟨folded, moved⟩

theorem returns_exponentDigits (s : Scanner) : exponentDigits.Returns s fun value after =>
    value = CodeUnit.numberOf 10 (s.ahead.takeWhile CodeUnit.isDigit)
      ∧ Moved s (s.ahead.takeWhile CodeUnit.isDigit) after := by
  apply returns_foldWhile
    (fun _ digit => CodeUnit.isBreak_eq_false CodeUnit.isDigit_spaces digit)
  intro number u s digit
  apply Returns.bind (returns_subtract (CodeUnit.toNat_of_isDigit digit).1 s)
  rintro _ _ ⟨rfl, rfl⟩
  rw [CodeUnit.digitValue_of_isDigit digit]
  exact ensures_pure ⟨rfl, rfl⟩

/-- A scan of digits takes the run of the digits and returns what holds of it. -/
def Digits (isDigit : CodeUnit → Bool) (digits : Scan α) (holds : List CodeUnit → α → Prop) : Prop :=
  ∀ s, digits.Returns s fun a after =>
    holds (s.ahead.takeWhile isDigit) a ∧ Moved s (s.ahead.takeWhile isDigit) after

/-- The scanner has taken the text of a part that may be missing, up to the rest, and what is
    returned holds of the part. -/
structure TakesPart {β : Type} (s : Scanner) (text : β → List CodeUnit) (part : Option β × List CodeUnit)
    (holds : β → α → Prop) (a? : Option α) (after : Scanner) : Prop where
  related : Option.Rel holds part.1 a?
  ahead : after.ahead = part.2
  shifted : Shifted s ((part.1.map text).getD []).length after

theorem isBreak_digit (radix : Radix) {u : CodeUnit} (digit : radix.isDigit u = true) :
    u.isBreak = false :=
  CodeUnit.isBreak_eq_false radix.isDigit_spaces digit

theorem isBreak_cons {u : CodeUnit} {text : List CodeUnit} (first : u.isBreak = false)
    (unbroken : ∀ v ∈ text, v.isBreak = false) : ∀ v ∈ u :: text, v.isBreak = false := by
  simpa using And.intro first unbroken

theorem readFraction_of_no_point {rest : List CodeUnit} (other : rest.head? ≠ some (.of '.')) :
    Numeral.readFraction radix rest = (none, rest) := by
  have ends : Numeral.FractionEnds radix rest none := by
    intro u first
    rw [show rest.head? = some u from first] at other
    simpa using other
  exact Numeral.readFraction_append ends

theorem returns_fraction (spec : Digits radix.isDigit digits holds) (s : Scanner) :
    (fraction digits).Returns s
      (TakesPart s (.of '.' :: ·) (Numeral.readFraction radix s.ahead) holds) := by
  apply ensures_ask_bind
  rw [isAt_zero]
  by_cases point : s.ahead.head? = some (.of '.')
  · obtain ⟨rest, ahead⟩ := List.head?_eq_some_iff.1 point
    rw [decide_eq_true point, if_pos rfl]
    apply Returns.bind (returns_advance_unit ahead (by decide))
    rintro _ inside ⟨step, rfl⟩
    have found : Numeral.readFraction radix s.ahead = (some (inside.ahead.takeWhile radix.isDigit),
        inside.ahead.dropWhile radix.isDigit) := by
      rw [ahead, Numeral.readFraction, if_pos rfl]
    have unbroken : ∀ v ∈ inside.ahead.takeWhile radix.isDigit, v.isBreak = false :=
      fun v member => isBreak_digit radix (List.mem_takeWhile_imp member)
    rw [found]
    apply Ensures.map ((spec inside).mono _)
    rintro a after ⟨related, moved⟩
    have whole := step.trans moved (Seam.of_forall (CodeUnit.forall_of_any (by decide)) _)
    exact ⟨.some related, moved.rest_eq List.takeWhile_append_dropWhile.symm,
      whole.shifted (isBreak_cons (by decide) unbroken)⟩
  · rw [decide_eq_false point, readFraction_of_no_point point]
    exact ensures_pure ⟨.none, rfl, Shifted.refl s⟩

theorem returns_sign (s : Scanner) : sign.Returns s fun negative after =>
    negative = ((Numeral.readSign s.ahead).1 == some (.of '-'))
      ∧ after.ahead = (Numeral.readSign s.ahead).2
      ∧ Shifted s (Numeral.readSign s.ahead).1.toList.length after := by
  apply ensures_ask_bind
  rw [peek_eq]
  cases next : s.ahead.head?.filter Numeral.isSign with
  | none =>
      have ends : Numeral.SignEnds s.ahead none := stops_of_head?_filter next
      have found : Numeral.readSign s.ahead = (none, s.ahead) := Numeral.readSign_append ends
      rw [found]
      exact ensures_pure ⟨rfl, rfl, Shifted.refl s⟩
  | some u =>
      obtain ⟨head, mark⟩ := Option.filter_eq_some_iff.1 next
      obtain ⟨rest, ahead⟩ := List.head?_eq_some_iff.1 head
      have ends : Numeral.SignEnds rest (some u) := mark
      have found : Numeral.readSign (u :: rest) = (some u, rest) := Numeral.readSign_append ends
      have unbroken := CodeUnit.isBreak_eq_false Numeral.isSign_spaces mark
      rw [ahead, found]
      apply Returns.bind (returns_advance_unit ahead unbroken)
      rintro _ after ⟨step, afterAhead⟩
      have single : ∀ v ∈ [u], v.isBreak = false := by simpa using unbroken
      refine ensures_pure ⟨?_, afterAhead, step.shifted single⟩
      simp

theorem length_exponentText (e : Numeral.Exponent) :
    e.text.length = 1 + e.sign.toList.length + e.digits.length := by
  simp only [Numeral.Exponent.text, List.cons_append, List.length_cons, List.length_append]
  omega

theorem ensures_exponent {count : Nat} (spec : Digits CodeUnit.isDigit digits holds)
    (opened : Shifted opening count s) :
    (exponent radix chunk opening.position digits).Ensures s
      (TakesPart s Numeral.Exponent.text (Numeral.readExponent radix s.ahead) fun e result =>
        e.digits ≠ [] ∧ result.1 = (e.sign == some (.of '-')) ∧ holds e.digits result.2)
      (fun d after => ∃ e rest, Numeral.readExponent radix s.ahead = (some e, rest) ∧ e.digits = []
        ∧ Shifted s e.text.length after ∧ d = diagnostic chunk .malformedNumber opening after) := by
  apply ensures_ask_bind
  rw [peek_eq]
  by_cases marked : s.ahead.head?.any radix.isExponentMark = true
  · obtain ⟨u, head, mark⟩ := Option.any_eq_true _ _ |>.1 marked
    obtain ⟨rest, ahead⟩ := List.head?_eq_some_iff.1 head
    have unbroken := CodeUnit.isBreak_eq_false radix.isExponentMark_spaces mark
    have single : ∀ v ∈ [u], v.isBreak = false := by simpa using unbroken
    rw [if_pos marked]
    apply Returns.bind (returns_advance_unit ahead unbroken)
    rintro _ inside ⟨step, rfl⟩
    apply Returns.bind (returns_sign inside)
    rintro _ signed ⟨rfl, signedAhead, atSign⟩
    have found : Numeral.readExponent radix s.ahead
        = (some ⟨u, (Numeral.readSign inside.ahead).1, signed.ahead.takeWhile CodeUnit.isDigit⟩,
          signed.ahead.dropWhile CodeUnit.isDigit) := by
      rw [ahead, Numeral.readExponent, if_pos mark, signedAhead]
    have shifted := (step.shifted single).trans atSign
    rw [found]
    apply ensures_ask_bind
    rw [peek_eq]
    by_cases digit : signed.ahead.head?.any CodeUnit.isDigit = true
    · rw [if_pos digit]
      apply Returns.bind (spec signed)
      rintro magnitude after ⟨related, moved⟩
      obtain ⟨v, first, isDigit⟩ := Option.any_eq_true _ _ |>.1 digit
      obtain ⟨others, digitAhead⟩ := List.head?_eq_some_iff.1 first
      have filled : signed.ahead.takeWhile CodeUnit.isDigit ≠ [] := by simp [digitAhead, isDigit]
      have solid : ∀ w ∈ signed.ahead.takeWhile CodeUnit.isDigit, w.isBreak = false :=
        fun w member => CodeUnit.isBreak_eq_false CodeUnit.isDigit_spaces (List.mem_takeWhile_imp member)
      refine ensures_pure ⟨.some ⟨filled, rfl, related⟩,
        moved.rest_eq List.takeWhile_append_dropWhile.symm, ?_⟩
      rw [Option.map_some, Option.getD_some, length_exponentText]
      exact shifted.trans (moved.shifted solid)
    · have none := (stops_of_head?_any digit).takeWhile_eq_nil
      rw [if_neg digit]
      refine ensures_fail_shifted (opened.trans shifted) ⟨_, _, rfl, none, ?_, rfl⟩
      rw [length_exponentText]
      simp only [none]
      exact shifted
  · have found : Numeral.readExponent radix s.ahead = (none, s.ahead) := by
      have stops := stops_of_head?_any marked
      exact Numeral.readExponent_append (show Numeral.ExponentEnds radix s.ahead none from stops)
    rw [if_neg marked, found]
    exact ensures_pure ⟨.none, rfl, Shifted.refl s⟩

/-- The scanner has moved over a numeral and returned its value. -/
def ReadsNumber (opening : Scanner) (value : Binary64) (after : Scanner) : Prop :=
  ∃ cut, Numeral.read opening.ahead = .ok cut ∧ value = cut.value.value ∧ Moved opening cut.text after

def MisreadsNumber (chunk : Option String) (opening : Scanner) (d : Diagnostic) (after : Scanner) :
    Prop :=
  ∃ m, Numeral.read opening.ahead = .error m ∧ Fails chunk opening m d after

theorem misreadsNumber_of_shifted {after : Scanner} {text rest : List CodeUnit}
    (read : Numeral.read opening.ahead = .error ⟨.malformedNumber, [], text⟩)
    (divided : opening.ahead = text ++ rest) (unbroken : ∀ u ∈ text, u.isBreak = false)
    (shifted : Shifted opening text.length after) :
    MisreadsNumber chunk opening (diagnostic chunk .malformedNumber opening after) after :=
  ⟨_, read, fails_of_moved (m := ⟨.malformedNumber, [], text⟩) (Moved.refl opening)
    (shifted.moved divided unbroken) rfl⟩

theorem parseNumber_text {n : Numeral} {rest : List CodeUnit} (maximal : Numeral.Maximal n rest)
    (wellFormed : n.isWellFormed = true) : parseNumber n.text = some n.value := by
  have alone := (maximal.of_follows (Follows.nil_right rest)).take_append
  rw [List.append_nil] at alone
  simp [parseNumber, Numeral.read, alone, wellFormed]

theorem exists_fraction {n : Numeral} (filled : n.digits ≠ []) (none : n.whole = []) :
    ∃ d more, n.fraction = some (d :: more) := by
  rw [Numeral.digits, none, List.nil_append] at filled
  cases written : n.fraction with
  | none => simp [written] at filled
  | some digits =>
      rw [written, Option.getD_some] at filled
      obtain ⟨d, more, rfl⟩ := List.exists_cons_of_ne_nil filled
      exact ⟨d, more, rfl⟩

theorem eq_map_of_rel {α β : Type} {r : α → β → Prop} {f : α → β} {a? : Option α} {b? : Option β}
    (h : Option.Rel r a? b?) (same : ∀ a b, r a b → b = f a) : b? = a?.map f := by
  cases h with
  | none => rfl
  | some related => rw [same _ _ related, Option.map_some]

theorem exponentFactor_some (e : Numeral.Exponent) :
    exponentFactor (some (e.sign == some (.of '-'), CodeUnit.numberOf 10 e.digits))
      = .powerOfTwo e.value := by
  simp [exponentFactor, Numeral.Exponent.value]

theorem hexadecimal_eq (n : Numeral) : n.hexadecimal =
    ((Numeral.hexadecimalDigits n.whole).add
      (scaledFraction (n.fraction.map fun digits => (Numeral.hexadecimalDigits digits, digits.length)))).mul
    (exponentFactor
      (n.exponent.map fun e => (e.sign == some (.of '-'), CodeUnit.numberOf 10 e.digits))) := by
  obtain ⟨radix, whole, fraction, exponent⟩ := n
  cases exponent with
  | none => rcases fraction with _ | _ | ⟨digit, more⟩ <;> rfl
  | some e =>
      rw [Option.map_some, exponentFactor_some]
      rcases fraction with _ | _ | ⟨digit, more⟩ <;> rfl

theorem value_of_hexadecimal {n : Numeral} {letter : CodeUnit} {part? : Option (Binary64 × Nat)}
    {exponent? : Option (Bool × Nat)} (radix : n.radix = .hexadecimal letter)
    (fraction : Option.Rel (fun digits part => part = (Numeral.hexadecimalDigits digits, digits.length))
      n.fraction part?)
    (exponent : Option.Rel (fun e part => part.1 = (e.sign == some (.of '-'))
      ∧ part.2 = CodeUnit.numberOf 10 e.digits) n.exponent exponent?) :
    ((Numeral.hexadecimalDigits n.whole).add (scaledFraction part?)).mul (exponentFactor exponent?)
      = n.value := by
  have parts := eq_map_of_rel fraction fun _ _ => id
  have factors : exponent? = n.exponent.map fun e =>
      (e.sign == some (.of '-'), CodeUnit.numberOf 10 e.digits) :=
    eq_map_of_rel exponent fun _ _ same => Prod.ext same.1 same.2
  rw [parts, factors, ← hexadecimal_eq, Numeral.value, radix]

theorem returns_hexWhole {mark tail : List CodeUnit} (divided : opening.ahead = mark ++ tail)
    (two : mark.length = 2) :
    hexWhole.Returns opening fun result after =>
      result = (Numeral.hexadecimalDigits (tail.takeWhile CodeUnit.isHexDigit),
          (tail.takeWhile CodeUnit.isHexDigit).length)
        ∧ after.ahead = tail.dropWhile CodeUnit.isHexDigit
        ∧ Shifted opening (mark ++ tail.takeWhile CodeUnit.isHexDigit).length after := by
  have fits : mark.length ≤ opening.remaining := by
    rw [← length_ahead, divided, List.length_append]
    omega
  rw [two] at fits
  apply Returns.bind (returns_advance fits)
  intro _ inside opened
  rw [← two] at opened
  refine (returns_hexDigits inside).mono ?_
  rw [opened.ahead_eq divided]
  rintro _ after ⟨rfl, moved⟩
  have shifted := opened.trans (moved.shifted fun u member =>
    CodeUnit.isBreak_eq_false CodeUnit.isHexDigit_spaces (List.mem_takeWhile_imp member))
  rw [← List.length_append] at shifted
  refine ⟨rfl, moved.rest_eq ?_, shifted⟩
  rw [opened.ahead_eq divided, List.takeWhile_append_dropWhile]

section Maximal

variable {n : Numeral} {rest : List CodeUnit} (maximal : Numeral.Maximal n rest)
  (ahead : opening.ahead = n.text ++ rest)

include maximal ahead

theorem read_of_maximal : Numeral.read opening.ahead
    = if n.isWellFormed then .ok ⟨n, n.text, rest⟩ else .error ⟨.malformedNumber, [], n.text⟩ := by
  rw [ahead, Numeral.read, maximal.take_append]

theorem ensures_exponent_of_maximal (spec : Digits CodeUnit.isDigit digits holds)
    (shifted : Shifted opening (Numeral.significandText n.radix n.whole n.fraction).length s) :
    (exponent n.radix chunk opening.position digits).Ensures s
      (fun exponent? after => n.isWellFormed = true ∧ Shifted opening n.text.length after
        ∧ Option.Rel (fun e result => result.1 = (e.sign == some (.of '-')) ∧ holds e.digits result.2)
            n.exponent exponent?)
      (MisreadsNumber chunk opening) := by
  have behind : s.ahead = n.exponentText ++ rest := by
    apply shifted.ahead_eq
    rw [ahead, ← List.append_assoc]
    rfl
  have found : Numeral.readExponent n.radix s.ahead = (n.exponent, rest) := by
    rw [behind]
    exact Numeral.readExponent_append maximal.exponent_ends
  refine Ensures.mono (ensures_exponent spec shifted) ?_ ?_
  · rintro exponent? after ⟨related, -, step⟩
    rw [found] at related step
    have whole := shifted.trans step
    rw [← List.length_append] at whole
    cases written : n.exponent with
    | none =>
        rw [written] at related
        cases related
        refine ⟨?_, whole, .none⟩
        simp [Numeral.isWellFormed, maximal.digits_ne_nil, written]
    | some e =>
        rw [written] at related
        cases related with
        | some related =>
            refine ⟨?_, whole, .some related.2⟩
            simp [Numeral.isWellFormed, maximal.digits_ne_nil, written, related.1]
  · rintro _ after ⟨e, _, same, none, step, rfl⟩
    rw [found] at same
    obtain ⟨written, -⟩ := Prod.mk.inj same
    have whole := shifted.trans step
    have text : n.text = Numeral.significandText n.radix n.whole n.fraction ++ e.text := by
      rw [Numeral.text, written]
      rfl
    rw [← List.length_append, ← text] at whole
    have read := read_of_maximal maximal ahead
    rw [if_neg (by simp [Numeral.isWellFormed, written, none])] at read
    exact misreadsNumber_of_shifted read ahead maximal.isBreak_text whole

theorem readsNumber_of_maximal {after : Scanner} (wellFormed : n.isWellFormed = true)
    (shifted : Shifted opening n.text.length after) : ReadsNumber opening n.value after := by
  have read := read_of_maximal maximal ahead
  rw [if_pos wellFormed] at read
  exact ⟨_, read, rfl, shifted.moved ahead maximal.isBreak_text⟩

/-- What is refused does not matter if the parser accepts the text of the numeral. -/
theorem ensures_decimalNumeralBy (decimal : n.radix = .decimal) {parse : List CodeUnit → Option Binary64}
    (refuse : Scan Binary64) (accepts : n.isWellFormed = true → ∃ value, parse n.text = some value) :
    (decimalNumeralBy chunk opening.position parse refuse).Ensures opening
      (fun value after => n.isWellFormed = true ∧ parse n.text = some value
        ∧ Shifted opening n.text.length after)
      (MisreadsNumber chunk opening) := by
  have divided : opening.ahead = n.whole ++ (n.fractionText ++ (n.exponentText ++ rest)) := by
    rw [ahead, Numeral.text_eq, decimal]
    simp [Radix.text]
  have allDigits := maximal.whole_digits
  have wholeEnds := maximal.whole_ends
  have fractionEnds := maximal.fraction_ends
  rw [decimal] at allDigits wholeEnds fractionEnds
  have isDigit : Digits CodeUnit.isDigit (advanceWhile CodeUnit.isDigit) fun _ _ => True := fun s =>
    (returns_advanceWhile (fun _ => isBreak_digit .decimal) s).mono fun _ _ moved => ⟨trivial, moved⟩
  apply Returns.bind (returns_advanceWhile (fun _ => isBreak_digit .decimal) opening)
  intro _ atPoint moved
  have run : opening.ahead.takeWhile Radix.decimal.isDigit = n.whole := by
    rw [divided, wholeEnds.takeWhile_append allDigits]
  rw [run] at moved
  have found : Numeral.readFraction .decimal atPoint.ahead = (n.fraction, n.exponentText ++ rest) := by
    rw [moved.rest_eq divided]
    exact Numeral.readFraction_append fractionEnds
  apply Returns.bind (returns_fraction (show Digits Radix.decimal.isDigit _ _ from isDigit) atPoint)
  rintro _ atExponent ⟨-, -, step⟩
  rw [found] at step
  have shifted := (moved.shifted fun u member => isBreak_digit .decimal (allDigits u member)).trans step
  rw [← List.length_append] at shifted
  have significand : Numeral.significandText n.radix n.whole n.fraction
      = n.whole ++ (n.fraction.map (.of '.' :: ·)).getD [] := by
    rw [Numeral.significandText, decimal]
    rfl
  have later : (exponent n.radix chunk opening.position _).Ensures atExponent _ _ :=
    ensures_exponent_of_maximal maximal ahead isDigit (significand ▸ shifted)
  rw [decimal] at later
  refine ensures_bind later (fun _ _ => id) ?_
  rintro _ after ⟨wellFormed, whole, -⟩
  have spans := (whole.moved ahead maximal.isBreak_text).spans
  apply ensures_ask_bind
  apply Returns.bind (returns_slice_spans spans whole.units)
  rintro _ _ ⟨rfl, rfl⟩
  obtain ⟨value, accepted⟩ := accepts wellFormed
  rw [accepted]
  exact ensures_pure ⟨wellFormed, rfl, whole⟩

theorem ensures_decimalNumeral (decimal : n.radix = .decimal) :
    (decimalNumeral chunk opening.position).Ensures opening (ReadsNumber opening)
      (MisreadsNumber chunk opening) := by
  have accepts (wellFormed : n.isWellFormed = true) := parseNumber_text maximal wellFormed
  rw [decimalNumeral_eq]
  refine (ensures_decimalNumeralBy maximal ahead decimal _ fun wellFormed => ⟨_, accepts wellFormed⟩).mono
    ?_ fun _ _ => id
  rintro value after ⟨wellFormed, parsed, whole⟩
  obtain rfl := Option.some.inj ((accepts wellFormed).symm.trans parsed)
  exact readsNumber_of_maximal maximal ahead wellFormed whole

theorem ensures_hexNumeral_of_maximal {letter : CodeUnit} (radix : n.radix = .hexadecimal letter) :
    (hexNumeral chunk opening.position letter).Ensures opening (ReadsNumber opening)
      (MisreadsNumber chunk opening) := by
  have divided : opening.ahead
      = n.radix.text ++ (n.whole ++ (n.fractionText ++ (n.exponentText ++ rest))) := by
    rw [ahead, Numeral.text_eq]
    simp
  have two : n.radix.text.length = 2 := by rw [radix]; rfl
  have allDigits := maximal.whole_digits
  have wholeEnds := maximal.whole_ends
  have fractionEnds := maximal.fraction_ends
  rw [radix] at allDigits wholeEnds fractionEnds
  have run : (n.whole ++ (n.fractionText ++ (n.exponentText ++ rest))).takeWhile CodeUnit.isHexDigit
      = n.whole := wholeEnds.takeWhile_append allDigits
  have behind : (n.whole ++ (n.fractionText ++ (n.exponentText ++ rest))).dropWhile CodeUnit.isHexDigit
      = n.fractionText ++ (n.exponentText ++ rest) := wholeEnds.dropWhile_append allDigits
  apply Returns.bind (returns_hexWhole divided two)
  rw [run, behind]
  rintro _ atPoint ⟨rfl, pointAhead, shifted⟩
  have found : Numeral.readFraction (.hexadecimal letter) atPoint.ahead
      = (n.fraction, n.exponentText ++ rest) := by
    rw [pointAhead]
    exact Numeral.readFraction_append fractionEnds
  have pointed : ¬ (n.whole.length = 0 && !atPoint.isAt 0 '.') = true := by
    intro bare
    simp only [Bool.and_eq_true, decide_eq_true_eq, Bool.not_eq_true', List.length_eq_zero_iff] at bare
    obtain ⟨d, more, written⟩ := exists_fraction maximal.digits_ne_nil bare.1
    rw [isAt_zero, pointAhead, Numeral.fractionText, written] at bare
    simp at bare
  apply ensures_ask_bind
  rw [if_neg pointed]
  have isDigit : Digits (Radix.hexadecimal letter).isDigit hexDigits fun digits part =>
    part = (Numeral.hexadecimalDigits digits, digits.length) := returns_hexDigits
  apply Returns.bind (returns_fraction isDigit atPoint)
  rintro part? atExponent ⟨related, -, step⟩
  rw [found] at related step
  have later := shifted.trans step
  rw [← List.length_append] at later
  have digits : ¬ (part?.any fun part => n.whole.length = 0 && part.2 = 0) = true := by
    intro bare
    obtain ⟨part, same, empty⟩ := Option.any_eq_true _ _ |>.1 bare
    simp only [Bool.and_eq_true, decide_eq_true_eq, List.length_eq_zero_iff] at empty
    obtain ⟨d, more, written⟩ := exists_fraction maximal.digits_ne_nil empty.1
    rw [written, same] at related
    cases related with
    | some related =>
        rw [related] at empty
        cases empty.2
  rw [if_neg digits]
  have isExponent : Digits CodeUnit.isDigit exponentDigits fun digits value =>
    value = CodeUnit.numberOf 10 digits := returns_exponentDigits
  have exponents : (exponent n.radix chunk opening.position _).Ensures atExponent _ _ :=
    ensures_exponent_of_maximal maximal ahead isExponent later
  rw [radix] at exponents
  refine ensures_bind exponents (fun _ _ => id) ?_
  rintro exponent? after ⟨wellFormed, whole, exponentRelated⟩
  rw [value_of_hexadecimal radix related exponentRelated]
  exact ensures_pure (readsNumber_of_maximal maximal ahead wellFormed whole)

end Maximal

theorem ensures_hexNumeral_of_no_digits {letter : CodeUnit} {tail : List CodeUnit}
    (divided : opening.ahead = [.of '0', letter] ++ tail)
    (marked : Radix.ofUnits opening.ahead = .hexadecimal letter)
    (none : (Numeral.take opening.ahead).value.digits = []) :
    (hexNumeral chunk opening.position letter).Ensures opening (ReadsNumber opening)
      (MisreadsNumber chunk opening) := by
  have unbroken : ∀ u ∈ (Radix.ofUnits opening.ahead).text, u.isBreak = false := Numeral.isBreak_radix
  obtain ⟨stops, pointless, read⟩ := Numeral.read_of_no_digits none
  rw [marked] at stops pointless read unbroken
  have behind : opening.ahead.drop (Radix.hexadecimal letter).text.length = tail := by
    rw [divided]
    rfl
  rw [behind] at stops pointless read
  have noDigits : Stops CodeUnit.isHexDigit tail := stops
  apply Returns.bind (returns_hexWhole divided rfl)
  rw [noDigits.takeWhile_eq_nil, noDigits.dropWhile_eq]
  rintro _ atPoint ⟨rfl, rfl, shifted⟩
  apply ensures_ask_bind
  rw [isAt_zero]
  by_cases point : atPoint.ahead.head? = some (.of '.')
  · obtain ⟨rest, pointAhead⟩ := List.head?_eq_some_iff.1 point
    have isDigit : Digits (Radix.hexadecimal letter).isDigit hexDigits fun digits part =>
      part = (Numeral.hexadecimalDigits digits, digits.length) := returns_hexDigits
    rw [decide_eq_true point, if_neg (by simp)]
    apply Returns.bind (returns_fraction isDigit atPoint)
    rintro part? after ⟨related, -, step⟩
    have found : Numeral.readFraction (.hexadecimal letter) atPoint.ahead
        = (some (rest.takeWhile (Radix.hexadecimal letter).isDigit),
          rest.dropWhile (Radix.hexadecimal letter).isDigit) := by
      rw [pointAhead, Numeral.readFraction, if_pos rfl]
    rw [found, Option.getD_some] at pointless
    rw [found, pointless] at related step read
    cases related with
    | some same =>
        have whole := shifted.trans step
        rw [← List.length_append] at whole
        rw [same, if_pos (by simp)]
        apply ensures_fail_shifted whole
        have front : opening.ahead = Numeral.significandText (.hexadecimal letter) [] (some []) ++ rest := by
          rw [divided, pointAhead]
          rfl
        refine misreadsNumber_of_shifted read front ?_ whole
        intro v member
        rcases List.mem_append.1 member with mark | dot
        · exact unbroken v (by simpa using mark)
        · obtain rfl : v = .of '.' := by simpa using dot
          decide
  · rw [readFraction_of_no_point point] at read
    rw [decide_eq_false point, if_pos (by simp)]
    apply ensures_fail_shifted shifted
    exact misreadsNumber_of_shifted read divided unbroken shifted

theorem digits_ne_nil_of_decimal {u : CodeUnit} {rest : List CodeUnit}
    (begins : Lexeme.beginsNumeral u rest = true) (decimal : Radix.ofUnits (u :: rest) = .decimal) :
    (Numeral.take (u :: rest)).value.digits ≠ [] := by
  intro none
  obtain ⟨stops, pointless, -⟩ := Numeral.read_of_no_digits none
  rw [decimal] at stops pointless
  rcases Lexeme.beginsNumeral_iff.1 begins with digit | ⟨rfl, v, next, digit⟩
  · have other : u.isDigit = false := stops u rfl
    rw [digit] at other
    cases other
  · obtain ⟨tail, rfl⟩ := List.head?_eq_some_iff.1 next
    simp [Radix.text, Numeral.readFraction, Radix.isDigit, digit] at pointless

theorem finds_of_number {scan : Scan Binary64}
    (h : scan.Ensures opening (ReadsNumber opening) (MisreadsNumber chunk opening)) :
    Finds (.number <$> scan) chunk opening
      (.ofToken (fun numeral => .number numeral.value) (Numeral.read opening.ahead)) := by
  apply Ensures.map
  refine h.mono ?_ ?_
  · rintro value after ⟨cut, read, rfl, moved⟩
    have rest := moved.rest_eq (Numeral.splits_of_read read).text_append_rest.symm
    rw [read]
    exact ⟨cut.text, by rw [rest]; rfl, moved⟩
  · rintro d after ⟨m, read, fails⟩
    rw [read]
    exact ⟨m, rfl, fails⟩

theorem text_append_rest (input : List CodeUnit) :
    (Numeral.take input).value.text ++ (Numeral.take input).rest = input :=
  Numeral.text_append_rest_take input

theorem ensures_decimalNumeral_of_begins {u : CodeUnit} {rest : List CodeUnit}
    (ahead : opening.ahead = u :: rest) (begins : Lexeme.beginsNumeral u rest = true)
    (decimal : Radix.ofUnits (u :: rest) = .decimal) :
    (decimalNumeral chunk opening.position).Ensures opening (ReadsNumber opening)
      (MisreadsNumber chunk opening) := by
  have maximal := Numeral.maximal_take (digits_ne_nil_of_decimal begins decimal)
  have radix := maximal.radix_eq
  rw [text_append_rest, decimal] at radix
  have divided := ahead.trans (text_append_rest _).symm
  exact ensures_decimalNumeral maximal divided radix.symm

theorem ensures_hexNumeral {letter : CodeUnit} {rest : List CodeUnit}
    (ahead : opening.ahead = .of '0' :: letter :: rest)
    (marked : Radix.ofUnits opening.ahead = .hexadecimal letter) :
    (hexNumeral chunk opening.position letter).Ensures opening (ReadsNumber opening)
      (MisreadsNumber chunk opening) := by
  by_cases none : (Numeral.take opening.ahead).value.digits = []
  · exact ensures_hexNumeral_of_no_digits ahead marked none
  · have maximal := Numeral.maximal_take none
    have radix := maximal.radix_eq
    rw [text_append_rest, marked] at radix
    have divided := (text_append_rest opening.ahead).symm
    exact ensures_hexNumeral_of_maximal maximal divided radix.symm

theorem finds_numeral {u : CodeUnit} {rest : List CodeUnit} (ahead : opening.ahead = u :: rest)
    (begins : Lexeme.beginsNumeral u rest = true) :
    Finds (numeral chunk opening.position) chunk opening
      (.ofToken (fun numeral => .number numeral.value) (Numeral.read opening.ahead)) := by
  have second : opening.peekAt 1 = rest.head? := by
    rw [peekAt_eq, ahead, List.head?_eq_getElem?]
    rfl
  have zero : opening.isAt 0 '0' = decide (u = .of '0') := by
    rw [isAt_zero, ahead, List.head?_cons]
    simp
  apply ensures_ask_bind
  rw [second]
  cases rest with
  | nil => exact finds_of_number (ensures_decimalNumeral_of_begins ahead begins rfl)
  | cons letter tail =>
      apply ensures_ask_bind
      rw [zero]
      by_cases mark : (u = .of '0' && (letter = .of 'x' || letter = .of 'X')) = true
      · have marked : Radix.ofUnits opening.ahead = .hexadecimal letter := by
          rw [ahead, Radix.ofUnits, if_pos mark]
        rw [if_pos mark]
        simp only [Bool.and_eq_true, decide_eq_true_eq] at mark
        rw [mark.1] at ahead
        exact finds_of_number (ensures_hexNumeral ahead marked)
      · have decimal : Radix.ofUnits (u :: letter :: tail) = .decimal := by
          rw [Radix.ofUnits, if_neg mark]
        rw [if_neg mark]
        exact finds_of_number (ensures_decimalNumeral_of_begins ahead begins decimal)

end Specs

end Scan

end LuaTokens
