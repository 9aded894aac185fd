import LuaTokens.Proofs.Lexeme.Escape
import LuaTokens.Proofs.Lexeme.Form
import LuaTokens.Proofs.Text.Point

/-! # The grammar of escapes

What may stand behind a backslash, and the bytes that it is written for. The reader of
escapes accepts exactly this: whatever it reads is of one of these forms, and each form
is read for its bytes, as far as it goes.
-/

namespace LuaTokens

namespace CodeUnit

/-- The text is one line break before `rest`: a line feed or a carriage return, or one of
    each in either order. -/
inductive LineEnd (rest : List CodeUnit) : List CodeUnit → Prop where
  | pair {u v : CodeUnit} (first : u.isBreak = true) (second : v.isBreak = true) (different : v ≠ u) :
      LineEnd rest [u, v]
  | single {u : CodeUnit} (broken : u.isBreak = true)
      (alone : ∀ v ∈ rest.head?, v.isBreak = true → v = u) : LineEnd rest [u]

theorem LineEnd.breakWidth_eq {text rest : List CodeUnit} (h : LineEnd rest text) :
    breakWidth (text ++ rest) = text.length := by
  cases h with
  | pair first second different => simp [breakWidth, first, second, different]
  | @single u broken alone =>
      cases rest with
      | nil => simp [breakWidth, broken]
      | cons v tail =>
          have whole : ¬ (v.isBreak && v != u) = true := by
            simpa using alone v rfl
          simp only [List.singleton_append, breakWidth, if_pos broken, if_neg whole, List.length_singleton]

theorem lineEnd_take_breakWidth {u : CodeUnit} (broken : u.isBreak = true) (rest : List CodeUnit) :
    LineEnd ((u :: rest).drop (breakWidth (u :: rest))) ((u :: rest).take (breakWidth (u :: rest))) := by
  cases rest with
  | nil =>
      simp only [breakWidth, if_pos broken]
      exact .single broken (by simp)
  | cons v tail =>
      simp only [breakWidth, if_pos broken]
      split
      next pair =>
        simp only [Bool.and_eq_true, bne_iff_ne] at pair
        exact .pair broken pair.1 pair.2
      next single =>
        refine .single broken ?_
        simpa using single

end CodeUnit

namespace Utf16

/-- The text is one code point before `rest`: a surrogate pair, or a unit that begins none. -/
inductive OnePoint (rest : List CodeUnit) : List CodeUnit → Prop where
  | pair {high low : CodeUnit} (isHigh : high.isHighSurrogate = true) (isLow : low.isLowSurrogate = true) :
      OnePoint rest [high, low]
  | single {u : CodeUnit} (whole : ¬ Cuts [u] rest) : OnePoint rest [u]

theorem OnePoint.leadingWidth_eq {text rest : List CodeUnit} (h : OnePoint rest text) :
    leadingWidth (text ++ rest) = text.length := by
  cases h with
  | pair isHigh isLow => simp [leadingWidth, isHigh, isLow]
  | single whole =>
      cases rest with
      | nil => rfl
      | cons v tail =>
          rw [cuts_singleton, ← Bool.and_eq_true] at whole
          exact if_neg whole

theorem onePoint_take_leadingWidth (u : CodeUnit) (rest : List CodeUnit) :
    OnePoint ((u :: rest).drop (leadingWidth (u :: rest))) ((u :: rest).take (leadingWidth (u :: rest))) := by
  cases rest with
  | nil => exact .single fun cuts => by simp [leadingWidth, Cuts] at cuts
  | cons v tail =>
      rw [leadingWidth]
      split
      next pair =>
        rw [Bool.and_eq_true] at pair
        exact .pair pair.1 pair.2
      next single =>
        rw [Bool.and_eq_true] at single
        exact .single (by rwa [List.drop_succ_cons, List.drop_zero, cuts_singleton])

end Utf16

namespace Escape

/-- The characters that have a byte of their own behind a backslash. -/
def simple : List (Char × UInt8) :=
  [('a', 0x07), ('b', 0x08), ('f', 0x0C), ('n', 0x0A), ('r', 0x0D), ('t', 0x09), ('v', 0x0B),
    ('\\', 0x5C), ('"', 0x22), ('\'', 0x27)]

/-- The unit comes first behind the backslash in one of the escapes that the dialect has. -/
inductive Opens (features : FeatureSet) : CodeUnit → Prop where
  | simple {c : Char} {byte : UInt8} (h : (c, byte) ∈ simple) : Opens features (.of c)
  | lineBreak {u : CodeUnit} (broken : u.isBreak = true) : Opens features u
  | decimal {u : CodeUnit} (digit : u.isDigit = true) : Opens features u
  | skip (has : .skipEscape ∈ features) : Opens features (.of 'z')
  | hexadecimal (has : .hexEscapes ∈ features) : Opens features (.of 'x')
  | codePoint (has : .codePointEscapes ∈ features) : Opens features (.of 'u')

/-- Behind a backslash and before `rest` the text is an escape for these bytes. -/
inductive Denotes (features : FeatureSet) (rest : List CodeUnit) : List CodeUnit → ByteString → Prop where
  | simple {c : Char} {byte : UInt8} (h : (c, byte) ∈ simple) : Denotes features rest [.of c] [byte]
  | lineBreak {text : List CodeUnit} (h : CodeUnit.LineEnd rest text) : Denotes features rest text [0x0A]
  | decimal {digits : List CodeUnit} (nonempty : digits ≠ []) (short : digits.length ≤ 3)
      (all : ∀ u ∈ digits, u.isDigit = true)
      (maximal : digits.length < 3 → Stops CodeUnit.isDigit rest)
      (small : CodeUnit.numberOf 10 digits ≤ 255) :
      Denotes features rest digits [UInt8.ofNat (CodeUnit.numberOf 10 digits)]
  | skip {spaces : List CodeUnit} (has : .skipEscape ∈ features)
      (all : ∀ u ∈ spaces, u.isSpace = true) (maximal : Stops CodeUnit.isSpace rest) :
      Denotes features rest (.of 'z' :: spaces) []
  | hexadecimal {high low : CodeUnit} (has : .hexEscapes ∈ features)
      (highDigit : high.isHexDigit = true) (lowDigit : low.isHexDigit = true) :
      Denotes features rest [.of 'x', high, low] [UInt8.ofNat (CodeUnit.numberOf 16 [high, low])]
  | codePoint {digits : List CodeUnit} (has : .codePointEscapes ∈ features) (nonempty : digits ≠ [])
      (all : ∀ u ∈ digits, u.isHexDigit = true)
      (short : (digits.dropWhile (· == .of '0')).length ≤ 6)
      (small : CodeUnit.numberOf 16 digits ≤ 0x10FFFF) :
      Denotes features rest (.of 'u' :: .of '\x7b' :: (digits ++ [.of '\x7d']))
        (Utf8.encode (CodeUnit.numberOf 16 digits))
  | other {u : CodeUnit} {more : List CodeUnit} (lenient : .strictEscapes ∉ features)
      (unruled : ¬ Opens features u) (point : Utf16.OnePoint rest (u :: more)) :
      Denotes features rest (u :: more) (.ofUnits (u :: more))

section Equations

variable {features : FeatureSet} {u : CodeUnit} {rest : List CodeUnit}

theorem read_simple {c : Char} {byte : UInt8} (h : (c, byte) ∈ simple) :
    read features (.of c) rest = ⟨.ok [byte], 1⟩ := by
  have known : ∀ pair ∈ simple, control? (.of pair.1) = some pair.2
      ∨ isSelf (.of pair.1) = true ∧ UInt8.ofNat (CodeUnit.of pair.1).toNat = pair.2 := by decide
  rcases known _ h with control | ⟨self, value⟩
  · rw [read, control]
  · rw [read_self self, value]

theorem read_lineBreak (broken : u.isBreak = true) :
    read features u rest = ⟨.ok [0x0A], CodeUnit.breakWidth (u :: rest)⟩ := by
  rw [read, control?_of_isBreak broken, if_pos broken]

theorem read_digit (digit : u.isDigit = true) : read features u rest = decimal (u :: rest) := by
  have member := CodeUnit.isDigit_iff.1 digit
  have noLetters : CodeUnit.digits.any (fun v => (control? v).isSome) = false := by decide
  have control : (control? u).isSome = false := CodeUnit.forall_of_any noLetters u member
  have unbroken : u.isBreak = false := CodeUnit.forall_of_any (by decide) u member
  rw [Option.isSome_eq_false_iff, Option.isNone_iff_eq_none] at control
  rw [read, control, unbroken, if_neg (by simp), if_pos digit]

theorem read_skip (has : .skipEscape ∈ features) :
    read features (.of 'z') rest = ⟨.ok [], 1 + (rest.takeWhile CodeUnit.isSpace).length⟩ := by
  have other : control? (.of 'z') = none ∧ (CodeUnit.of 'z').isBreak = false
      ∧ (CodeUnit.of 'z').isDigit = false := by decide
  simp [read, other, has]

theorem read_letter_x (has : .hexEscapes ∈ features) : read features (.of 'x') rest = hexadecimal rest := by
  have other : control? (.of 'x') = none ∧ (CodeUnit.of 'x').isBreak = false
      ∧ (CodeUnit.of 'x').isDigit = false ∧ CodeUnit.of 'x' ≠ .of 'z' := by decide
  simp [read, other, has]

theorem read_letter_u (has : .codePointEscapes ∈ features) : read features (.of 'u') rest = codePoint rest := by
  have other : control? (.of 'u') = none ∧ (CodeUnit.of 'u').isBreak = false
      ∧ (CodeUnit.of 'u').isDigit = false ∧ CodeUnit.of 'u' ≠ .of 'z' ∧ CodeUnit.of 'u' ≠ .of 'x' := by
    decide
  simp [read, other, has]

theorem mem_simple_of_control? {byte : UInt8} (h : control? u = some byte) :
    ∃ c, u = .of c ∧ (c, byte) ∈ simple := by
  unfold control? at h
  repeat' split at h
  all_goals cases h
  all_goals exact ⟨_, ‹u = _›, by decide⟩

theorem opens_of_isSelf (self : isSelf u = true) : Opens features u := by
  simp only [isSelf, CodeUnit.isQuote, Bool.or_eq_true, beq_iff_eq] at self
  rcases self with rfl | rfl | rfl
  · exact .simple (show ('\\', (0x5C : UInt8)) ∈ simple by decide)
  · exact .simple (show ('"', (0x22 : UInt8)) ∈ simple by decide)
  · exact .simple (show ('\'', (0x27 : UInt8)) ∈ simple by decide)

theorem read_of_not_opens (unruled : ¬ Opens features u) :
    read features u rest = if .strictEscapes ∈ features then
        ⟨.error .invalidEscape, Utf16.leadingWidth (u :: rest)⟩
      else literal (u :: rest) := by
  have control : control? u = none := by
    rw [Option.eq_none_iff_forall_ne_some]
    intro byte found
    obtain ⟨c, rfl, member⟩ := mem_simple_of_control? found
    exact unruled (.simple member)
  have unbroken : ¬ u.isBreak = true := fun broken => unruled (.lineBreak broken)
  have noDigit : ¬ u.isDigit = true := fun digit => unruled (.decimal digit)
  have noSkip : ¬ (u = .of 'z' && .skipEscape ∈ features) = true := by
    simp only [Bool.and_eq_true, decide_eq_true_eq]
    rintro ⟨rfl, has⟩
    exact unruled (.skip has)
  have noHex : ¬ (u = .of 'x' && .hexEscapes ∈ features) = true := by
    simp only [Bool.and_eq_true, decide_eq_true_eq]
    rintro ⟨rfl, has⟩
    exact unruled (.hexadecimal has)
  have noBraces : ¬ (u = .of 'u' && .codePointEscapes ∈ features) = true := by
    simp only [Bool.and_eq_true, decide_eq_true_eq]
    rintro ⟨rfl, has⟩
    exact unruled (.codePoint has)
  have noSelf : isSelf u = false := by
    rw [← Bool.not_eq_true]
    exact fun self => unruled (opens_of_isSelf self)
  simp only [read, control, if_neg unbroken, if_neg noDigit, if_neg noSkip, if_neg noHex, if_neg noBraces,
    noSelf, Bool.not_false, Bool.true_and, decide_eq_true_eq]

end Equations

section Parts

variable {digits rest : List CodeUnit}

theorem takeWhile_take_of_maximal (short : digits.length ≤ 3) (all : ∀ u ∈ digits, u.isDigit = true)
    (maximal : digits.length < 3 → Stops CodeUnit.isDigit rest) :
    ((digits ++ rest).take 3).takeWhile CodeUnit.isDigit = digits := by
  have stops : Stops CodeUnit.isDigit (rest.take (3 - digits.length)) := by
    intro u next
    rw [List.head?_take] at next
    split at next
    · cases next
    next room => exact maximal (by omega) u next
  rw [List.take_append, List.take_of_length_le short]
  exact stops.takeWhile_append all

theorem maximal_of_takeWhile_take (input : List CodeUnit) :
    let digits := (input.take 3).takeWhile CodeUnit.isDigit
    digits.length < 3 → Stops CodeUnit.isDigit (input.drop digits.length) := by
  intro digits room
  have stops : Stops CodeUnit.isDigit ((input.take 3).dropWhile CodeUnit.isDigit) := stops_dropWhile _
  rw [← drop_length_takeWhile, List.drop_take] at stops
  refine stops.of_head_eq ?_
  rw [List.head?_take, if_neg (Nat.sub_ne_zero_of_lt room)]

end Parts

section Complete

variable {features : FeatureSet} {u : CodeUnit} {more rest : List CodeUnit} {bytes : ByteString}

theorem Denotes.exists_cons {text : List CodeUnit} (h : Denotes features rest text bytes) :
    ∃ u more, text = u :: more := by
  cases h with
  | lineBreak lineEnd => cases lineEnd <;> exact ⟨_, _, rfl⟩
  | decimal nonempty => exact List.exists_cons_of_ne_nil nonempty
  | _ => exact ⟨_, _, rfl⟩

theorem codePoint_of_digits {digits : List CodeUnit} (nonempty : digits ≠ [])
    (all : ∀ u ∈ digits, u.isHexDigit = true) (short : (digits.dropWhile (· == .of '0')).length ≤ 6)
    (small : CodeUnit.numberOf 16 digits ≤ 0x10FFFF) (rest : List CodeUnit) :
    codePoint (.of '\x7b' :: (digits ++ .of '\x7d' :: rest))
      = ⟨.ok (Utf8.encode (CodeUnit.numberOf 16 digits)), 3 + digits.length⟩ := by
  rw [codePoint_braced all]
  simp only [bracedOutcome, if_neg nonempty, if_neg (Nat.not_lt.2 short), CodeUnit.numberOf_dropWhile_zero,
    if_pos small]

theorem read_of_denotes (h : Denotes features rest (u :: more) bytes) :
    read features u (more ++ rest) = ⟨.ok bytes, (u :: more).length⟩ := by
  generalize textEq : u :: more = text at h
  cases h with
  | simple member =>
      cases textEq
      exact read_simple member
  | lineBreak lineEnd =>
      have broken : u.isBreak = true := by
        cases lineEnd with
        | pair first second different => cases textEq; exact first
        | single broken alone => cases textEq; exact broken
      have width := lineEnd.breakWidth_eq
      rw [← textEq, List.cons_append] at width
      rw [read_lineBreak broken, width, textEq]
  | decimal nonempty short all maximal small =>
      subst textEq
      have digit := all u List.mem_cons_self
      have run := takeWhile_take_of_maximal short all maximal
      rw [List.cons_append] at run
      rw [read_digit digit, decimal]
      simp only [run, if_pos small]
  | @skip spaces has all maximal =>
      cases textEq
      rw [read_skip has, maximal.takeWhile_append all, List.length_cons, Nat.add_comm]
  | hexadecimal has highDigit lowDigit =>
      cases textEq
      rw [read_letter_x has]
      simp [hexadecimal, highDigit, lowDigit, CodeUnit.numberOf]
  | @codePoint digits has nonempty all short small =>
      cases textEq
      rw [read_letter_u has, List.cons_append, List.append_assoc, List.singleton_append,
        codePoint_of_digits nonempty all short small]
      simp
      omega
  | other lenient unruled point =>
      cases textEq
      have width := point.leadingWidth_eq
      rw [List.cons_append] at width
      rw [read_of_not_opens unruled, if_neg lenient, literal, width, ← List.cons_append, List.take_left]

end Complete

section Sound

variable {features : FeatureSet} {u : CodeUnit} {rest : List CodeUnit} {bytes : ByteString}

theorem denotes_of_decimal (digit : u.isDigit = true) (ok : (decimal (u :: rest)).outcome = .ok bytes) :
    Denotes features ((u :: rest).drop (decimal (u :: rest)).width)
      ((u :: rest).take (decimal (u :: rest)).width) bytes := by
  have maximal := maximal_of_takeWhile_take (u :: rest)
  have front : ((u :: rest).take 3).takeWhile CodeUnit.isDigit <+: u :: rest :=
    (List.takeWhile_prefix _).trans (List.take_prefix _ _)
  simp only [decimal] at ok ⊢
  split at ok
  next small =>
    cases ok
    rw [← List.prefix_iff_eq_take.1 front]
    refine .decimal ?_ ?_ (fun v member => List.mem_takeWhile_imp member) maximal small
    · simp [digit]
    · exact (List.takeWhile_prefix _).length_le.trans (List.length_take_le _ _)
  · cases ok

theorem denotes_of_hexadecimal (has : .hexEscapes ∈ features)
    (ok : (hexadecimal rest).outcome = .ok bytes) :
    Denotes features ((.of 'x' :: rest).drop (hexadecimal rest).width)
      ((.of 'x' :: rest).take (hexadecimal rest).width) bytes := by
  unfold hexadecimal at ok ⊢
  split at ok
  next high low tail =>
    split at ok
    · cases ok
    next highDigit =>
      split at ok
      · cases ok
      next lowDigit =>
        cases ok
        have value : high.digitValue * 16 + low.digitValue = CodeUnit.numberOf 16 [high, low] := by
          simp [CodeUnit.numberOf]
        rw [if_neg highDigit, if_neg lowDigit, value]
        exact .hexadecimal has (by simpa using highDigit) (by simpa using lowDigit)
  · cases ok

theorem denotes_of_codePoint (has : .codePointEscapes ∈ features)
    (ok : (codePoint rest).outcome = .ok bytes) :
    Denotes features ((.of 'u' :: rest).drop (codePoint rest).width)
      ((.of 'u' :: rest).take (codePoint rest).width) bytes := by
  obtain ⟨digits, tail, rfl, all⟩ := braced_of_codePoint ok
  rw [codePoint_braced all] at ok ⊢
  rw [width_bracedOutcome ok]
  have divided : CodeUnit.of 'u' :: .of '\x7b' :: (digits ++ .of '\x7d' :: tail)
      = (.of 'u' :: .of '\x7b' :: (digits ++ [.of '\x7d'])) ++ tail := by simp
  have length : (CodeUnit.of 'u' :: .of '\x7b' :: (digits ++ [.of '\x7d'])).length = 3 + digits.length := by
    simp
    omega
  rw [divided, ← length, List.drop_left, List.take_left]
  simp only [bracedOutcome, CodeUnit.numberOf_dropWhile_zero] at ok
  split at ok
  · cases ok
  next nonempty =>
    split at ok
    · cases ok
    next short =>
      split at ok
      next small =>
        cases ok
        exact .codePoint has nonempty all (Nat.not_lt.1 short) small
      · cases ok

/-- Whatever is read behind a backslash is an escape of the grammar. -/
theorem denotes_of_read (ok : (read features u rest).outcome = .ok bytes) :
    Denotes features ((u :: rest).drop (read features u rest).width)
      ((u :: rest).take (read features u rest).width) bytes := by
  by_cases opens : Opens features u
  · cases opens with
    | simple member =>
        rw [read_simple member] at ok ⊢
        cases ok
        exact .simple member
    | lineBreak broken =>
        rw [read_lineBreak broken] at ok ⊢
        cases ok
        exact .lineBreak (CodeUnit.lineEnd_take_breakWidth broken rest)
    | decimal digit =>
        rw [read_digit digit] at ok ⊢
        exact denotes_of_decimal digit ok
    | skip has =>
        rw [read_skip has] at ok ⊢
        cases ok
        rw [Nat.add_comm, List.drop_succ_cons, List.take_succ_cons, drop_length_takeWhile,
          ← List.prefix_iff_eq_take.1 (List.takeWhile_prefix _)]
        exact .skip has (fun v member => List.mem_takeWhile_imp member) (stops_dropWhile rest)
    | hexadecimal has =>
        rw [read_letter_x has] at ok ⊢
        exact denotes_of_hexadecimal has ok
    | codePoint has =>
        rw [read_letter_u has] at ok ⊢
        exact denotes_of_codePoint has ok
  · rw [read_of_not_opens opens] at ok ⊢
    split at ok
    · cases ok
    next lenient =>
      cases ok
      rw [if_neg lenient]
      have point := Utf16.onePoint_take_leadingWidth u rest
      simp only [literal]
      obtain ⟨width, widthEq⟩ : ∃ n, Utf16.leadingWidth (u :: rest) = n + 1 :=
        ⟨_, (Nat.sub_add_cancel (Utf16.leadingWidth_pos u rest)).symm⟩
      rw [widthEq, List.take_succ_cons] at point ⊢
      exact .other lenient opens point

end Sound

end Escape

end LuaTokens
