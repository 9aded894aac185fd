import LuaTokens.Text.Utf16
import Mathlib.Data.List.Basic

/-! # Code points and surrogates

The code points of a text give back its units. They are those of its parts wherever no
surrogate pair is cut, and all of them are characters exactly when each surrogate in the
text is half of a pair.
-/

namespace LuaTokens

namespace CodeUnit

theorem isHighSurrogate_iff {u : CodeUnit} :
    u.isHighSurrogate = true ↔ 0xD800 ≤ u.toNat ∧ u.toNat ≤ 0xDBFF := by
  simp [isHighSurrogate, UInt16.le_iff_toNat_le]

theorem isLowSurrogate_iff {u : CodeUnit} :
    u.isLowSurrogate = true ↔ 0xDC00 ≤ u.toNat ∧ u.toNat ≤ 0xDFFF := by
  simp [isLowSurrogate, UInt16.le_iff_toNat_le]

end CodeUnit

namespace Utf16

/-- The units of a code point, as `encodeChar` gives them for a character. -/
def encodePoint (point : Nat) : List CodeUnit :=
  if point < 0x10000 then
    [UInt16.ofNat point]
  else
    [UInt16.ofNat (0xD800 + (point - 0x10000) / 0x400),
      UInt16.ofNat (0xDC00 + (point - 0x10000) % 0x400)]

/-- The first text ends in the middle of a surrogate pair that the second one completes. -/
def Cuts (first second : List CodeUnit) : Prop :=
  (∃ u ∈ first.getLast?, u.isHighSurrogate = true) ∧ ∃ v ∈ second.head?, v.isLowSurrogate = true

/-- Somewhere in the text stands a surrogate that is not half of a pair. -/
def Unpaired (units : List CodeUnit) : Prop :=
  ∃ before u after, units = before ++ u :: after
    ∧ (u.isHighSurrogate = true ∧ ¬ Cuts [u] after ∨ u.isLowSurrogate = true ∧ ¬ Cuts before [u])

theorem encodePoint_toNat (u : CodeUnit) : encodePoint u.toNat = [u] := by
  rw [encodePoint, if_pos u.toNat_lt, UInt16.ofNat_toNat]

section Pairs

variable {high low : CodeUnit}

theorem pairValue_bounds (isHigh : high.isHighSurrogate = true) (isLow : low.isLowSurrogate = true) :
    0x10000 ≤ pairValue high low ∧ pairValue high low < 0x110000 := by
  obtain ⟨_, _⟩ := CodeUnit.isHighSurrogate_iff.1 isHigh
  obtain ⟨_, _⟩ := CodeUnit.isLowSurrogate_iff.1 isLow
  unfold pairValue
  omega

theorem encodePoint_pairValue (isHigh : high.isHighSurrogate = true)
    (isLow : low.isLowSurrogate = true) : encodePoint (pairValue high low) = [high, low] := by
  have bounds := pairValue_bounds isHigh isLow
  obtain ⟨_, _⟩ := CodeUnit.isHighSurrogate_iff.1 isHigh
  obtain ⟨_, _⟩ := CodeUnit.isLowSurrogate_iff.1 isLow
  have first : 0xD800 + (pairValue high low - 0x10000) / 0x400 = high.toNat := by
    unfold pairValue
    omega
  have second : 0xDC00 + (pairValue high low - 0x10000) % 0x400 = low.toNat := by
    unfold pairValue
    omega
  rw [encodePoint, if_neg (Nat.not_lt.2 bounds.1), first, second, UInt16.ofNat_toNat,
    UInt16.ofNat_toNat]

theorem points_pair (isHigh : high.isHighSurrogate = true) (isLow : low.isLowSurrogate = true)
    (rest : List CodeUnit) : points (high :: low :: rest) = pairValue high low :: points rest := by
  rw [points, isHigh, isLow]
  rfl

theorem points_cons {u : CodeUnit} {rest : List CodeUnit} (whole : ¬ Cuts [u] rest) :
    points (u :: rest) = u.toNat :: points rest := by
  cases rest with
  | nil => rfl
  | cons v rest =>
      rw [points, if_neg]
      intro pair
      simp only [Bool.and_eq_true] at pair
      exact whole ⟨⟨u, rfl, pair.1⟩, v, rfl, pair.2⟩

theorem cuts_singleton_left {u : CodeUnit} {rest : List CodeUnit} :
    Cuts [u] rest ↔ u.isHighSurrogate = true ∧ ∃ v ∈ rest.head?, v.isLowSurrogate = true := by
  simp [Cuts]

theorem cuts_singleton_right {u : CodeUnit} {text : List CodeUnit} :
    Cuts text [u] ↔ (∃ v ∈ text.getLast?, v.isHighSurrogate = true) ∧ u.isLowSurrogate = true := by
  simp [Cuts]

theorem cuts_singleton {u v : CodeUnit} {rest : List CodeUnit} :
    Cuts [u] (v :: rest) ↔ u.isHighSurrogate = true ∧ v.isLowSurrogate = true := by
  simp [Cuts]

end Pairs

theorem flatMap_encodePoint_points (units : List CodeUnit) :
    (points units).flatMap encodePoint = units := by
  fun_induction points units with
  | case1 => rfl
  | case2 u => simp [encodePoint_toNat]
  | case3 high low rest pair ih =>
      simp only [Bool.and_eq_true] at pair
      rw [List.flatMap_cons, encodePoint_pairValue pair.1 pair.2, ih]
      rfl
  | case4 high low rest _ ih =>
      rw [List.flatMap_cons, encodePoint_toNat, ih]
      rfl

theorem lt_of_mem_points {units : List CodeUnit} : ∀ point ∈ points units, point < 0x110000 := by
  fun_induction points units with
  | case1 => simp
  | case2 u =>
      intro point member
      have := u.toNat_lt
      rw [List.mem_singleton.1 member]
      omega
  | case3 high low rest pair ih =>
      simp only [Bool.and_eq_true] at pair
      exact List.forall_mem_cons.2 ⟨(pairValue_bounds pair.1 pair.2).2, ih⟩
  | case4 high low rest _ ih =>
      have := high.toNat_lt
      exact List.forall_mem_cons.2 ⟨by omega, ih⟩

theorem points_append {first second : List CodeUnit} (whole : ¬ Cuts first second) :
    points (first ++ second) = points first ++ points second := by
  fun_induction points first with
  | case1 => rfl
  | case2 u => exact points_cons whole
  | case3 high low rest pair ih =>
      simp only [Bool.and_eq_true] at pair
      have later : ¬ Cuts rest second := by
        rintro ⟨⟨u, last, isHigh⟩, begins⟩
        refine whole ⟨⟨u, ?_, isHigh⟩, begins⟩
        rw [List.getLast?_cons_cons, List.getLast?_cons, last]
        rfl
      rw [List.cons_append, List.cons_append, points_pair pair.1 pair.2, ih later]
      rfl
  | case4 high low rest apart ih =>
      have later : ¬ Cuts (low :: rest) second := whole
      have alone : ¬ Cuts [high] (low :: rest ++ second) := by
        rw [List.cons_append, cuts_singleton, ← Bool.and_eq_true]
        exact apart
      rw [List.cons_append, points_cons alone, ih later]
      rfl

section Unpaired

variable {u : CodeUnit} {before after units : List CodeUnit}

/-- A unit between whose neighbours and itself no pair is cut is a code point. -/
theorem mem_points (left : ¬ Cuts before [u]) (right : ¬ Cuts [u] after) :
    u.toNat ∈ points (before ++ u :: after) := by
  have begins : ¬ Cuts before (u :: after) := left
  rw [points_append begins, points_cons right]
  simp

theorem not_cuts_of_high (high : u.isHighSurrogate = true) : ¬ Cuts before [u] := by
  intro cut
  have low := (cuts_singleton_right.1 cut).2
  have := CodeUnit.isHighSurrogate_iff.1 high
  have := CodeUnit.isLowSurrogate_iff.1 low
  omega

theorem not_cuts_of_low (low : u.isLowSurrogate = true) : ¬ Cuts [u] after := by
  intro cut
  have high := (cuts_singleton_left.1 cut).1
  have := CodeUnit.isHighSurrogate_iff.1 high
  have := CodeUnit.isLowSurrogate_iff.1 low
  omega

theorem exists_invalid_of_unpaired (h : Unpaired units) :
    ∃ point ∈ points units, ¬ point.isValidChar := by
  obtain ⟨before, u, after, rfl, ⟨high, alone⟩ | ⟨low, alone⟩⟩ := h
  · refine ⟨u.toNat, mem_points (not_cuts_of_high high) alone, ?_⟩
    have := CodeUnit.isHighSurrogate_iff.1 high
    unfold Nat.isValidChar
    omega
  · refine ⟨u.toNat, mem_points alone (not_cuts_of_low low), ?_⟩
    have := CodeUnit.isLowSurrogate_iff.1 low
    unfold Nat.isValidChar
    omega

theorem Unpaired.cons (whole : ¬ Cuts [u] units) (h : Unpaired units) : Unpaired (u :: units) := by
  obtain ⟨before, v, after, rfl, ⟨high, alone⟩ | ⟨low, alone⟩⟩ := h
  · exact ⟨u :: before, v, after, rfl, .inl ⟨high, alone⟩⟩
  · refine ⟨u :: before, v, after, rfl, .inr ⟨low, ?_⟩⟩
    cases before with
    | nil => exact whole
    | cons w before => exact alone

theorem unpaired_of_front (whole : ¬ Cuts [u] after) (invalid : ¬ u.toNat.isValidChar) :
    Unpaired (u :: after) := by
  refine ⟨[], u, after, rfl, ?_⟩
  have surrogate : 0xD800 ≤ u.toNat ∧ u.toNat ≤ 0xDFFF := by
    have := u.toNat_lt
    unfold Nat.isValidChar at invalid
    omega
  by_cases high : u.isHighSurrogate = true
  · exact .inl ⟨high, whole⟩
  · refine .inr ⟨?_, by simp [Cuts]⟩
    rw [CodeUnit.isHighSurrogate_iff] at high
    rw [CodeUnit.isLowSurrogate_iff]
    omega

theorem unpaired_of_invalid : ∀ point ∈ points units, ¬ point.isValidChar → Unpaired units := by
  fun_induction points units with
  | case1 => simp
  | case2 u =>
      intro point member invalid
      rw [List.mem_singleton.1 member] at invalid
      exact unpaired_of_front (by simp [Cuts]) invalid
  | case3 high low rest pair ih =>
      simp only [Bool.and_eq_true] at pair
      have notHigh : ∀ other, ¬ Cuts [low] other := fun _ => not_cuts_of_low pair.2
      have bounds := pairValue_bounds pair.1 pair.2
      intro point member invalid
      rcases List.mem_cons.1 member with here | later
      · unfold Nat.isValidChar at invalid
        omega
      · obtain ⟨before, u, after, rfl, alone⟩ := ih point later invalid
        refine ⟨high :: low :: before, u, after, rfl, ?_⟩
        cases before with
        | nil =>
            rcases alone with isHigh | ⟨isLow, -⟩
            · exact .inl isHigh
            · exact .inr ⟨isLow, notHigh [u]⟩
        | cons w before => exact alone
  | case4 high low rest apart ih =>
      have alone : ¬ Cuts [high] (low :: rest) := by
        rw [cuts_singleton, ← Bool.and_eq_true]
        exact apart
      intro point member invalid
      rcases List.mem_cons.1 member with rfl | later
      · exact unpaired_of_front alone invalid
      · exact (ih point later invalid).cons alone

theorem isValidChar_points_iff :
    (∀ point ∈ points units, point.isValidChar) ↔ ¬ Unpaired units := by
  constructor
  · intro valid unpaired
    obtain ⟨point, member, invalid⟩ := exists_invalid_of_unpaired unpaired
    exact invalid (valid point member)
  · intro paired point member
    by_contra invalid
    exact paired (unpaired_of_invalid point member invalid)

end Unpaired

section Strings

theorem points_halves {high low : CodeUnit} {number : Nat} (small : number < 0x100000)
    (first : high.toNat = 0xD800 + number / 0x400) (second : low.toNat = 0xDC00 + number % 0x400)
    (rest : List CodeUnit) : points (high :: low :: rest) = (0x10000 + number) :: points rest := by
  have isHigh : high.isHighSurrogate = true := CodeUnit.isHighSurrogate_iff.2 (by omega)
  have isLow : low.isLowSurrogate = true := CodeUnit.isLowSurrogate_iff.2 (by omega)
  have value : pairValue high low = 0x10000 + number := by
    unfold pairValue
    omega
  rw [points_pair isHigh isLow, value]

theorem points_encodeChar_append (c : Char) (rest : List CodeUnit) :
    points (encodeChar c ++ rest) = c.toNat :: points rest := by
  have valid : c.toNat.isValidChar := c.valid
  unfold Nat.isValidChar at valid
  unfold encodeChar
  split
  next one =>
    have value : (UInt16.ofNat c.toNat).toNat = c.toNat := by
      rw [UInt16.toNat_ofNat']
      omega
    rw [List.cons_append, List.nil_append, points_cons, value]
    intro cut
    have high := (cuts_singleton_left.1 cut).1
    rw [CodeUnit.isHighSurrogate_iff, value] at high
    omega
  next two =>
    have first : (UInt16.ofNat (0xD800 + (c.toNat - 0x10000) / 0x400)).toNat
        = 0xD800 + (c.toNat - 0x10000) / 0x400 := by
      rw [UInt16.toNat_ofNat']
      omega
    have second : (UInt16.ofNat (0xDC00 + (c.toNat - 0x10000) % 0x400)).toNat
        = 0xDC00 + (c.toNat - 0x10000) % 0x400 := by
      rw [UInt16.toNat_ofNat']
      omega
    have pair := points_halves (by omega) first second rest
    rw [Nat.add_sub_cancel' (Nat.le_of_not_lt two)] at pair
    exact pair

theorem points_encode (text : String) : points (encode text) = text.toList.map Char.toNat := by
  unfold encode
  generalize text.toList = chars
  induction chars with
  | nil => rfl
  | cons c chars ih => rw [List.flatMap_cons, points_encodeChar_append, ih, List.map_cons]

end Strings

section Lossy

theorem eq_toNat_of_charOrReplacement {point : Nat} {c : Char} (ascii : c.toNat < 0x80)
    (h : charOrReplacement point = c) : point = c.toNat := by
  subst h
  unfold charOrReplacement at ascii ⊢
  split at ascii
  next valid =>
    rw [if_pos valid, Char.ofNat, dif_pos valid]
    rfl
  · exact absurd ascii (by decide)

theorem head?_of_lossy {units : List CodeUnit} {c : Char} {text : List Char} (ascii : c.toNat < 0x80)
    (h : lossy units = String.ofList (c :: text)) : units.head? = some (.of c) := by
  have chars : (points units).map charOrReplacement = c :: text := String.ofList_injective h
  have same {u : CodeUnit} (first : charOrReplacement u.toNat = c) : u = .of c := by
    have number := eq_toNat_of_charOrReplacement ascii first
    rw [CodeUnit.of, ← number, UInt16.ofNat_toNat]
  match units with
  | [] => cases chars
  | [u] => exact congrArg some (same (List.cons.inj chars).1)
  | u :: v :: rest =>
      rw [points] at chars
      split at chars
      next pair =>
        simp only [Bool.and_eq_true] at pair
        have number := eq_toNat_of_charOrReplacement ascii (List.cons.inj chars).1
        have bounds := pairValue_bounds pair.1 pair.2
        omega
      · exact congrArg some (same (List.cons.inj chars).1)

end Lossy

end Utf16

end LuaTokens
