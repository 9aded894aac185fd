import LuaTokens.Text.Utf16

/-! # The width of a code point

A code point takes one unit or two, and the unit behind the first decides which.
-/

namespace LuaTokens.Utf16

theorem leadingWidth_le (input : List CodeUnit) : leadingWidth input ≤ input.length := by
  match input with
  | [] => simp [leadingWidth]
  | [u] => simp [leadingWidth]
  | u :: v :: rest =>
      rw [leadingWidth]
      split <;> simp

theorem leadingWidth_append {text rest other : List CodeUnit} (nonempty : text ≠ [])
    (same : other.head? = rest.head?) :
    leadingWidth (text ++ other) = leadingWidth (text ++ rest) := by
  match text with
  | [u] =>
      cases rest <;> cases other <;> cases same <;> rfl
  | _ :: _ :: _ => rfl

theorem leadingWidth_of_ascii {u : CodeUnit} (ascii : u.toNat ≤ 0x7E) (rest : List CodeUnit) :
    leadingWidth (u :: rest) = 1 := by
  have low : u.isHighSurrogate = false := by
    simp only [CodeUnit.isHighSurrogate, UInt16.le_iff_toNat_le, Bool.and_eq_false_iff,
      decide_eq_false_iff_not]
    left
    simp only [UInt16.toNat_ofNat]
    omega
  cases rest with
  | nil => rfl
  | cons v tail => simp [leadingWidth, low]

theorem isBreak_of_isLowSurrogate {u : CodeUnit} (low : u.isLowSurrogate = true) :
    u.isBreak = false := by
  cases broken : u.isBreak with
  | false => rfl
  | true =>
      simp only [CodeUnit.isBreak, Bool.or_eq_true, beq_iff_eq] at broken
      rcases broken with rfl | rfl <;> cases low

theorem isBreak_leading {u : CodeUnit} (unbroken : u.isBreak = false) (rest : List CodeUnit) :
    ∀ v ∈ (u :: rest).take (leadingWidth (u :: rest)), v.isBreak = false := by
  cases rest with
  | nil => simpa [leadingWidth] using unbroken
  | cons w tail =>
      rw [leadingWidth]
      split
      next pair =>
        simp only [Bool.and_eq_true] at pair
        simp [unbroken, isBreak_of_isLowSurrogate pair.2]
      · simpa using unbroken

end LuaTokens.Utf16
