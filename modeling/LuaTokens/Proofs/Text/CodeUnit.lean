import LuaTokens.Text.CodeUnit
import Mathlib.Data.List.Induction
import Mathlib.Algebra.Group.Nat.Defs

/-! # Classes of code units

White space is six units, so a class that holds none of the six holds no white
space. The classes that lexemes other than comments and strings are made of are
of that kind.
-/

namespace LuaTokens.CodeUnit

/-- The units of white space, line breaks among them. -/
def spaces : List CodeUnit := [0x09, 0x0A, 0x0B, 0x0C, 0x0D, 0x20]

theorem isSpace_iff {u : CodeUnit} : u.isSpace = true ↔ u ∈ spaces := by
  simp only [isSpace, isBlank, isBreak, spaces, Bool.or_eq_true, beq_iff_eq, List.mem_cons,
    List.not_mem_nil, or_false]
  grind

theorem isSpace_of_isBreak {u : CodeUnit} (h : u.isBreak = true) : u.isSpace = true := by
  simp [isSpace, h]

theorem isBreak_of_not_isSpace {u : CodeUnit} (solid : u.isSpace = false) : u.isBreak = false := by
  rw [isSpace, Bool.or_eq_false_iff] at solid
  exact solid.2

theorem forall_of_any {p : CodeUnit → Bool} {units : List CodeUnit} (h : units.any p = false) :
    ∀ u ∈ units, p u = false := by
  intro u member
  rw [List.any_eq_false] at h
  simpa using h u member

theorem isBreak_of_isBlank {u : CodeUnit} (h : u.isBlank = true) : u.isBreak = false := by
  simp only [isBlank, Bool.or_eq_true, beq_iff_eq] at h
  rcases h with ((rfl | rfl) | rfl) | rfl <;> decide

theorem isBreak_of_isQuote {u : CodeUnit} (h : u.isQuote = true) : u.isBreak = false := by
  simp only [isQuote, Bool.or_eq_true, beq_iff_eq] at h
  rcases h with rfl | rfl <;> decide

theorem eq_false_of_isSpace {p : CodeUnit → Bool} (none : ∀ v ∈ spaces, p v = false)
    {u : CodeUnit} (h : u.isSpace = true) : p u = false :=
  none u (isSpace_iff.1 h)

theorem isBreak_eq_false {p : CodeUnit → Bool} (none : ∀ v ∈ spaces, p v = false)
    {u : CodeUnit} (h : p u = true) : u.isBreak = false := by
  cases broken : u.isBreak with
  | false => rfl
  | true =>
      rw [eq_false_of_isSpace none (isSpace_of_isBreak broken)] at h
      cases h

theorem isNamePart_spaces (extended : Bool) : ∀ v ∈ spaces, v.isNamePart extended = false := by
  apply forall_of_any
  cases extended <;> decide

theorem isDigit_spaces : ∀ v ∈ spaces, v.isDigit = false :=
  forall_of_any (by decide)

theorem isHexDigit_spaces : ∀ v ∈ spaces, v.isHexDigit = false :=
  forall_of_any (by decide)

section Digits

theorem toNat_of_isDigit {u : CodeUnit} (h : u.isDigit = true) : 0x30 ≤ u.toNat ∧ u.toNat ≤ 0x39 := by
  simpa [isDigit, UInt16.le_iff_toNat_le] using h

theorem digitValue_of_isDigit {u : CodeUnit} (h : u.isDigit = true) :
    u.digitValue = u.toNat - 0x30 := by
  rw [digitValue, if_pos]
  exact UInt16.le_iff_toNat_le.2 (toNat_of_isDigit h).2

theorem toNat_of_isHexDigit {u : CodeUnit} (h : u.isHexDigit = true) :
    (0x30 ≤ u.toNat ∧ u.toNat ≤ 0x39 ∧ u.digitValue = u.toNat - 0x30)
      ∨ (0x41 ≤ u.toNat ∧ u.toNat ≤ 0x46 ∧ u.digitValue = u.toNat - 0x41 + 10)
      ∨ (0x61 ≤ u.toNat ∧ u.toNat ≤ 0x66 ∧ u.digitValue = u.toNat - 0x61 + 10) := by
  simp only [isHexDigit, isDigit, Bool.or_eq_true, Bool.and_eq_true, decide_eq_true_eq,
    UInt16.le_iff_toNat_le] at h
  simp only [digitValue, UInt16.le_iff_toNat_le]
  rcases h with (⟨low, high⟩ | ⟨low, high⟩) | ⟨low, high⟩
  · exact .inl ⟨low, high, if_pos high⟩
  · refine .inr (.inl ⟨low, high, ?_⟩)
    rw [if_neg, if_pos high]
    simp only [UInt16.toNat_ofNat] at low ⊢
    omega
  · refine .inr (.inr ⟨low, high, ?_⟩)
    simp only [UInt16.toNat_ofNat] at low ⊢
    rw [if_neg (by omega), if_neg (by omega)]

theorem digitValue_lt {u : CodeUnit} (h : u.isHexDigit = true) : u.digitValue < 16 := by
  rcases toNat_of_isHexDigit h with ⟨_, _, value⟩ | ⟨_, _, value⟩ | ⟨_, _, value⟩ <;> omega

theorem numberOf_concat (base : Nat) (digits : List CodeUnit) (u : CodeUnit) :
    numberOf base (digits ++ [u]) = numberOf base digits * base + u.digitValue := by
  simp [numberOf]

theorem numberOf_zero_cons (base : Nat) (digits : List CodeUnit) :
    numberOf base (.of '0' :: digits) = numberOf base digits := by
  have none : (CodeUnit.of '0').digitValue = 0 := by decide
  simp [numberOf, none]

theorem numberOf_dropWhile_zero (base : Nat) (digits : List CodeUnit) :
    numberOf base (digits.dropWhile (· == .of '0')) = numberOf base digits := by
  induction digits with
  | nil => rfl
  | cons u digits ih =>
      by_cases zero : u = .of '0'
      · subst zero
        rw [List.dropWhile_cons_of_pos (by simp), ih, numberOf_zero_cons]
      · rw [List.dropWhile_cons_of_neg (by simpa using zero)]

theorem numberOf_zeros (base count : Nat) (digits : List CodeUnit) :
    numberOf base (List.replicate count (.of '0') ++ digits) = numberOf base digits := by
  induction count with
  | zero => rfl
  | succ count ih => rw [List.replicate_succ, List.cons_append, numberOf_zero_cons, ih]

theorem numberOf_lt {digits : List CodeUnit} (all : ∀ u ∈ digits, u.isHexDigit = true) :
    numberOf 16 digits < 16 ^ digits.length := by
  induction digits using List.reverseRecOn with
  | nil => simp [numberOf]
  | append_singleton digits u ih =>
      have earlier := ih fun v member => all v (List.mem_append_left _ member)
      have last := digitValue_lt (all u (by simp))
      rw [numberOf_concat, List.length_append, List.length_singleton, Nat.pow_succ]
      omega

theorem pow_le_numberOf {u : CodeUnit} (positive : 0 < u.digitValue) (digits : List CodeUnit) :
    16 ^ digits.length ≤ numberOf 16 (u :: digits) := by
  induction digits using List.reverseRecOn with
  | nil => simpa [numberOf] using Nat.succ_le_of_lt positive
  | append_singleton digits v ih =>
      rw [← List.cons_append, numberOf_concat, List.length_append, List.length_singleton, Nat.pow_succ]
      omega

end Digits

section BreakWidth

theorem breakWidth_le (input : List CodeUnit) : breakWidth input ≤ input.length := by
  match input with
  | [] => simp [breakWidth]
  | [u] =>
      simp only [breakWidth]
      split <;> simp
  | u :: v :: rest =>
      simp only [breakWidth]
      split
      · split <;> simp
      · simp

theorem breakWidth_pos {u : CodeUnit} (broken : u.isBreak = true) (rest : List CodeUnit) :
    0 < breakWidth (u :: rest) := by
  cases rest with
  | nil => simp [breakWidth, broken]
  | cons v rest =>
      rw [breakWidth, if_pos broken]
      split <;> simp

theorem breakWidth_of_unbroken {u : CodeUnit} (unbroken : u.isBreak = false) (rest : List CodeUnit) :
    breakWidth (u :: rest) = 0 := by
  cases rest <;> simp [breakWidth, unbroken]

theorem breakWidth_append {text : List CodeUnit} (long : 2 ≤ text.length) (rest : List CodeUnit) :
    breakWidth (text ++ rest) = breakWidth text := by
  match text, long with
  | u :: v :: tail, _ => rfl

theorem breakWidth_append_of_head? {text rest other : List CodeUnit} (nonempty : text ≠ [])
    (same : other.head? = rest.head?) :
    breakWidth (text ++ other) = breakWidth (text ++ rest) := by
  match text with
  | [u] =>
      cases rest <;> cases other <;> cases same <;> rfl
  | _ :: _ :: _ => rfl

end BreakWidth

end LuaTokens.CodeUnit
