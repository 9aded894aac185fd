import LuaTokens.Proofs.Text.CodeUnit
import Mathlib.Data.List.TakeWhile

/-! # What may follow a text

A reader that takes a run of units stops where the text behind it stops the run. Text
behind a lexeme may be changed as long as it begins with the same unit, or begins with
white space, or is empty: then it stops every run that the old text stopped, unless
white space can be part of the run.
-/

namespace LuaTokens

/-- No unit that satisfies `p` comes next. -/
def Stops (p : CodeUnit → Bool) (rest : List CodeUnit) : Prop :=
  ∀ u ∈ rest.head?, p u = false

/-- What comes next in `other` comes next in `rest` as well, or is white space. -/
def Follows (rest other : List CodeUnit) : Prop :=
  ∀ u ∈ other.head?, u ∈ rest.head? ∨ u.isSpace = true

section Runs

variable {p : CodeUnit → Bool} {text rest other : List CodeUnit}

theorem Stops.nil : Stops p [] := by
  intro u first
  cases first

theorem stops_dropWhile (input : List CodeUnit) : Stops p (input.dropWhile p) := by
  intro u first
  have := List.head?_dropWhile_not p input
  rw [show (input.dropWhile p).head? = some u from first] at this
  simpa using this

theorem Stops.takeWhile_eq_nil (h : Stops p rest) : rest.takeWhile p = [] := by
  cases rest with
  | nil => rfl
  | cons u tail => simp [h u rfl]

theorem Stops.dropWhile_eq (h : Stops p rest) : rest.dropWhile p = rest := by
  cases rest with
  | nil => rfl
  | cons u tail => simp [h u rfl]

theorem Stops.takeWhile_append (h : Stops p rest) (all : ∀ u ∈ text, p u = true) :
    (text ++ rest).takeWhile p = text := by
  rw [List.takeWhile_append_of_pos all, h.takeWhile_eq_nil, List.append_nil]

theorem Stops.dropWhile_append (h : Stops p rest) (all : ∀ u ∈ text, p u = true) :
    (text ++ rest).dropWhile p = rest := by
  rw [List.dropWhile_append_of_pos all, h.dropWhile_eq]

theorem stops_of_takeWhile_append (h : (text ++ rest).takeWhile p = text) : Stops p rest := by
  have all : ∀ u ∈ text, p u = true := by
    intro u member
    rw [← h] at member
    exact List.mem_takeWhile_imp member
  rw [List.takeWhile_append_of_pos all, List.append_right_eq_self] at h
  intro u first
  obtain ⟨tail, rfl⟩ := List.head?_eq_some_iff.1 first
  by_contra more
  simp [more] at h

theorem Stops.of_append (h : Stops p (text ++ rest)) : Stops p text := by
  cases text with
  | nil => exact Stops.nil
  | cons u tail => exact h

theorem drop_length_takeWhile (p : CodeUnit → Bool) (input : List CodeUnit) :
    input.drop (input.takeWhile p).length = input.dropWhile p := by
  have whole : input.takeWhile p ++ input.drop (input.takeWhile p).length = input :=
    List.prefix_iff_eq_append.1 (List.takeWhile_prefix p)
  rw [← List.append_cancel_left_eq (input.takeWhile p), whole, List.takeWhile_append_dropWhile]

theorem Stops.of_head_eq (h : Stops p rest) (same : other.head? = rest.head?) : Stops p other := by
  intro u first
  exact h u (same ▸ first)

end Runs

namespace Follows

variable {p : CodeUnit → Bool} {text rest other : List CodeUnit}

theorem of_head_eq (h : other.head? = rest.head?) : Follows rest other := by
  intro u first
  exact .inl (h ▸ first)

theorem of_space (h : ∀ u ∈ other.head?, u.isSpace = true) : Follows rest other := by
  intro u first
  exact .inr (h u first)

theorem nil_right (rest : List CodeUnit) : Follows rest [] := by
  intro u first
  cases first

theorem append (h : Follows rest other) (text : List CodeUnit) :
    Follows (text ++ rest) (text ++ other) := by
  cases text with
  | nil => exact h
  | cons u tail => exact of_head_eq rfl

theorem head_of_not_space (h : Follows rest other) {u : CodeUnit} (first : other.head? = some u)
    (solid : u.isSpace = false) : rest.head? = some u := by
  rcases h u first with same | space
  · exact same
  · rw [solid] at space
    cases space

theorem stops (h : Follows rest other) (none : ∀ v ∈ CodeUnit.spaces, p v = false)
    (old : Stops p rest) : Stops p other := by
  intro u first
  rcases h u first with same | space
  · exact old u same
  · exact CodeUnit.eq_false_of_isSpace none space

/-- A pattern that goes at most one unit beyond the text fits before `rest` if it fits
    before `other`. -/
theorem prefix_append (h : Follows rest other) {pattern : List CodeUnit}
    (solid : ∀ u ∈ pattern, u.isSpace = false) (short : pattern.length ≤ text.length + 1)
    (fits : pattern <+: text ++ other) : pattern <+: text ++ rest := by
  by_cases within : pattern.length ≤ text.length
  · have inText := List.prefix_of_prefix_length_le fits (List.prefix_append _ _) within
    exact inText.trans (List.prefix_append _ _)
  · obtain ⟨last, rfl⟩ : text <+: pattern :=
      List.prefix_of_prefix_length_le (List.prefix_append _ _) fits (by omega)
    obtain ⟨v, rfl⟩ : ∃ v, last = [v] := by
      rw [List.length_append] at short within
      exact List.length_eq_one_iff.1 (by omega)
    obtain ⟨tail, rfl⟩ := (List.prefix_append_right_inj text).1 fits
    obtain ⟨more, rfl⟩ := List.head?_eq_some_iff.1 (h.head_of_not_space rfl (solid v (by simp)))
    exact (List.prefix_append_right_inj text).2 ⟨more, rfl⟩

end Follows

end LuaTokens
