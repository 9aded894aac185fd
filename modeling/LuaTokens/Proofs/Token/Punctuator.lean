import LuaTokens.Token.Punctuator
import LuaTokens.Proofs.Text.Follow

/-! # The longest punctuator

No live punctuator that fits is longer than the leading one. None is longer than two
units, so what follows the leading one matters with its first unit only.
-/

namespace LuaTokens.Punctuator

theorem isSpace_units (p : Punctuator) : ∀ u ∈ p.units, u.isSpace = false := by
  apply CodeUnit.forall_of_any
  cases p <;> decide

theorem length_units (p : Punctuator) : 1 ≤ p.units.length ∧ p.units.length ≤ 2 := by
  cases p <;> decide

section Leading

variable {features : FeatureSet} {input rest other : List CodeUnit} {sign p : Punctuator}

theorem fits_of_leading? (found : leading? features input = some sign) :
    sign.isLive features = true ∧ sign.units <+: input := by
  have fits := List.find?_some found
  simpa only [Bool.and_eq_true, List.isPrefixOf_iff_prefix] using fits

theorem length_le_of_leading? (found : leading? features input = some sign)
    (live : p.isLive features = true) (fits : p.units <+: input) :
    p.units.length ≤ sign.units.length := by
  obtain ⟨-, before, after, divided, missed⟩ := List.find?_eq_some_iff_append.1 found
  have ordered := all_pairwise_length
  rw [divided, List.pairwise_append, List.pairwise_cons] at ordered
  obtain ⟨-, ⟨later, -⟩, -⟩ := ordered
  have member := mem_all p
  rw [divided, List.mem_append, List.mem_cons] at member
  rcases member with early | rfl | late
  · have := missed p early
    simp [live, List.isPrefixOf_iff_prefix.2 fits] at this
  · exact Nat.le_refl _
  · exact later p late

theorem leading?_append (found : leading? features (sign.units ++ rest) = some sign)
    (follows : Follows rest other) : leading? features (sign.units ++ other) = some sign := by
  obtain ⟨-, before, after, divided, missed⟩ := List.find?_eq_some_iff_append.1 found
  apply List.find?_eq_some_iff_append.2
  refine ⟨?_, before, after, divided, ?_⟩
  · simp [(fits_of_leading? found).1]
  · intro p early
    have short : p.units.length ≤ sign.units.length + 1 := by
      have := p.length_units
      have := sign.length_units
      omega
    have missing := missed p early
    simp only [Bool.not_and, Bool.or_eq_true, Bool.not_eq_true',
      ← Bool.not_eq_true, List.isPrefixOf_iff_prefix] at missing ⊢
    rcases missing with dead | unfit
    · exact .inl dead
    · exact .inr fun fits => unfit (follows.prefix_append p.isSpace_units short fits)

end Leading

end LuaTokens.Punctuator
