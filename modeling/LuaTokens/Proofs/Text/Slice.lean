import LuaTokens.Proofs.Text.Point
import LuaTokens.Text.ByteString

/-! # Source text in slices

The bytes of a text are put behind a buffer without a look at it. So a text may be turned into
bytes slice by slice, and the bytes are those of the whole exactly if no surrogate pair is cut:
a pair takes four bytes, and its halves alone take three bytes each.
-/

namespace LuaTokens

theorem Utf8.length_encode (point : Nat) : (encode point).length
    = if point < 0x80 then 1 else if point < 0x800 then 2 else if point < 0x10000 then 3 else 4 := by
  unfold encode
  repeat' split
  all_goals rfl

namespace Utf16

variable {u : CodeUnit} {high low : CodeUnit}

theorem length_encode_surrogate (surrogate : u.isHighSurrogate = true ∨ u.isLowSurrogate = true) :
    (Utf8.encode u.toNat).length = 3 := by
  rw [CodeUnit.isHighSurrogate_iff, CodeUnit.isLowSurrogate_iff] at surrogate
  rw [Utf8.length_encode, if_neg (by omega), if_neg (by omega), if_pos (by omega)]

theorem length_encode_pairValue (isHigh : high.isHighSurrogate = true) (isLow : low.isLowSurrogate = true) :
    (Utf8.encode (pairValue high low)).length = 4 := by
  have bounds := pairValue_bounds isHigh isLow
  rw [Utf8.length_encode, if_neg (by omega), if_neg (by omega), if_neg (by omega)]

theorem Cuts.exists_halves {first second : List CodeUnit} (cuts : Cuts first second) :
    ∃ before high low after, first = before ++ [high] ∧ second = low :: after
      ∧ high.isHighSurrogate = true ∧ low.isLowSurrogate = true := by
  obtain ⟨⟨high, last, isHigh⟩, low, begins, isLow⟩ := cuts
  obtain ⟨before, rfl⟩ := List.getLast?_eq_some_iff.1 last
  obtain ⟨after, rfl⟩ := List.head?_eq_some_iff.1 begins
  exact ⟨before, high, low, after, rfl, rfl, isHigh, isLow⟩

end Utf16

namespace ByteString

open Utf16 (Cuts)

variable {first second : List CodeUnit}

theorem appendUnits_eq (bytes : ByteString) (units : List CodeUnit) :
    bytes.appendUnits units = bytes ++ ofUnits units := by
  rw [appendUnits, ofUnits, List.foldl_append_eq_append, List.flatMap_def]

theorem ofUnits_append (whole : ¬ Cuts first second) :
    ofUnits (first ++ second) = ofUnits first ++ ofUnits second := by
  rw [ofUnits, Utf16.points_append whole, List.flatMap_append]
  rfl

/-- The halves of a pair that is cut take two bytes more than the pair. -/
theorem length_ofUnits_of_cuts (cuts : Cuts first second) :
    (ofUnits first ++ ofUnits second).length = (ofUnits (first ++ second)).length + 2 := by
  obtain ⟨before, high, low, after, rfl, rfl, isHigh, isLow⟩ := cuts.exists_halves
  have whole : ¬ Cuts before (high :: low :: after) := Utf16.not_cuts_of_high isHigh
  have left : ¬ Cuts before [high] := Utf16.not_cuts_of_high isHigh
  have right : ¬ Cuts [low] after := Utf16.not_cuts_of_low isLow
  have pair : ofUnits (high :: low :: after) = Utf8.encode (Utf16.pairValue high low) ++ ofUnits after := by
    rw [ofUnits, Utf16.points_pair isHigh isLow, List.flatMap_cons]
    rfl
  have half : ofUnits (low :: after) = Utf8.encode low.toNat ++ ofUnits after := by
    rw [ofUnits, Utf16.points_cons right, List.flatMap_cons]
    rfl
  have other : ofUnits [high] = Utf8.encode high.toNat := List.append_nil _
  rw [List.append_assoc, List.singleton_append, ofUnits_append whole, ofUnits_append left, pair, half, other]
  simp only [List.length_append, Utf16.length_encode_pairValue isHigh isLow,
    Utf16.length_encode_surrogate (.inl isHigh), Utf16.length_encode_surrogate (.inr isLow)]
  omega

/-- Text is put behind a buffer as it is, with bytes that are its own. Two slices one after the
    other give the bytes of both together exactly if no surrogate pair is cut between them. -/
theorem appendUnits_slices (bytes : ByteString) (first second : List CodeUnit) :
    bytes.appendUnits first = bytes ++ ofUnits first
      ∧ ((bytes.appendUnits first).appendUnits second = bytes.appendUnits (first ++ second)
        ↔ ¬ Cuts first second) := by
  refine ⟨appendUnits_eq bytes first, ?_⟩
  simp only [appendUnits_eq, List.append_assoc, List.append_cancel_left_eq]
  constructor
  · intro same cuts
    have longer := length_ofUnits_of_cuts cuts
    rw [same] at longer
    omega
  · intro whole
    exact (ofUnits_append whole).symm

/-- Of two high surrogates the second one is half of the pair. -/
example : appendUnits [0x41] [0xD800, 0xD83D, 0xDE00] = 0x41 :: [0xED, 0xA0, 0x80] ++ [0xF0, 0x9F, 0x98, 0x80] := by
  decide

end ByteString

end LuaTokens
