import LuaTokens.Proofs.Text.Point
import LuaTokens.Proofs.Text.Utf8
import LuaTokens.Text.ByteString
import Mathlib.Logic.Function.Basic

/-! # The bytes of source text

Turning source text into bytes loses nothing, whether the text is well-formed or not: the
units can be read back. The bytes are well-formed exactly when no surrogate of the text is
unpaired, and then they are those of the string that the text encodes.
-/

namespace LuaTokens

namespace ByteString

/-- The units whose bytes these are. -/
def units (bytes : ByteString) : List CodeUnit :=
  (Utf8.values bytes).flatMap Utf16.encodePoint

theorem units_ofUnits (units : List CodeUnit) : (ofUnits units).units = units := by
  have small : ∀ point ∈ Utf16.points units, point < 0x200000 := by
    intro point member
    have := Utf16.lt_of_mem_points point member
    omega
  rw [ofUnits, ByteString.units, Utf8.values_flatMap_encode small, Utf16.flatMap_encodePoint_points]

theorem ofString_eq (text : String) : ofString text = text.toUTF8.data.toList := by
  have standard : text.toUTF8.data.toList = text.toList.flatMap String.utf8EncodeChar := by
    rw [String.toUTF8_eq_toByteArray, ← String.utf8Encode_toList, List.utf8Encode, List.data_toByteArray,
      List.toList_toArray]
  rw [standard, ofString]
  exact congrArg (text.toList.flatMap ·) (funext Utf8.encode_toNat)

theorem ofUnits_encode (text : String) : ofUnits (Utf16.encode text) = ofString text := by
  rw [ofUnits, Utf16.points_encode, List.flatMap_map, ofString]

theorem toString?_ofUnits {units : List CodeUnit} (paired : ¬ Utf16.Unpaired units) :
    toString? (ofUnits units) = some (String.ofList ((Utf16.points units).map Char.ofNat)) := by
  rw [toString?, ofUnits, Utf8.decode?_flatMap_encode (Utf16.isValidChar_points_iff.2 paired)]
  rfl

theorem isSome_toString?_ofUnits {units : List CodeUnit} :
    (toString? (ofUnits units)).isSome ↔ ¬ Utf16.Unpaired units := by
  constructor
  · intro decoded
    rw [toString?, Option.isSome_map] at decoded
    exact Utf16.isValidChar_points_iff.1
      (Utf8.isValidChar_of_decode? Utf16.lt_of_mem_points decoded)
  · intro paired
    rw [toString?_ofUnits paired]
    rfl

theorem paired_encode (text : String) : ¬ Utf16.Unpaired (Utf16.encode text) := by
  rw [← Utf16.isValidChar_points_iff, Utf16.points_encode]
  intro point member
  obtain ⟨c, -, rfl⟩ := List.mem_map.1 member
  exact c.valid

theorem toString?_ofUnits_encode (text : String) :
    toString? (ofUnits (Utf16.encode text)) = some text := by
  have chars : (text.toList.map Char.toNat).map Char.ofNat = text.toList := by
    simp [Function.comp_def]
  rw [toString?_ofUnits (paired_encode text), Utf16.points_encode, chars, String.ofList_toList]

/-- Source text is turned into bytes without loss. Its units can be read back from the bytes;
    the bytes are well-formed exactly when no surrogate of the text is unpaired; and the bytes
    of an encoded string are those of the string, and are decoded to it. -/
theorem ofUnits_lossless :
    (∀ u : List CodeUnit, (ofUnits u).units = u) ∧ Function.Injective ofUnits
      ∧ (∀ u : List CodeUnit, (toString? (ofUnits u)).isSome ↔ ¬ Utf16.Unpaired u)
      ∧ ∀ text : String, ofUnits (Utf16.encode text) = text.toUTF8.data.toList
          ∧ toString? (ofUnits (Utf16.encode text)) = some text := by
  refine ⟨units_ofUnits, ?_, fun _ => isSome_toString?_ofUnits, ?_⟩
  · exact Function.LeftInverse.injective units_ofUnits
  · intro text
    exact ⟨(ofUnits_encode text).trans (ofString_eq text), toString?_ofUnits_encode text⟩

/-- A pair in the wrong order is two unpaired surrogates with three bytes each. -/
example : ofUnits [0xDC00, 0xD800] = [0xED, 0xB0, 0x80, 0xED, 0xA0, 0x80] := by
  decide

end ByteString

end LuaTokens
