import LuaTokens.Proofs.Text.Utf8

/-! # Telling encodings apart

The first byte of an encoding tells where it ends. So encodings stand one behind the other with
nothing between them, and their values are read back, surrogates and values past the last code
point included. Other bytes may be read as the same values, but not fewer of them. A value with
more than 21 bits loses the higher ones.
-/

namespace LuaTokens.Utf8

-- Powers of natural numbers are those of the core library, also beside other monoids.
attribute [local instance (high)] instPowNat

theorem exists_form_lead (byte : UInt8) :
    ∃ (form : Form) (bits : Nat), bits < form.room ∧ lead byte = (form.further, bits) := by
  simp only [lead, UInt8.lt_iff_toNat_lt]
  split
  next one => exact ⟨.one, _, one, rfl⟩
  split
  next two => exact ⟨.two, _, Nat.mod_lt _ (by decide), rfl⟩
  split
  next three => exact ⟨.three, _, Nat.mod_lt _ (by decide), rfl⟩
  next four => exact ⟨.four, _, Nat.mod_lt _ (by decide), rfl⟩

variable {bytes : List UInt8} {value : Nat} {more : List Nat}

/-- A value that is read to its end has all its continuation bytes, and no more bits than these
    and the first byte give. -/
theorem valuesFrom_eq_cons {count bits : Nat} (read : valuesFrom (count + 1, bits) bytes = value :: more) :
    ∃ rest, values rest = more ∧ bytes.length = count + 1 + rest.length
      ∧ value < (bits + 1) * 0x40 ^ (count + 1) := by
  induction count generalizing bits bytes with
  | zero =>
      cases bytes with
      | nil => cases read
      | cons byte rest =>
          obtain ⟨rfl, later⟩ := List.cons.inj read
          exact ⟨rest, later, Nat.add_comm _ _, by omega⟩
  | succ count ih =>
      cases bytes with
      | nil => cases read
      | cons byte tail =>
          obtain ⟨rest, later, length, small⟩ := ih read
          have six : bits * 0x40 + byte.toNat % 0x40 + 1 ≤ (bits + 1) * 0x40 := by omega
          refine ⟨rest, later, by rw [List.length_cons, length]; omega, Nat.lt_of_lt_of_le small ?_⟩
          calc (bits * 0x40 + byte.toNat % 0x40 + 1) * 0x40 ^ (count + 1)
              ≤ (bits + 1) * 0x40 * 0x40 ^ (count + 1) := Nat.mul_le_mul_right _ six
            _ = (bits + 1) * 0x40 ^ (count + 2) := mul_group _ _

theorem values_eq_cons (read : values bytes = value :: more) :
    ∃ (form : Form) (rest : List UInt8), value < form.limit ∧ values rest = more
      ∧ bytes.length = form.further + 1 + rest.length := by
  cases bytes with
  | nil => cases read
  | cons byte tail =>
      obtain ⟨form, bits, room, first⟩ := exists_form_lead byte
      rw [List.length_cons]
      cases further : form.further with
      | zero =>
          rw [further] at first
          simp only [values, valuesFrom, first, List.cons.injEq] at read
          obtain ⟨rfl, later⟩ := read
          refine ⟨form, tail, ?_, later, by omega⟩
          rwa [Form.limit_eq, further, Nat.pow_zero, Nat.mul_one]
      | succ count =>
          rw [further] at first
          rw [values_cons first] at read
          obtain ⟨rest, later, length, small⟩ := valuesFrom_eq_cons read
          refine ⟨form, rest, ?_, later, by omega⟩
          rw [Form.limit_eq, further]
          exact Nat.lt_of_lt_of_le small (Nat.mul_le_mul_right _ room)

theorem length_flatMap_encode_values (bytes : List UInt8) :
    ((values bytes).flatMap encode).length ≤ bytes.length := by
  induction read : values bytes generalizing bytes with
  | nil => exact Nat.zero_le bytes.length
  | cons value more ih =>
      obtain ⟨form, rest, holds, later, length⟩ := values_eq_cons read
      have small : value < 0x200000 := by cases form <;> simp only [Form.limit] at holds <;> omega
      obtain ⟨shortest, isShortest, encoded⟩ := exists_isShortest small
      have least := isShortest.least form holds
      have shorter := ih rest later
      rw [List.flatMap_cons, List.length_append, encoded, Form.length_bytes, length]
      omega

/-- A form that begins another one is all of it, as their first bytes tell the same length. -/
theorem Form.bytes_eq_of_isPrefix {form other : Form} {point value : Nat} (holds : point < form.limit)
    (otherHolds : value < other.limit) (front : form.bytes point <+: other.bytes value) :
    form.bytes point = other.bytes value := by
  obtain ⟨first, -⟩ := List.cons_prefix_cons.1 front
  have leads := congrArg lead first
  rw [lead_bytes holds, lead_bytes otherHolds] at leads
  have further : form.further = other.further := congrArg Prod.fst leads
  refine front.eq_of_length ?_
  rw [length_bytes, length_bytes, further]

theorem encode_eq_of_isPrefix {point other : Nat} (front : encode point <+: encode other) :
    encode point = encode other := by
  obtain ⟨form, low, holds, encoded⟩ := exists_form point
  obtain ⟨otherForm, otherLow, otherHolds, otherEncoded⟩ := exists_form other
  rw [encoded, otherEncoded] at front ⊢
  exact Form.bytes_eq_of_isPrefix holds otherHolds front

/-- Encodings one behind the other are read back as the values of at most 21 bits that they
    encode. Each such value is written in its shortest form, and no other bytes take less room for
    the same values; an encoding is not the front of another one; the encoding of a character is
    the standard one; and a value from `0x10000` on is written with its lowest 21 bits in four
    bytes. -/
theorem encode_uniquely_decodable :
    (∀ points : List Nat, (∀ point ∈ points, point < 0x200000) →
        values (points.foldl (fun bytes point => bytes ++ encode point) []) = points)
      ∧ (∀ point < 0x200000, ∃ form : Form, form.IsShortest point ∧ encode point = form.bytes point)
      ∧ (∀ bytes, ((values bytes).flatMap encode).length ≤ bytes.length)
      ∧ (∀ point other, encode point <+: encode other → encode point = encode other)
      ∧ (∀ c : Char, encode c.toNat = String.utf8EncodeChar c)
      ∧ ∀ point ≥ 0x10000, encode point = Form.four.bytes (point % 0x200000) := by
  refine ⟨fun points small => ?_, fun _ => exists_isShortest, length_flatMap_encode_values,
    fun _ _ => encode_eq_of_isPrefix, encode_toNat, fun _ => encode_of_large⟩
  rw [List.foldl_append_eq_append, List.nil_append, ← List.flatMap_def, values_flatMap_encode small]

/-- A surrogate, the last value of 21 bits, a character and the first value past the last code
    point are read back. A form that is too long is read as well, but its value takes less. Two
    values that differ in higher bits only are written alike. -/
theorem encode_uniquely_decodable_beyond :
    let points := [0xD800, 0x1FFFFF, 0x7F, 0x110000]
    let tooLong : List UInt8 := [0xE0, 0x9F, 0xBF]
    (∀ point ∈ points, point < 0x200000)
      ∧ points.foldl (fun bytes point => bytes ++ encode point) []
        = [0xED, 0xA0, 0x80, 0xF7, 0xBF, 0xBF, 0xBF, 0x7F, 0xF4, 0x90, 0x80, 0x80]
      ∧ values (points.foldl (fun bytes point => bytes ++ encode point) []) = points
      ∧ values tooLong = [0x7FF] ∧ ((values tooLong).flatMap encode).length ≤ 3
      ∧ 0x7FF < 0x200000 ∧ (∃ form : Form, form.IsShortest 0x7FF ∧ encode 0x7FF = form.bytes 0x7FF)
      ∧ encode 0x200041 <+: encode 0x400041 ∧ encode 0x200041 = encode 0x400041
      ∧ encode 'é'.toNat = String.utf8EncodeChar 'é'
      ∧ 0xFFFFFFFF ≥ 0x10000 ∧ encode 0xFFFFFFFF = Form.four.bytes (0xFFFFFFFF % 0x200000) := by
  intro points tooLong
  obtain ⟨decoded, shortest, noShorter, whole, standard, lowBits⟩ := encode_uniquely_decodable
  have small : ∀ point ∈ points, point < 0x200000 := by decide
  have front : encode 0x200041 <+: encode 0x400041 := by decide
  exact ⟨small, by decide, decoded points small, by decide, noShorter tooLong, by decide,
    shortest 0x7FF (by decide), front, whole _ _ front, standard 'é', by decide, lowBits _ (by decide)⟩

end LuaTokens.Utf8
