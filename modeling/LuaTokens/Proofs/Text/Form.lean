import LuaTokens.Text.Utf8

/-! # Forms of a value

A value is written in a byte of its own, or in a first byte and up to three continuation bytes
of six bits each. The first byte tells which of these forms it is. An encoding is the shortest
form that has room for the value. Where no form has room, it is the longest one of the low bits.
-/

namespace LuaTokens.Utf8

-- Powers of natural numbers are those of the core library, also beside other monoids.
attribute [local instance (high)] instPowNat

/-- The ways to write a value, by the number of bytes. -/
inductive Form where
  | one
  | two
  | three
  | four
  deriving Repr, DecidableEq

namespace Form

/-- The number of continuation bytes behind the first byte. -/
def further : Form → Nat
  | one => 0
  | two => 1
  | three => 2
  | four => 3

/-- The bits of the first byte that are none of the value's. -/
def mark : Form → Nat
  | one => 0x00
  | two => 0xC0
  | three => 0xE0
  | four => 0xF0

/-- How many values the other bits of the first byte can have. -/
def room : Form → Nat
  | one => 0x80
  | two => 0x20
  | three => 0x10
  | four => 0x08

/-- The least value that has no room in the form. -/
def limit : Form → Nat
  | one => 0x80
  | two => 0x800
  | three => 0x10000
  | four => 0x200000

theorem limit_eq (form : Form) : form.limit = form.room * 0x40 ^ form.further := by
  cases form <;> rfl

theorem further_lt (form : Form) {other : Form} {point : Nat} (full : form.limit ≤ point)
    (holds : point < other.limit) : form.further < other.further := by
  cases form <;> cases other <;> simp only [limit, further] at * <;> omega

/-- The continuation bytes for the low bits of a value, six in each, the highest first. -/
def continuations (point : Nat) : Nat → List UInt8
  | 0 => []
  | count + 1 => continuation (point / 0x40 ^ count) :: continuations point count

theorem length_continuations (point count : Nat) : (continuations point count).length = count := by
  induction count with
  | zero => rfl
  | succ count ih => rw [continuations, List.length_cons, ih]

def bytes (form : Form) (point : Nat) : List UInt8 :=
  UInt8.ofNat (form.mark + point / 0x40 ^ form.further) :: continuations point form.further

theorem length_bytes (form : Form) (point : Nat) : (form.bytes point).length = form.further + 1 := by
  rw [bytes, List.length_cons, length_continuations]

/-- The value has room in the form, and in no form with fewer bytes. -/
structure IsShortest (form : Form) (point : Nat) : Prop where
  holds : point < form.limit
  least : ∀ other : Form, point < other.limit → form.further ≤ other.further

end Form

open Form

theorem continuation_congr {bits others : Nat} (h : bits % 0x40 = others % 0x40) :
    continuation bits = continuation others := by
  rw [continuation, continuation, h]

theorem encode_of_large {point : Nat} (large : 0x10000 ≤ point) :
    encode point = four.bytes (point % 0x200000) := by
  have first : 0xF0 + point / 0x40000 % 8 = 0xF0 + point % 0x200000 / 0x40 ^ 3 := by omega
  rw [encode, if_neg (by omega), if_neg (by omega), if_neg (by omega), first]
  have second : continuation (point / 0x1000) = continuation (point % 0x200000 / 0x40 ^ 2) :=
    continuation_congr (by omega)
  have third : continuation (point / 0x40) = continuation (point % 0x200000 / 0x40 ^ 1) :=
    continuation_congr (by omega)
  have last : continuation point = continuation (point % 0x200000 / 0x40 ^ 0) :=
    continuation_congr (by omega)
  rw [second, third, last]
  rfl

theorem exists_isShortest {point : Nat} (small : point < 0x200000) :
    ∃ form : Form, form.IsShortest point ∧ encode point = form.bytes point := by
  by_cases oneByte : point < 0x80
  · refine ⟨one, ⟨oneByte, fun other _ => Nat.zero_le other.further⟩, ?_⟩
    simp [encode, oneByte, bytes, continuations, further, mark]
  by_cases twoBytes : point < 0x800
  · refine ⟨two, ⟨twoBytes, fun _ => further_lt one (Nat.le_of_not_lt oneByte)⟩, ?_⟩
    simp [encode, oneByte, twoBytes, bytes, continuations, further, mark]
  by_cases threeBytes : point < 0x10000
  · refine ⟨three, ⟨threeBytes, fun _ => further_lt two (Nat.le_of_not_lt twoBytes)⟩, ?_⟩
    simp [encode, oneByte, twoBytes, threeBytes, bytes, continuations, further, mark]
  have large := Nat.le_of_not_lt threeBytes
  refine ⟨four, ⟨small, fun _ => further_lt three large⟩, ?_⟩
  rw [encode_of_large large, Nat.mod_eq_of_lt small]

theorem exists_form (point : Nat) :
    ∃ (form : Form) (value : Nat), value < form.limit ∧ encode point = form.bytes value := by
  by_cases small : point < 0x200000
  · obtain ⟨form, shortest, encoded⟩ := exists_isShortest small
    exact ⟨form, point, shortest.holds, encoded⟩
  · exact ⟨four, point % 0x200000, Nat.mod_lt _ (by decide), encode_of_large (by omega)⟩

end LuaTokens.Utf8
