import LuaTokens.Proofs.Text.Form
import Mathlib.Data.List.Basic

/-! # Reading UTF-8 back

Every value of at most 21 bits has an encoding of its own, surrogates and values past the
last code point included, and no encoding goes on as another. So bytes that are a list of
encodings can be read back by their first bytes. Decoding to characters accepts them
exactly when each of the values is a character.
-/

namespace LuaTokens.Utf8

-- Powers of natural numbers are those of the core library, also beside other monoids.
attribute [local instance (high)] instPowNat

/-- The number of continuation bytes behind a first byte, and the bits that it has itself. -/
def lead (byte : UInt8) : Nat × Nat :=
  if byte < 0x80 then (0, byte.toNat)
  else if byte < 0xE0 then (1, byte.toNat % 0x20)
  else if byte < 0xF0 then (2, byte.toNat % 0x10)
  else (3, byte.toNat % 0x08)

/-- The values of `bytes` behind a value that has these bits and lacks so many bytes. -/
def valuesFrom : Nat × Nat → List UInt8 → List Nat
  | _, [] => []
  | (0, _), byte :: rest =>
      match lead byte with
      | (0, bits) => bits :: valuesFrom (0, 0) rest
      | (further + 1, bits) => valuesFrom (further + 1, bits) rest
  | (1, bits), byte :: rest => (bits * 0x40 + byte.toNat % 0x40) :: valuesFrom (0, 0) rest
  | (further + 2, bits), byte :: rest =>
      valuesFrom (further + 1, bits * 0x40 + byte.toNat % 0x40) rest

/-- The values that `bytes` encode, each found by its first byte. -/
def values (bytes : List UInt8) : List Nat :=
  valuesFrom (0, 0) bytes

theorem toNat_continuation (bits : Nat) : (continuation bits).toNat = 0x80 + bits % 0x40 := by
  rw [continuation, UInt8.toNat_ofNat']
  omega

theorem lead_ofNat {n : Nat} (h : n < 0x100) : lead (UInt8.ofNat n) =
    if n < 0x80 then (0, n) else if n < 0xE0 then (1, n % 0x20)
    else if n < 0xF0 then (2, n % 0x10) else (3, n % 0x08) := by
  have value : (UInt8.ofNat n).toNat = n := by
    rw [UInt8.toNat_ofNat']
    omega
  simp only [lead, UInt8.lt_iff_toNat_lt, value]
  rfl

theorem values_cons {byte : UInt8} {further bits : Nat} (h : lead byte = (further + 1, bits))
    (rest : List UInt8) : values (byte :: rest) = valuesFrom (further + 1, bits) rest := by
  simp only [values, valuesFrom, h]

theorem valuesFrom_last (bits low : Nat) (rest : List UInt8) :
    valuesFrom (1, bits) (continuation low :: rest) = (bits * 0x40 + low % 0x40) :: values rest := by
  have six : (0x80 + low % 0x40) % 0x40 = low % 0x40 := by omega
  simp only [valuesFrom, toNat_continuation, six, values]

theorem valuesFrom_continuation (further bits low : Nat) (rest : List UInt8) :
    valuesFrom (further + 2, bits) (continuation low :: rest)
      = valuesFrom (further + 1, bits * 0x40 + low % 0x40) rest := by
  have six : (0x80 + low % 0x40) % 0x40 = low % 0x40 := by omega
  simp only [valuesFrom, toNat_continuation, six]

theorem lead_mark (form : Form) {bits : Nat} (h : bits < form.room) :
    lead (UInt8.ofNat (form.mark + bits)) = (form.further, bits) := by
  cases form <;> simp only [Form.room, Form.mark, Form.further] at h ⊢ <;>
    rw [lead_ofNat (by omega)]
  case one => rw [if_pos (by omega), Nat.zero_add]
  case two => rw [if_neg (by omega), if_pos (by omega), Prod.mk.injEq]; omega
  case three => rw [if_neg (by omega), if_neg (by omega), if_pos (by omega), Prod.mk.injEq]; omega
  case four => rw [if_neg (by omega), if_neg (by omega), if_neg (by omega), Prod.mk.injEq]; omega

theorem lead_bytes {form : Form} {point : Nat} (holds : point < form.limit) :
    lead (UInt8.ofNat (form.mark + point / 0x40 ^ form.further))
      = (form.further, point / 0x40 ^ form.further) := by
  rw [Form.limit_eq, Nat.mul_comm] at holds
  exact lead_mark form (Nat.div_lt_of_lt_mul holds)

theorem mul_group (bits count : Nat) : bits * 0x40 * 0x40 ^ count = bits * 0x40 ^ (count + 1) := by
  rw [Nat.pow_succ, Nat.mul_comm (0x40 ^ count), Nat.mul_assoc]

/-- Continuation bytes put the low bits behind those that have been read. -/
theorem valuesFrom_continuations (bits point count : Nat) (rest : List UInt8) :
    valuesFrom (count + 1, bits) (Form.continuations point (count + 1) ++ rest)
      = (bits * 0x40 ^ (count + 1) + point % 0x40 ^ (count + 1)) :: values rest := by
  induction count generalizing bits with
  | zero => simp only [Form.continuations, List.cons_append, valuesFrom_last, Nat.pow_zero, Nat.div_one,
      List.nil_append, Nat.zero_add, Nat.pow_one]
  | succ count ih =>
      have group : point / 0x40 ^ (count + 1) % 0x40 * 0x40 ^ (count + 1) + point % 0x40 ^ (count + 1)
          = point % 0x40 ^ (count + 2) := by
        rw [Nat.pow_succ 0x40 (count + 1), Nat.mod_mul, Nat.mul_comm, Nat.add_comm]
      rw [Form.continuations, List.cons_append, valuesFrom_continuation, ih, Nat.add_mul, mul_group,
        Nat.add_assoc, group]

theorem values_bytes_append {form : Form} {point : Nat} (holds : point < form.limit) (rest : List UInt8) :
    values (form.bytes point ++ rest) = point :: values rest := by
  have first := lead_bytes holds
  rw [Form.bytes, List.cons_append]
  cases further : form.further with
  | zero =>
      rw [further, Nat.pow_zero, Nat.div_one] at first
      simp only [values, valuesFrom, Nat.pow_zero, Nat.div_one, first, Form.continuations, List.nil_append]
  | succ count =>
      rw [further] at first
      rw [values_cons first, valuesFrom_continuations, Nat.div_add_mod']

theorem values_encode_append {point : Nat} (h : point < 0x200000) (rest : List UInt8) :
    values (encode point ++ rest) = point :: values rest := by
  obtain ⟨form, shortest, encoded⟩ := exists_isShortest h
  rw [encoded, values_bytes_append shortest.holds]

theorem values_flatMap_encode {points : List Nat} (h : ∀ point ∈ points, point < 0x200000) :
    values (points.flatMap encode) = points := by
  induction points with
  | nil => rfl
  | cons point points ih =>
      rw [List.flatMap_cons, values_encode_append (h point List.mem_cons_self),
        ih fun later member => h later (List.mem_cons_of_mem _ member)]

theorem lt_of_isValidChar {point : Nat} (h : point.isValidChar) : point < 0x110000 := by
  rcases h with low | ⟨-, high⟩
  · omega
  · exact high

theorem encode_toNat (c : Char) : encode c.toNat = String.utf8EncodeChar c := by
  have small : c.toNat < 0x110000 := lt_of_isValidChar c.valid
  rw [String.utf8EncodeChar, show c.val.toNat = c.toNat from rfl]
  generalize c.toNat = point at small
  unfold encode continuation
  split
  next one => rw [if_pos (by omega)]
  split
  next two =>
    rw [if_neg (by omega), if_pos (by omega), Nat.mod_eq_of_lt (show point / 64 < 0x20 by omega)]
    simp only [Nat.add_comm]
  split
  next three =>
    rw [if_neg (by omega), if_neg (by omega), if_pos (by omega),
      Nat.mod_eq_of_lt (show point / 4096 < 0x10 by omega)]
    simp only [Nat.add_comm]
  next four =>
    rw [if_neg (by omega), if_neg (by omega), if_neg (by omega)]
    simp only [Nat.add_comm]

section Decoding

theorem start_ofNat {n : Nat} (h : n < 0x100) : start (UInt8.ofNat n) =
    if n < 0x80 then .piece (some (Char.ofNat n))
    else if n < 0xC2 then .piece none
    else if n < 0xE0 then .pending ⟨0, 0x80, 0xBF, n - 0xC0⟩
    else if n = 0xE0 then .pending ⟨1, 0xA0, 0xBF, 0⟩
    else if n = 0xED then .pending ⟨1, 0x80, 0x9F, 0xD⟩
    else if n < 0xF0 then .pending ⟨1, 0x80, 0xBF, n - 0xE0⟩
    else if n = 0xF0 then .pending ⟨2, 0x90, 0xBF, 0⟩
    else if n < 0xF4 then .pending ⟨2, 0x80, 0xBF, n - 0xF0⟩
    else if n = 0xF4 then .pending ⟨2, 0x80, 0x8F, 4⟩
    else .piece none := by
  have value : (UInt8.ofNat n).toNat = n := by
    rw [UInt8.toNat_ofNat']
    omega
  simp only [start, UInt8.lt_iff_toNat_lt, beq_iff_eq, ← UInt8.toNat_inj, value]
  rfl

/-- Whether the byte with these six bits may come next. -/
def Pending.Admits (sequence : Pending) (low : Nat) : Prop :=
  sequence.low.toNat ≤ 0x80 + low % 0x40 ∧ 0x80 + low % 0x40 ≤ sequence.high.toNat

theorem Pending.admits_iff {sequence : Pending} {low : Nat} :
    (sequence.low ≤ continuation low && continuation low ≤ sequence.high) = true
      ↔ sequence.Admits low := by
  simp only [Bool.and_eq_true, decide_eq_true_eq, UInt8.le_iff_toNat_le, toNat_continuation, Admits]

theorem Pending.next?_of_last {low high : UInt8} {bits six : Nat}
    (admits : Pending.Admits ⟨0, low, high, bits⟩ six) :
    Pending.next? ⟨0, low, high, bits⟩ (continuation six)
      = some (.piece (some (Char.ofNat (bits * 0x40 + six % 0x40)))) := by
  simp only [next?, if_pos (admits_iff.2 admits), toNat_continuation, Nat.add_sub_cancel_left]

theorem Pending.next?_of_more {further : Nat} {low high : UInt8} {bits six : Nat}
    (admits : Pending.Admits ⟨further + 1, low, high, bits⟩ six) :
    Pending.next? ⟨further + 1, low, high, bits⟩ (continuation six)
      = some (.pending ⟨further, 0x80, 0xBF, bits * 0x40 + six % 0x40⟩) := by
  simp only [next?, if_pos (admits_iff.2 admits), toNat_continuation, Nat.add_sub_cancel_left]

theorem Pending.next?_of_not_admits {sequence : Pending} {low : Nat}
    (refuses : ¬ sequence.Admits low) : sequence.next? (continuation low) = none := by
  rw [next?, if_neg (mt admits_iff.1 refuses)]

theorem pieces_cons {byte : UInt8} {sequence : Pending} (h : start byte = .pending sequence)
    (rest : List UInt8) : pieces (byte :: rest) = piecesFrom (some sequence) rest := by
  simp only [pieces, piecesFrom, h]

theorem piecesFrom_last {low high : UInt8} {bits six : Nat}
    (admits : Pending.Admits ⟨0, low, high, bits⟩ six) (rest : List UInt8) :
    piecesFrom (some ⟨0, low, high, bits⟩) (continuation six :: rest)
      = some (Char.ofNat (bits * 0x40 + six % 0x40)) :: pieces rest := by
  simp only [piecesFrom, Pending.next?_of_last admits, pieces]

theorem piecesFrom_continuation {further : Nat} {low high : UInt8} {bits six : Nat}
    (admits : Pending.Admits ⟨further + 1, low, high, bits⟩ six) (rest : List UInt8) :
    piecesFrom (some ⟨further + 1, low, high, bits⟩) (continuation six :: rest)
      = piecesFrom (some ⟨further, 0x80, 0xBF, bits * 0x40 + six % 0x40⟩) rest := by
  simp only [piecesFrom, Pending.next?_of_more admits]

theorem admits_any (further bits six : Nat) : Pending.Admits ⟨further, 0x80, 0xBF, bits⟩ six := by
  constructor
  · exact Nat.le_add_right _ _
  · change 0x80 + six % 0x40 ≤ 0xBF
    omega

theorem start_of_three {point : Nat} (valid : point.isValidChar) (long : 0x800 ≤ point)
    (short : point < 0x10000) :
    ∃ low high, start (UInt8.ofNat (0xE0 + point / 0x1000)) = .pending ⟨1, low, high, point / 0x1000⟩
      ∧ Pending.Admits ⟨1, low, high, point / 0x1000⟩ (point / 0x40) := by
  unfold Nat.isValidChar at valid
  rw [start_ofNat (by omega), if_neg (by omega), if_neg (by omega), if_neg (by omega)]
  by_cases least : point / 0x1000 = 0
  · rw [least]
    refine ⟨0xA0, 0xBF, rfl, ?_⟩
    change 0xA0 ≤ 0x80 + point / 0x40 % 0x40 ∧ 0x80 + point / 0x40 % 0x40 ≤ 0xBF
    omega
  · rw [if_neg (by omega)]
    by_cases below : point / 0x1000 = 0xD
    · rw [below]
      refine ⟨0x80, 0x9F, rfl, ?_⟩
      change 0x80 ≤ 0x80 + point / 0x40 % 0x40 ∧ 0x80 + point / 0x40 % 0x40 ≤ 0x9F
      omega
    · rw [if_neg (by omega), if_pos (by omega), Nat.add_sub_cancel_left]
      exact ⟨0x80, 0xBF, rfl, admits_any _ _ _⟩

theorem start_of_four {point : Nat} (valid : point.isValidChar) (long : 0x10000 ≤ point) :
    ∃ low high, start (UInt8.ofNat (0xF0 + point / 0x40000 % 8))
        = .pending ⟨2, low, high, point / 0x40000⟩
      ∧ Pending.Admits ⟨2, low, high, point / 0x40000⟩ (point / 0x1000) := by
  have small := lt_of_isValidChar valid
  rw [Nat.mod_eq_of_lt (by omega), start_ofNat (by omega), if_neg (by omega), if_neg (by omega),
    if_neg (by omega), if_neg (by omega), if_neg (by omega), if_neg (by omega)]
  by_cases least : point / 0x40000 = 0
  · rw [least]
    refine ⟨0x90, 0xBF, rfl, ?_⟩
    change 0x90 ≤ 0x80 + point / 0x1000 % 0x40 ∧ 0x80 + point / 0x1000 % 0x40 ≤ 0xBF
    omega
  · rw [if_neg (by omega)]
    by_cases greatest : point / 0x40000 = 4
    · rw [greatest]
      refine ⟨0x80, 0x8F, rfl, ?_⟩
      change 0x80 ≤ 0x80 + point / 0x1000 % 0x40 ∧ 0x80 + point / 0x1000 % 0x40 ≤ 0x8F
      omega
    · rw [if_pos (by omega), Nat.add_sub_cancel_left]
      exact ⟨0x80, 0xBF, rfl, admits_any _ _ _⟩

theorem pieces_encode_append {point : Nat} (valid : point.isValidChar) (rest : List UInt8) :
    pieces (encode point ++ rest) = some (Char.ofNat point) :: pieces rest := by
  have small := lt_of_isValidChar valid
  unfold encode
  split
  next one =>
    have first : start (UInt8.ofNat point) = .piece (some (Char.ofNat point)) := by
      rw [start_ofNat (by omega), if_pos one]
    simp only [List.cons_append, List.nil_append, pieces, piecesFrom, first]
  split
  next two =>
    have first : start (UInt8.ofNat (0xC0 + point / 0x40)) = .pending ⟨0, 0x80, 0xBF, point / 0x40⟩ := by
      rw [start_ofNat (by omega), if_neg (by omega), if_neg (by omega), if_pos (by omega),
        Nat.add_sub_cancel_left]
    simp only [List.cons_append, List.nil_append]
    rw [pieces_cons first, piecesFrom_last (admits_any _ _ _), Nat.div_add_mod']
  split
  next three =>
    obtain ⟨low, high, first, admits⟩ := start_of_three valid (by omega) three
    simp only [List.cons_append, List.nil_append]
    rw [pieces_cons first, piecesFrom_continuation admits, piecesFrom_last (admits_any _ _ _)]
    rw [show (point / 0x1000 * 0x40 + point / 0x40 % 0x40) * 0x40 + point % 0x40 = point by omega]
  next four =>
    obtain ⟨low, high, first, admits⟩ := start_of_four valid (by omega)
    simp only [List.cons_append, List.nil_append]
    rw [pieces_cons first, piecesFrom_continuation admits, piecesFrom_continuation (admits_any _ _ _),
      piecesFrom_last (admits_any _ _ _)]
    rw [show ((point / 0x40000 * 0x40 + point / 0x1000 % 0x40) * 0x40 + point / 0x40 % 0x40) * 0x40
      + point % 0x40 = point by omega]

theorem pieces_encode_surrogate {point : Nat} (low : 0xD800 ≤ point) (high : point ≤ 0xDFFF)
    (rest : List UInt8) : ∃ more, pieces (encode point ++ rest) = none :: more := by
  have first : start (UInt8.ofNat (0xE0 + point / 0x1000)) = .pending ⟨1, 0x80, 0x9F, 0xD⟩ := by
    rw [show 0xE0 + point / 0x1000 = 0xED by omega]
    rfl
  have refuses : ¬ Pending.Admits ⟨1, 0x80, 0x9F, 0xD⟩ (point / 0x40) := by
    rintro ⟨-, least⟩
    change 0x80 + point / 0x40 % 0x40 ≤ 0x9F at least
    omega
  have second : start (continuation (point / 0x40)) = .piece none := by
    rw [continuation, start_ofNat (by omega), if_neg (by omega), if_pos (by omega)]
  rw [encode, if_neg (by omega), if_neg (by omega), if_pos (by omega)]
  simp only [List.cons_append, List.nil_append]
  rw [pieces_cons first, piecesFrom, Pending.next?_of_not_admits refuses]
  simp only [second]
  exact ⟨_, rfl⟩

theorem decode?_cons {bytes rest : List UInt8} {c : Char} (h : pieces bytes = some c :: pieces rest) :
    decode? bytes = (decode? rest).map (c :: ·) := by
  rw [decode?, h, List.mapM_cons, decode?]
  cases (pieces rest).mapM id <;> rfl

theorem decode?_eq_none {bytes : List UInt8} {more : List (Option Char)} (h : pieces bytes = none :: more) :
    decode? bytes = none := by
  rw [decode?, h, List.mapM_cons]
  rfl

variable {points : List Nat}

theorem decode?_flatMap_encode (valid : ∀ point ∈ points, point.isValidChar) :
    decode? (points.flatMap encode) = some (points.map Char.ofNat) := by
  induction points with
  | nil => rfl
  | cons point points ih =>
      have later := ih fun other member => valid other (List.mem_cons_of_mem _ member)
      rw [List.flatMap_cons, decode?_cons (pieces_encode_append (valid point List.mem_cons_self) _), later]
      rfl

theorem isValidChar_of_decode? (points_lt : ∀ point ∈ points, point < 0x110000)
    (decoded : (decode? (points.flatMap encode)).isSome) : ∀ point ∈ points, point.isValidChar := by
  induction points with
  | nil => simp
  | cons point points ih =>
      have small := points_lt point List.mem_cons_self
      rw [List.flatMap_cons] at decoded
      by_cases valid : point.isValidChar
      · rw [decode?_cons (pieces_encode_append valid _), Option.isSome_map] at decoded
        have later := ih (fun other member => points_lt other (List.mem_cons_of_mem _ member)) decoded
        exact List.forall_mem_cons.2 ⟨valid, later⟩
      · unfold Nat.isValidChar at valid
        have low : 0xD800 ≤ point := by omega
        obtain ⟨more, faulty⟩ := pieces_encode_surrogate low (by omega) (points.flatMap encode)
        rw [decode?_eq_none faulty] at decoded
        cases decoded

end Decoding

end LuaTokens.Utf8
