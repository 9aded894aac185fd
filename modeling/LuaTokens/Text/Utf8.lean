import LuaTokens.Text.Utf16

/-! # UTF-8

Encoding takes any code point, surrogates included, and gives values past the
Unicode range the four-byte form of their low 21 bits. Decoding accepts only
well-formed UTF-8; it cuts the bytes into characters and faulty pieces, where a
faulty piece is the longest beginning of a well-formed sequence that the following
byte does not continue, or a single byte that begins none.
-/

namespace LuaTokens.Utf8

/-- The continuation byte for the low six bits of `bits`. -/
def continuation (bits : Nat) : UInt8 :=
  UInt8.ofNat (0x80 + bits % 0x40)

/-- The bytes of one code point. -/
def encode (point : Nat) : List UInt8 :=
  if point < 0x80 then
    [UInt8.ofNat point]
  else if point < 0x800 then
    [UInt8.ofNat (0xC0 + point / 0x40), continuation point]
  else if point < 0x10000 then
    [UInt8.ofNat (0xE0 + point / 0x1000), continuation (point / 0x40), continuation point]
  else
    [UInt8.ofNat (0xF0 + point / 0x40000 % 8), continuation (point / 0x1000),
      continuation (point / 0x40), continuation point]

/-- A sequence that has begun: the bytes still missing after the next one, the
    range the next one must lie in, and the bits read so far. -/
structure Pending where
  further : Nat
  low : UInt8
  high : UInt8
  bits : Nat
  deriving Repr, DecidableEq

/-- What one byte brings: a finished piece, or a sequence that goes on. -/
inductive Step where
  | piece (char? : Option Char)
  | pending (sequence : Pending)
  deriving Repr, DecidableEq

/-- Take `byte` as the first of a sequence. The range of the second byte keeps
    out overlong forms, surrogates and everything past the last code point. -/
def start (byte : UInt8) : Step :=
  if byte < 0x80 then .piece (some (Char.ofNat byte.toNat))
  else if byte < 0xC2 then .piece none
  else if byte < 0xE0 then .pending ⟨0, 0x80, 0xBF, byte.toNat - 0xC0⟩
  else if byte == 0xE0 then .pending ⟨1, 0xA0, 0xBF, 0⟩
  else if byte == 0xED then .pending ⟨1, 0x80, 0x9F, 0xD⟩
  else if byte < 0xF0 then .pending ⟨1, 0x80, 0xBF, byte.toNat - 0xE0⟩
  else if byte == 0xF0 then .pending ⟨2, 0x90, 0xBF, 0⟩
  else if byte < 0xF4 then .pending ⟨2, 0x80, 0xBF, byte.toNat - 0xF0⟩
  else if byte == 0xF4 then .pending ⟨2, 0x80, 0x8F, 4⟩
  else .piece none

/-- Take `byte` as the next of a sequence, if it continues it. -/
def Pending.next? (sequence : Pending) (byte : UInt8) : Option Step :=
  if sequence.low ≤ byte && byte ≤ sequence.high then
    let bits := sequence.bits * 0x40 + (byte.toNat - 0x80)
    some (match sequence.further with
      | 0 => .piece (some (Char.ofNat bits))
      | further + 1 => .pending ⟨further, 0x80, 0xBF, bits⟩)
  else
    none

/-- The pieces of `bytes` after what has begun before them. A byte that does not
    continue a sequence ends it and is taken again as a first byte. -/
def piecesFrom : Option Pending → List UInt8 → List (Option Char)
  | none, [] => []
  | some _, [] => [none]
  | none, byte :: rest =>
      match start byte with
      | .piece char? => char? :: piecesFrom none rest
      | .pending sequence => piecesFrom (some sequence) rest
  | some sequence, byte :: rest =>
      match sequence.next? byte with
      | some (.piece char?) => char? :: piecesFrom none rest
      | some (.pending longer) => piecesFrom (some longer) rest
      | none =>
          match start byte with
          | .piece char? => none :: char? :: piecesFrom none rest
          | .pending other => none :: piecesFrom (some other) rest

/-- The characters of `bytes`, with `none` for each faulty piece. -/
def pieces (bytes : List UInt8) : List (Option Char) :=
  piecesFrom none bytes

/-- The characters of `bytes` when they are well-formed. -/
def decode? (bytes : List UInt8) : Option (List Char) :=
  (pieces bytes).mapM id

/-- The characters of `bytes`, each faulty piece replaced. -/
def decodeLossy (bytes : List UInt8) : List Char :=
  (pieces bytes).map (·.getD Utf16.replacement)

end LuaTokens.Utf8
