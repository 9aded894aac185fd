import LuaTokens.Text.Utf8

/-! # Byte strings

The contents of strings, names and comments are bytes, not necessarily
well-formed UTF-8. Source text becomes bytes code point by code point, so that it
holds what a byte-oriented file would have held; an unpaired surrogate keeps its
own three bytes.
-/

namespace LuaTokens

/-- A string as a sequence of bytes. -/
abbrev ByteString := List UInt8

namespace ByteString

/-- The bytes of source text. -/
def ofUnits (units : List CodeUnit) : ByteString :=
  (Utf16.points units).flatMap Utf8.encode

/-- The bytes of source text behind those of `bytes`, code point by code point. -/
def appendUnits (bytes : ByteString) (units : List CodeUnit) : ByteString :=
  (Utf16.points units).foldl (fun bytes point => bytes ++ Utf8.encode point) bytes

/-- The bytes of a string. -/
def ofString (text : String) : ByteString :=
  text.toList.flatMap (Utf8.encode ·.toNat)

/-- The text of the bytes when they are well-formed. -/
def toString? (bytes : ByteString) : Option String :=
  (Utf8.decode? bytes).map String.ofList

/-- The text of the bytes, faulty pieces replaced. -/
def lossy (bytes : ByteString) : String :=
  String.ofList (Utf8.decodeLossy bytes)

/-- The order of byte strings, byte by byte, the shorter first. -/
def order (a b : ByteString) : Ordering :=
  compare a b

/-- One byte in ASCII, with a backslash escape where it is not printable or would
    end the quotes. -/
def escapedByte (byte : UInt8) : List Char :=
  if byte == 0x09 then ['\\', 't']
  else if byte == 0x0D then ['\\', 'r']
  else if byte == 0x0A then ['\\', 'n']
  else if byte == 0x27 then ['\\', '\'']
  else if byte == 0x22 then ['\\', '"']
  else if byte == 0x5C then ['\\', '\\']
  else if 0x20 ≤ byte && byte ≤ 0x7E then [Char.ofNat byte.toNat]
  else ['\\', 'x', Nat.digitChar (byte.toNat / 16), Nat.digitChar (byte.toNat % 16)]

/-- The bytes in double quotes, escaped. -/
def quoted (bytes : ByteString) : String :=
  String.ofList ('"' :: bytes.flatMap escapedByte ++ ['"'])

end ByteString

end LuaTokens
