import LuaTokens.Proofs.Lexeme.EscapeGrammar
import LuaTokens.Proofs.Place
import Mathlib.Data.List.Basic

/-! # Reading back what is rendered

A byte string is rendered as a quoted string in which each byte is an element of its own:
itself, a letter or a quote behind a backslash, or two hexadecimal digits. So a run over
the rendering delivers the byte string again.
-/

namespace LuaTokens

namespace Utf16

theorem encodeChar_of_ascii {c : Char} (ascii : c.toNat ≤ 0x7E) : encodeChar c = [.of c] :=
  if_pos (Nat.lt_of_le_of_lt ascii (by decide))

theorem encode_of_ascii {text : String} (ascii : ∀ c ∈ text.toList, c.toNat ≤ 0x7E) :
    encode text = spellingUnits text := by
  rw [encode, spellingUnits, List.map_eq_flatMap]
  exact List.flatMap_congr fun c member => encodeChar_of_ascii (ascii c member)

end Utf16

namespace ByteString

/-- The ways to render a byte. -/
inductive Rendered (byte : UInt8) : List Char → Prop where
  | control {letter : Char} (h : (letter, byte) ∈ [('t', 0x09), ('r', 0x0D), ('n', 0x0A)]) :
      Rendered byte ['\\', letter]
  | self {c : Char} (h : (c, byte) ∈ [('\'', 0x27), ('"', 0x22), ('\\', 0x5C)]) :
      Rendered byte ['\\', c]
  | plain (printable : 0x20 ≤ byte.toNat ∧ byte.toNat ≤ 0x7E) (unquoted : byte ≠ 0x22)
      (unescaped : byte ≠ 0x5C) : Rendered byte [Char.ofNat byte.toNat]
  | hexadecimal : Rendered byte
      ['\\', 'x', Nat.digitChar (byte.toNat / 16), Nat.digitChar (byte.toNat % 16)]

theorem rendered (byte : UInt8) : Rendered byte (escapedByte byte) := by
  unfold escapedByte
  split
  next same => exact .control (by simp [beq_iff_eq.1 same])
  split
  next same => exact .control (by simp [beq_iff_eq.1 same])
  split
  next same => exact .control (by simp [beq_iff_eq.1 same])
  split
  next same => exact .self (by simp [beq_iff_eq.1 same])
  split
  next same => exact .self (by simp [beq_iff_eq.1 same])
  next unquoted =>
    split
    next same => exact .self (by simp [beq_iff_eq.1 same])
    next unescaped =>
      split
      next printable =>
        simp only [Bool.and_eq_true, decide_eq_true_eq, UInt8.le_iff_toNat_le] at printable
        exact .plain printable (by simpa using unquoted) (by simpa using unescaped)
      · exact .hexadecimal

theorem printable_of_mem_escapedByte {byte : UInt8} {c : Char} (member : c ∈ escapedByte byte) :
    0x20 ≤ c.toNat ∧ c.toNat ≤ 0x7E := by
  have found := rendered byte
  generalize escapedByte byte = chars at member found
  cases found with
  | @control letter h =>
      have letters : ∀ pair ∈ [('t', (0x09 : UInt8)), ('r', 0x0D), ('n', 0x0A)],
          0x20 ≤ pair.1.toNat ∧ pair.1.toNat ≤ 0x7E := by decide
      rcases List.mem_cons.1 member with rfl | member
      · decide
      · obtain rfl := List.mem_singleton.1 member
        exact letters _ h
  | @self c h =>
      have selves : ∀ pair ∈ [('\'', (0x27 : UInt8)), ('"', 0x22), ('\\', 0x5C)],
          0x20 ≤ pair.1.toNat ∧ pair.1.toNat ≤ 0x7E := by decide
      rcases List.mem_cons.1 member with rfl | member
      · decide
      · obtain rfl := List.mem_singleton.1 member
        exact selves _ h
  | plain printable =>
      have ascii : ∀ n ≤ 0x7E, (Char.ofNat n).toNat = n := by decide
      obtain rfl := List.mem_singleton.1 member
      rwa [ascii _ printable.2]
  | hexadecimal =>
      have digits : ∀ n < 16, 0x20 ≤ (Nat.digitChar n).toNat ∧ (Nat.digitChar n).toNat ≤ 0x7E := by
        decide
      have high : byte.toNat / 16 < 16 := Nat.div_lt_of_lt_mul byte.toNat_lt
      have low : byte.toNat % 16 < 16 := Nat.mod_lt _ (by decide)
      simp only [List.mem_cons, List.not_mem_nil, or_false] at member
      rcases member with rfl | rfl | rfl | rfl
      · decide
      · decide
      · exact digits _ high
      · exact digits _ low

theorem printable_quoted {b : ByteString} {c : Char} (member : c ∈ b.quoted.toList) :
    0x20 ≤ c.toNat ∧ c.toNat ≤ 0x7E := by
  simp only [quoted, String.toList_ofList, List.cons_append, List.mem_cons, List.mem_append,
    List.mem_flatMap, List.not_mem_nil, or_false] at member
  rcases member with rfl | ⟨byte, -, inside⟩ | rfl
  · decide
  · exact printable_of_mem_escapedByte inside
  · decide

end ByteString

namespace Escape

variable {features : FeatureSet}

theorem read_hexadecimal (hex : .hexEscapes ∈ features) (byte : UInt8) (rest : List CodeUnit) :
    read features (.of 'x') (.of (Nat.digitChar (byte.toNat / 16))
        :: .of (Nat.digitChar (byte.toNat % 16)) :: rest) = ⟨.ok [byte], 3⟩ := by
  have digits : ∀ n < 16, (CodeUnit.of (Nat.digitChar n)).isHexDigit = true
      ∧ (CodeUnit.of (Nat.digitChar n)).digitValue = n := by decide
  obtain ⟨high, highValue⟩ := digits (byte.toNat / 16) (Nat.div_lt_of_lt_mul byte.toNat_lt)
  obtain ⟨low, lowValue⟩ := digits (byte.toNat % 16) (Nat.mod_lt _ (by decide))
  have value : byte.toNat / 16 * 16 + byte.toNat % 16 = byte.toNat := Nat.div_add_mod' _ _
  simp only [read_letter_x hex, hexadecimal, high, low, highValue, lowValue, value, Bool.not_true,
    Bool.false_eq_true, if_false, UInt8.ofNat_toNat]

end Escape

namespace Quoted

variable {features : FeatureSet}

/-- The element that a byte is rendered as. -/
def renderedElement (byte : UInt8) : Element :=
  ⟨(ByteString.escapedByte byte).map .of, [byte]⟩

theorem step_escape_append {v : CodeUnit} {tail rest : List CodeUnit} {bytes : ByteString}
    (h : Escape.read features v (tail ++ rest) = ⟨.ok bytes, tail.length + 1⟩) :
    step features (.of '"') (.of '\\' :: v :: (tail ++ rest))
      = .element ⟨.of '\\' :: v :: tail, bytes⟩ rest := by
  rw [step_escape (by decide) (congrArg Escape.Reading.outcome h), h]
  simp

theorem step_rendered (hex : .hexEscapes ∈ features) (byte : UInt8) (rest : List CodeUnit) :
    step features (.of '"') ((renderedElement byte).text ++ rest)
      = .element (renderedElement byte) rest := by
  have found := ByteString.rendered byte
  unfold renderedElement
  generalize ByteString.escapedByte byte = chars at found
  cases found with
  | @control letter h =>
      have letters : ∀ pair ∈ [('t', (0x09 : UInt8)), ('r', 0x0D), ('n', 0x0A)],
          Escape.control? (.of pair.1) = some pair.2 := by decide
      have read : Escape.read features (.of letter) ([] ++ rest) = ⟨.ok [byte], 1⟩ := by
        simp only [Escape.read, letters _ h]
      exact step_escape_append read
  | @self c h =>
      have selves : ∀ pair ∈ [('\'', (0x27 : UInt8)), ('"', 0x22), ('\\', 0x5C)],
          Escape.isSelf (.of pair.1) = true ∧ UInt8.ofNat (CodeUnit.of pair.1).toNat = pair.2 := by
        decide
      obtain ⟨self, value⟩ := selves _ h
      have read : Escape.read features (.of c) ([] ++ rest) = ⟨.ok [byte], 1⟩ := by
        rw [Escape.read_self self, value]
      exact step_escape_append read
  | plain printable unquoted unescaped =>
      have chars : ∀ n ≤ 0x7E, (CodeUnit.of (Char.ofNat n)).toNat = n := by decide
      have unbroken : ∀ n ≤ 0x7E, 0x20 ≤ n → (CodeUnit.of (Char.ofNat n)).isBreak = false := by decide
      have ascii := chars _ printable.2
      have other : ∀ v : UInt8, byte ≠ v → v.toNat ≤ 0x7E →
          CodeUnit.of (Char.ofNat byte.toNat) ≠ .of (Char.ofNat v.toNat) := by
        intro v differ small same
        rw [← UInt16.toNat_inj, ascii, chars _ small] at same
        exact differ (UInt8.toNat_inj.1 same)
      have small : (CodeUnit.of (Char.ofNat byte.toNat)).toNat ≤ 0x7E := by
        rw [ascii]
        exact printable.2
      refine (step_plain (other 0x22 unquoted (by decide)) (unbroken _ printable.2 printable.1)
        (other 0x5C unescaped (by decide)) rest).trans ?_
      simp only [Utf16.leadingWidth_of_ascii small, List.take_succ_cons, List.take_zero,
        List.drop_succ_cons, List.drop_zero, ByteString.ofUnits_of_ascii small, ascii,
        UInt8.ofNat_toNat]
      rfl
  | hexadecimal =>
      have read : Escape.read features (.of 'x') ([.of (Nat.digitChar (byte.toNat / 16)),
          .of (Nat.digitChar (byte.toNat % 16))] ++ rest) = ⟨.ok [byte], 3⟩ :=
        Escape.read_hexadecimal hex byte rest
      exact step_escape_append read

theorem body_rendered (hex : .hexEscapes ∈ features) (b : ByteString) (rest : List CodeUnit) :
    body features (.of '"') (b.flatMap (fun byte => (renderedElement byte).text) ++ .of '"' :: rest)
      = ⟨b.map renderedElement, .closed, .of '"' :: rest⟩ := by
  induction b with
  | nil => exact body_of_ending (by simp [step])
  | cons byte b ih =>
      rw [List.flatMap_cons, List.append_assoc, body_of_element (step_rendered hex byte _), ih]
      rfl

theorem spellingUnits_quoted (b : ByteString) :
    spellingUnits b.quoted = .of '"' :: (b.flatMap (fun byte => (renderedElement byte).text) ++ [.of '"']) := by
  simp [spellingUnits, ByteString.quoted, renderedElement, List.map_flatMap]

theorem read_rendered (hex : .hexEscapes ∈ features) (b : ByteString) :
    read features (.of '"') (b.flatMap (fun byte => (renderedElement byte).text) ++ [.of '"'])
      = .ok ⟨b, spellingUnits b.quoted, []⟩ := by
  have elements : (⟨b.map renderedElement, .closed, [.of '"']⟩ : Body).text
      = b.flatMap (fun byte => (renderedElement byte).text) := by
    simp [Body.text, List.flatMap_map]
  have bytes : (⟨b.map renderedElement, .closed, [.of '"']⟩ : Body).bytes = b := by
    simp [Body.bytes, List.flatMap_map, renderedElement]
  simp only [read, body_rendered hex, elements, bytes, spellingUnits_quoted]
  rfl

end Quoted

namespace Run

theorem isBreak_quoted (b : ByteString) : ∀ u ∈ spellingUnits b.quoted, u.isBreak = false := by
  intro u member
  obtain ⟨c, inside, rfl⟩ := List.mem_map.1 member
  have printable := ByteString.printable_quoted inside
  have solid : ∀ n ≤ 0x7E, 0x20 ≤ n → CodeUnit.isBreak (UInt16.ofNat n) = false := by decide
  exact solid _ printable.2 printable.1

theorem trace_quoted {o : Options} (hex : .hexEscapes ∈ o.dialect.features) (b : ByteString) :
    let units := spellingUnits b.quoted
    trace o units = ⟨[⟨.token (.string b), units, {}⟩], Position.advance {} units, [], none⟩ := by
  intro units
  have first : units = .of '"' :: (b.flatMap (fun byte => (Quoted.renderedElement byte).text)
      ++ [.of '"']) := Quoted.spellingUnits_quoted b
  have unmarked : Session.skipped o units = [] := by
    have noMark : ¬ spellingUnits "#!" <+: units := by
      rw [first]
      intro mark
      cases (List.cons_prefix_cons.1 mark).1
    simp only [Session.skipped, Session.shebang_of_unmarked noMark, ite_self]
  have read : Lexeme.read o.grammar units = .read ⟨.token (.string b), units, []⟩ := by
    have inner : Quoted.read o.grammar.features (.of '"') _ = _ := Quoted.read_rendered hex b
    rw [first, Lexeme.read_quoted (by decide), inner, ← first]
    rfl
  rw [trace_eq, unmarked]
  refine (Trace.of_read read).trans ?_
  rw [Trace.of_nil]
  rfl

theorem ofText_quoted {o : Options} (hex : .hexEscapes ∈ o.dialect.features) (b : ByteString) :
    let stop : Position := ⟨1, 0, (Utf16.encode b.quoted).length⟩
    ofText o b.quoted = ⟨[⟨.string b, {}, stop⟩], [], none, stop⟩ := by
  intro stop
  have units : Utf16.encode b.quoted = spellingUnits b.quoted :=
    Utf16.encode_of_ascii fun c member => (ByteString.printable_quoted member).2
  have stopped : Position.advance {} (spellingUnits b.quoted) = stop := by
    rw [Position.advance_of_unbroken _ (isBreak_quoted b), ← units]
    simp only [stop, Position.shift, Nat.zero_add]
  have run : ofText o b.quoted = ofUnits o (spellingUnits b.quoted) := congrArg (ofUnits o) units
  rw [run, ofUnits_eq, trace_quoted hex]
  simp only [Trace.tokens, Trace.comments, Trace.failure, Trace.position, Piece.token?, Piece.comment?,
    Piece.stop, List.filterMap_cons, List.filterMap_nil, ite_self, Option.map_none, Option.getD_none,
    stopped]

/-- The rendering of a byte string is a literal for it, wherever there are hexadecimal escapes.
    So no two byte strings have the same rendering. -/
theorem quoted_roundTrip :
    (∀ (o : Options) (b : ByteString), .hexEscapes ∈ o.dialect.features →
        let stop : Position := ⟨1, 0, (Utf16.encode b.quoted).length⟩
        ofText o b.quoted = ⟨[⟨.string b, {}, stop⟩], [], none, stop⟩)
      ∧ Function.Injective ByteString.quoted := by
  refine ⟨fun o b hex => ofText_quoted hex b, ?_⟩
  intro a b same
  have hex : .hexEscapes ∈ ({ version := .lua52 } : Options).dialect.features := by decide
  have one := congrArg Run.tokens (ofText_quoted hex a)
  have other := congrArg Run.tokens (ofText_quoted hex b)
  rw [same, other] at one
  simp only [List.cons.injEq, Token.mk.injEq, Token.Kind.string.injEq] at one
  exact one.1.1.symm

/-- A quote, a byte that is no character, a digit and a backslash. -/
theorem quoted_roundTrip_bytes :
    let o : Options := { version := .lua53 }
    let b : ByteString := [0x22, 0xFF, 0x31, 0x5C]
    .hexEscapes ∈ o.dialect.features ∧ b.quoted = "\"\\\"\\xff1\\\\\""
      ∧ ofText o b.quoted = ⟨[⟨.string b, {}, ⟨1, 0, 11⟩⟩], [], none, ⟨1, 0, 11⟩⟩
      ∧ ∀ c : ByteString, c.quoted = b.quoted → c = b := by
  intro o b
  have hex : .hexEscapes ∈ o.dialect.features := by decide
  have length : (Utf16.encode b.quoted).length = 11 := by decide
  have run := quoted_roundTrip.1 o b hex
  simp only [length] at run
  exact ⟨hex, by decide, run, fun c same => quoted_roundTrip.2 same⟩

end Run

end LuaTokens
