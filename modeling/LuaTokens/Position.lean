import LuaTokens.Text.CodeUnit

/-! # Positions

A position is an offset together with the line it lies on. Moving over text keeps
the line current: a line feed, a carriage return, or one of each in either order
is a single line break.
-/

namespace LuaTokens

/-- A place in the source, counted in code units. -/
structure Position where
  /-- Lines count from one. -/
  line : Nat := 1
  /-- The offset at which the line begins. -/
  lineStart : Nat := 0
  offset : Nat := 0
  deriving Repr, DecidableEq, Inhabited

namespace Position

/-- The distance from the beginning of the line. -/
def column (p : Position) : Nat :=
  p.offset - p.lineStart

/-- Move `count` units further on the same line. -/
def shift (p : Position) (count : Nat) : Position :=
  ⟨p.line, p.lineStart, p.offset + count⟩

/-- Move over a line break of `width` units. -/
def breakLine (p : Position) (width : Nat) : Position :=
  ⟨p.line + 1, p.offset + width, p.offset + width⟩

/-- Move over `text`. -/
def advance (p : Position) : List CodeUnit → Position
  | [] => p
  | [u] => if u.isBreak then p.breakLine 1 else p.shift 1
  | u :: v :: rest =>
      if u.isBreak then
        if v.isBreak && v != u then (p.breakLine 2).advance rest
        else (p.breakLine 1).advance (v :: rest)
      else (p.shift 1).advance (v :: rest)

end Position

end LuaTokens
