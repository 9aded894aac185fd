import LuaTokens.Proofs.Trace
import Mathlib.Data.List.Basic

/-! # Changing the origin

Positions in a text count from where the text begins. When the text stands behind
another one, offsets and lines are counted on from there, and only on the first line of
the text does the line begin in what stands before. Reading uses positions in no other
way, so a trace with another origin is the same trace placed there.
-/

namespace LuaTokens

namespace Position

/-- The position in a text that begins at `origin`. -/
def placedAt (p origin : Position) : Position :=
  ⟨p.line + (origin.line - 1), if p.line = 1 then origin.lineStart else p.lineStart + origin.offset,
    p.offset + origin.offset⟩

variable {p origin : Position}

theorem placedAt_start (counted : 1 ≤ origin.line) : Position.placedAt {} origin = origin := by
  simp only [placedAt, if_true, Nat.zero_add]
  rw [Nat.add_sub_cancel' counted]

theorem placedAt_shift (p origin : Position) (count : Nat) :
    (p.placedAt origin).shift count = (p.shift count).placedAt origin :=
  congrArg (mk _ _) (Nat.add_right_comm p.offset origin.offset count)

theorem placedAt_breakLine (counted : 1 ≤ p.line) (origin : Position) (width : Nat) :
    (p.placedAt origin).breakLine width = (p.breakLine width).placedAt origin := by
  have later : ¬ (p.breakLine width).line = 1 := by
    simp only [breakLine]
    omega
  rw [placedAt, placedAt, if_neg later]
  simp only [breakLine, Nat.add_right_comm]

theorem placedAt_advance (counted : 1 ≤ p.line) (origin : Position) (text : List CodeUnit) :
    (p.placedAt origin).advance text = (p.advance text).placedAt origin := by
  induction p, text using advance.induct with
  | case1 p => simp only [advance]
  | case2 p u broken => simp only [advance, broken, if_true, placedAt_breakLine counted]
  | case3 p u unbroken => simp only [advance, unbroken, if_false, Bool.false_eq_true, placedAt_shift]
  | case4 p u v rest broken paired ih =>
      simp only [advance, broken, paired, if_true, placedAt_breakLine counted]
      exact ih (Nat.le_add_left 1 p.line)
  | case5 p u v rest broken unpaired ih =>
      simp only [advance, broken, unpaired, if_true, if_false, Bool.false_eq_true,
        placedAt_breakLine counted]
      exact ih (Nat.le_add_left 1 p.line)
  | case6 p u v rest unbroken ih =>
      simp only [advance, unbroken, if_false, Bool.false_eq_true, placedAt_shift]
      exact ih counted

theorem line_le_advance (p : Position) (text : List CodeUnit) : p.line ≤ (p.advance text).line := by
  induction p, text using advance.induct with
  | case1 p => exact Nat.le_refl _
  | case2 p u broken => simp [advance, broken, breakLine]
  | case3 p u unbroken => simp [advance, unbroken, shift]
  | case4 p u v rest broken paired ih =>
      simp only [advance, broken, paired, if_true]
      exact Nat.le_trans (Nat.le_succ p.line) ih
  | case5 p u v rest broken unpaired ih =>
      simp only [advance, broken, unpaired, if_true, if_false, Bool.false_eq_true]
      exact Nat.le_trans (Nat.le_succ p.line) ih
  | case6 p u v rest unbroken ih =>
      simp only [advance, unbroken, if_false, Bool.false_eq_true]
      exact ih

end Position

def Token.placedAt (t : Token) (origin : Position) : Token :=
  { t with start := t.start.placedAt origin, stop := t.stop.placedAt origin }

def Comment.placedAt (c : Comment) (origin : Position) : Comment :=
  { c with start := c.start.placedAt origin, stop := c.stop.placedAt origin }

def Diagnostic.placedAt (d : Diagnostic) (origin : Position) : Diagnostic :=
  { d with start := d.start.placedAt origin, stop := d.stop.placedAt origin }

/-- The run over a text that begins at `origin`. -/
def Run.placedAt (r : Run) (origin : Position) : Run :=
  ⟨r.tokens.map (·.placedAt origin), r.comments.map (·.placedAt origin),
    r.failure.map (·.placedAt origin), r.position.placedAt origin⟩

def Piece.placedAt (piece : Piece) (origin : Position) : Piece :=
  { piece with start := piece.start.placedAt origin }

def Trace.placedAt (t : Trace) (origin : Position) : Trace :=
  { t with pieces := t.pieces.map (·.placedAt origin), stop := t.stop.placedAt origin }

theorem Misreading.stop_placedAt (m : Misreading) {p : Position} (counted : 1 ≤ p.line)
    (origin : Position) : m.stop (p.placedAt origin) = (m.stop p).placedAt origin := by
  unfold stop
  split
  · exact Position.placedAt_shift p origin _
  · exact Position.placedAt_advance counted origin _

theorem Misreading.diagnose_placedAt (m : Misreading) (chunk : Option String) {p : Position}
    (counted : 1 ≤ p.line) (origin : Position) :
    m.diagnose chunk (p.placedAt origin) = (m.diagnose chunk p).placedAt origin := by
  have later : 1 ≤ (p.advance m.lead).line := Nat.le_trans counted (p.line_le_advance m.lead)
  simp only [diagnose, Position.placedAt_advance counted, m.stop_placedAt later,
    Diagnostic.placedAt]

namespace Piece

variable {piece : Piece} {origin : Position}

theorem stop_placedAt (counted : 1 ≤ piece.start.line) (origin : Position) :
    (piece.placedAt origin).stop = piece.stop.placedAt origin :=
  Position.placedAt_advance counted origin piece.text

theorem token?_placedAt (counted : 1 ≤ piece.start.line) :
    (piece.placedAt origin).token? = piece.token?.map (·.placedAt origin) := by
  have stop := stop_placedAt counted origin
  unfold token?
  cases same : piece.value <;> simp [placedAt, same, Token.placedAt] at stop ⊢
  exact stop

theorem comment?_placedAt (counted : 1 ≤ piece.start.line) :
    (piece.placedAt origin).comment? = piece.comment?.map (·.placedAt origin) := by
  have stop := stop_placedAt counted origin
  unfold comment?
  cases same : piece.value <;> simp [placedAt, same, Comment.placedAt] at stop ⊢
  exact stop

end Piece

namespace Trace

variable {g : Grammar} {p origin : Position} {input : List CodeUnit}

/-- Reading from another origin gives the same trace, placed there. -/
theorem of_placedAt (g : Grammar) (counted : 1 ≤ p.line) (origin : Position) (input : List CodeUnit) :
    of g (p.placedAt origin) input = (of g p input).placedAt origin := by
  induction p, input using of.induct g with
  | case1 p input h => rw [of_finished h, of_finished h]; rfl
  | case2 p input m h => rw [of_failed h, of_failed h]; rfl
  | case3 p input cut h ih =>
      have later := ih (Nat.le_trans counted (p.line_le_advance cut.text))
      rw [of_read h, of_read h, Position.placedAt_advance counted, later]
      rfl

theorem counted_of_mem (counted : 1 ≤ p.line) :
    ∀ piece ∈ (of g p input).pieces, 1 ≤ piece.start.line := by
  induction p, input using of.induct g with
  | case1 p input h => simp [of_finished h]
  | case2 p input m h => simp [of_failed h]
  | case3 p input cut h ih =>
      rw [of_read h]
      intro piece member
      rcases List.mem_cons.1 member with rfl | later
      · exact counted
      · exact ih (Nat.le_trans counted (p.line_le_advance cut.text)) piece later

theorem counted_stop (counted : 1 ≤ p.line) : 1 ≤ (of g p input).stop.line := by
  induction p, input using of.induct g with
  | case1 p input h => rwa [of_finished h]
  | case2 p input m h => rwa [of_failed h]
  | case3 p input cut h ih =>
      rw [of_read h]
      exact ih (Nat.le_trans counted (p.line_le_advance cut.text))

theorem filterMap_placedAt {α : Type} {select : Piece → Option α} {place : α → α}
    {pieces : List Piece} (counted : ∀ piece ∈ pieces, 1 ≤ piece.start.line)
    (same : ∀ piece : Piece, 1 ≤ piece.start.line →
      select (piece.placedAt origin) = (select piece).map place) :
    (pieces.map (·.placedAt origin)).filterMap select = (pieces.filterMap select).map place := by
  rw [List.filterMap_map, List.map_filterMap]
  apply List.filterMap_congr
  intro piece member
  exact same piece (counted piece member)

theorem tokens_placedAt (counted : 1 ≤ p.line) :
    ((of g p input).placedAt origin).tokens = (of g p input).tokens.map (·.placedAt origin) :=
  filterMap_placedAt (counted_of_mem counted) fun _ => Piece.token?_placedAt

theorem comments_placedAt (counted : 1 ≤ p.line) :
    ((of g p input).placedAt origin).comments = (of g p input).comments.map (·.placedAt origin) :=
  filterMap_placedAt (counted_of_mem counted) fun _ => Piece.comment?_placedAt

theorem failure_placedAt (counted : 1 ≤ p.line) (chunk : Option String) :
    ((of g p input).placedAt origin).failure chunk
      = ((of g p input).failure chunk).map (·.placedAt origin) := by
  simp only [failure, placedAt]
  cases (of g p input).misreading with
  | none => rfl
  | some m => exact congrArg some (m.diagnose_placedAt chunk (counted_stop counted) origin)

theorem position_placedAt (counted : 1 ≤ p.line) :
    ((of g p input).placedAt origin).position = (of g p input).position.placedAt origin := by
  have stopped : 1 ≤ (of g p input).stop.line := counted_stop counted
  simp only [position, placedAt]
  cases (of g p input).misreading with
  | none => rfl
  | some m =>
      have later := Nat.le_trans stopped ((of g p input).stop.line_le_advance m.lead)
      simp only [Option.map_some, Option.getD_some, Position.placedAt_advance stopped,
        m.stop_placedAt later]

end Trace

end LuaTokens
