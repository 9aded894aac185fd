import LuaTokens.Diagnostic

/-! # Cuts

A reader takes one construct off the front of the remaining units. It knows
nothing of positions: what it returns is the value, the text it took and what is
left, and in case of failure how the text splits into what was read without fault
and the offending part.
-/

namespace LuaTokens

/-- One construct taken off the front of the remaining units. -/
structure Cut (α : Type) where
  value : α
  text : List CodeUnit
  rest : List CodeUnit
  deriving Repr, DecidableEq

namespace Cut

/-- The text and the rest make up `input`, and the text is not empty. -/
structure Splits {α : Type} (cut : Cut α) (input : List CodeUnit) : Prop where
  text_append_rest : cut.text ++ cut.rest = input
  text_ne_nil : cut.text ≠ []

/-- Cut a known number of units. -/
def ofWidth {α : Type} (width : Nat) (input : List CodeUnit) (value : α) : Cut α :=
  ⟨value, input.take width, input.drop width⟩

/-- Cut the longest beginning whose units satisfy `p`. -/
def ofRun {α : Type} (p : CodeUnit → Bool) (input : List CodeUnit) (value : α) : Cut α :=
  ⟨value, input.takeWhile p, input.dropWhile p⟩

def map {α β : Type} (f : α → β) (cut : Cut α) : Cut β :=
  ⟨f cut.value, cut.text, cut.rest⟩

variable {α β : Type}

theorem Splits.length_rest_lt {cut : Cut α} {input : List CodeUnit} (h : cut.Splits input) :
    cut.rest.length < input.length := by
  have nonempty := List.length_pos_iff.2 h.text_ne_nil
  rw [← h.text_append_rest, List.length_append]
  omega

theorem Splits.map {cut : Cut α} {input : List CodeUnit} (h : cut.Splits input) (f : α → β) :
    (cut.map f).Splits input :=
  ⟨h.text_append_rest, h.text_ne_nil⟩

theorem ofWidth_splits {width : Nat} {input : List CodeUnit} {value : α} (positive : 0 < width)
    (nonempty : input ≠ []) : (Cut.ofWidth width input value).Splits input := by
  refine ⟨List.take_append_drop width input, ?_⟩
  simp [Cut.ofWidth, nonempty]
  omega

theorem ofRun_splits {p : CodeUnit → Bool} {u : CodeUnit} {rest : List CodeUnit} {value : α}
    (first : p u = true) : (Cut.ofRun p (u :: rest) value).Splits (u :: rest) := by
  refine ⟨List.takeWhile_append_dropWhile, ?_⟩
  simp [Cut.ofRun, first]

end Cut

/-- A failure to read a construct. -/
structure Misreading where
  fault : Fault
  /-- The text of the construct before the offending part. -/
  lead : List CodeUnit
  /-- The offending part. -/
  culprit : List CodeUnit
  deriving Repr, DecidableEq

end LuaTokens
