import LuaTokens.Proofs.Place

/-! # Parts

The tokens and the comments of a run are its parts. A run holds them in two lists, and
merging these by their starts gives back the order of the source.
-/

namespace LuaTokens

/-- What a run delivers of a source without failure. -/
inductive Part where
  | token (t : Token)
  | comment (c : Comment)
  deriving Repr, DecidableEq

namespace Part

def start : Part → Position
  | token t => t.start
  | comment c => c.start

def stop : Part → Position
  | token t => t.stop
  | comment c => c.stop

def slice (source : List CodeUnit) (p : Part) : List CodeUnit :=
  (source.drop p.start.offset).take (p.stop.offset - p.start.offset)

def token? : Part → Option Token
  | token t => some t
  | comment _ => none

def comment? : Part → Option Comment
  | token _ => none
  | comment c => some c

def startsFirst (a b : Part) : Bool :=
  a.start.offset ≤ b.start.offset

end Part

namespace Piece

def part? (p : Piece) : Option Part :=
  match p.value with
  | .space => none
  | .comment body => some (.comment ⟨.ofUnits body, Utf16.lossy p.text, p.start, p.stop⟩)
  | .token kind => some (.token ⟨kind, p.start, p.stop⟩)

theorem part?_token? (p : Piece) : p.part?.bind Part.token? = p.token? := by
  unfold part? token?
  cases p.value <;> rfl

theorem part?_comment? (p : Piece) : p.part?.bind Part.comment? = p.comment? := by
  unfold part? comment?
  cases p.value <;> rfl

theorem part?_eq_none {p : Piece} (h : p.part? = none) : p.value = .space := by
  unfold part? at h
  cases same : p.value with
  | space => rfl
  | comment body => rw [same] at h; cases h
  | token kind => rw [same] at h; cases h

theorem start_of_part? {p : Piece} {part : Part} (h : p.part? = some part) :
    part.start = p.start := by
  unfold part? at h
  cases same : p.value <;> rw [same] at h <;> cases h <;> rfl

theorem stop_of_part? {p : Piece} {part : Part} (h : p.part? = some part) :
    part.stop = p.stop := by
  unfold part? at h
  cases same : p.value <;> rw [same] at h <;> cases h <;> rfl

theorem ReadAt.slice_eq {g : Grammar} {source before after : List CodeUnit} {p : Piece} {part : Part}
    (readAt : p.ReadAt g source before after) (found : p.part? = some part) :
    part.slice source = p.text := by
  rw [Part.slice, start_of_part? found, stop_of_part? found, readAt.place.drop_eq, Piece.stop,
    Position.offset_advance, Nat.add_sub_cancel_left, List.take_left]

end Piece

namespace Trace

def parts (t : Trace) : List Part :=
  t.pieces.filterMap Piece.part?

theorem filterMap_token?_parts (t : Trace) : t.parts.filterMap Part.token? = t.tokens := by
  rw [parts, List.filterMap_filterMap, tokens]
  exact congrArg (t.pieces.filterMap ·) (funext Piece.part?_token?)

theorem filterMap_comment?_parts (t : Trace) : t.parts.filterMap Part.comment? = t.comments := by
  rw [parts, List.filterMap_filterMap, comments]
  exact congrArg (t.pieces.filterMap ·) (funext Piece.part?_comment?)

theorem parts_cons_of_none {p : Piece} (h : p.part? = none) (t : Trace) :
    (t.cons p).parts = t.parts := by
  simp [parts, cons, h]

theorem parts_cons_of_some {p : Piece} {part : Part} (h : p.part? = some part) (t : Trace) :
    (t.cons p).parts = part :: t.parts := by
  simp [parts, cons, h]

end Trace

/-- The tokens and comments of a run in the order of their starts. -/
def Run.parts (r : Run) : List Part :=
  (r.tokens.map .token).merge (r.comments.map .comment) Part.startsFirst

private theorem merge_cons_left {le : Part → Part → Bool} {a : Part} {as bs : List Part}
    (h : ∀ b ∈ bs, le a b = true) : (a :: as).merge bs le = a :: as.merge bs le := by
  cases bs with
  | nil => simp
  | cons b bs => exact List.cons_merge_cons_pos le as bs (h b List.mem_cons_self)

private theorem merge_cons_right {le : Part → Part → Bool} {b : Part} {as bs : List Part}
    (h : ∀ a ∈ as, ¬ le a b = true) : as.merge (b :: bs) le = b :: as.merge bs le := by
  cases as with
  | nil => simp
  | cons a as => exact List.cons_merge_cons_neg le as bs (h a List.mem_cons_self)

theorem merge_parts {parts : List Part}
    (ordered : parts.Pairwise (fun a b => a.start.offset < b.start.offset)) :
    ((parts.filterMap Part.token?).map Part.token).merge
      ((parts.filterMap Part.comment?).map Part.comment) Part.startsFirst = parts := by
  induction parts with
  | nil => simp
  | cons part rest ih =>
      obtain ⟨first, later⟩ := List.pairwise_cons.1 ordered
      have merged := ih later
      cases part with
      | token t =>
          rw [List.filterMap_cons_some (show Part.token? (.token t) = some t from rfl),
            List.filterMap_cons_none (show Part.comment? (.token t) = none from rfl),
            List.map_cons, merge_cons_left, merged]
          intro part member
          have inRest : part ∈ rest := by
            rw [← merged]
            exact List.mem_merge_right _ member
          exact decide_eq_true (Nat.le_of_lt (first part inRest))
      | comment c =>
          rw [List.filterMap_cons_none (show Part.token? (.comment c) = none from rfl),
            List.filterMap_cons_some (show Part.comment? (.comment c) = some c from rfl),
            List.map_cons, merge_cons_right, merged]
          intro part member leads
          have inRest : part ∈ rest := by
            rw [← merged]
            exact List.mem_merge_left _ member
          exact absurd (first part inRest) (Nat.not_lt.2 (of_decide_eq_true leads))

end LuaTokens
