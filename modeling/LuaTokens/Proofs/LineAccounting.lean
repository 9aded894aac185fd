import LuaTokens.Proofs.Place

/-! # Line accounting

Reading moves the line along with the offset. At both ends of every token and every
comment, and at the start of a failure, the line is the one that counting the line
breaks of the whole source gives, and none of these offsets divides a line break.
-/

namespace LuaTokens

/-- The line of the position is the one that counting line breaks gives for its offset,
    and the offset does not divide a line break. -/
structure Position.Exact (source : List CodeUnit) (p : Position) : Prop where
  eq_positionAt : p = positionAt source p.offset
  not_insideBreak : ¬ InsideBreak source p.offset

theorem Place.exact {source before after : List CodeUnit} {p : Position}
    (h : Place source before after p) : p.Exact source :=
  ⟨h.positionAt_eq, h.not_insideBreak⟩

section Pieces

variable {g : Grammar} {source before after : List CodeUnit} {piece : Piece}

theorem Piece.ReadAt.exact_token (h : piece.ReadAt g source before after) {t : Token}
    (token : piece.token? = some t) : t.start.Exact source ∧ t.stop.Exact source := by
  unfold Piece.token? at token
  split at token
  · cases token
    exact ⟨h.place.exact, h.stop.exact⟩
  · cases token

theorem Piece.ReadAt.exact_comment (h : piece.ReadAt g source before after) {c : Comment}
    (comment : piece.comment? = some c) : c.start.Exact source ∧ c.stop.Exact source := by
  unfold Piece.comment? at comment
  split at comment
  · cases comment
    exact ⟨h.place.exact, h.stop.exact⟩
  · cases comment

end Pieces

namespace Run

variable {o : Options} {source : List CodeUnit}

theorem exact_of_mem_tokens {t : Token} (member : t ∈ (ofUnits o source).tokens) :
    t.start.Exact source ∧ t.stop.Exact source := by
  rw [ofUnits_eq] at member
  obtain ⟨piece, inTrace, token⟩ := List.mem_filterMap.1 member
  obtain ⟨_, _, readAt⟩ := readAt_of_mem_trace inTrace
  exact readAt.exact_token token

theorem exact_of_mem_comments {c : Comment} (member : c ∈ (ofUnits o source).comments) :
    c.start.Exact source ∧ c.stop.Exact source := by
  rw [ofUnits_eq] at member
  simp only at member
  split at member
  · obtain ⟨piece, inTrace, comment⟩ := List.mem_filterMap.1 member
    obtain ⟨_, _, readAt⟩ := readAt_of_mem_trace inTrace
    exact readAt.exact_comment comment
  · cases member

theorem exact_of_failure {d : Diagnostic} (failed : (ofUnits o source).failure = some d) :
    d.start.Exact source := by
  rw [ofUnits_eq] at failed
  obtain ⟨m, misread, rfl⟩ := Option.map_eq_some_iff.1 failed
  obtain ⟨_, stopped⟩ := place_stop o source
  obtain ⟨_, behind⟩ := stopped.lead (Lexeme.splits_of_failed (Trace.failed_ahead misread))
  exact behind.exact

/-- The lines of a run are those that counting the line breaks of its source gives. -/
theorem line_accounting (o : Options) (source : List CodeUnit) :
    (∀ t ∈ (ofUnits o source).tokens,
        t.start.Exact source ∧ ¬ InsideBreak source t.stop.offset
          ∧ t.closing? = if t.kind.isString then some (positionAt source t.stop.offset) else none)
      ∧ (∀ c ∈ (ofUnits o source).comments, c.start.Exact source ∧ c.stop.Exact source)
      ∧ ∀ d ∈ (ofUnits o source).failure, d.start.Exact source := by
  refine ⟨?_, fun c => exact_of_mem_comments, fun d => exact_of_failure⟩
  intro t member
  obtain ⟨start, stop⟩ := exact_of_mem_tokens member
  refine ⟨start, stop.not_insideBreak, ?_⟩
  rw [← stop.eq_positionAt]
  rfl

end Run

end LuaTokens
