import LuaTokens.Proofs.Lexeme.Seam
import LuaTokens.Proofs.Text.Follow
import LuaTokens.Proofs.Trace

/-! # Places

Reading divides a source into what is behind it and what is ahead. A place is such a
division at a seam together with the position that reading has reached there. One
lexeme leads from a place to the next, so all lexemes of a trace lie between places.
-/

namespace LuaTokens

/-- The source divided at a seam, and the position where its parts meet. -/
structure Place (source before after : List CodeUnit) (position : Position) : Prop where
  append_eq : before ++ after = source
  seam : Seam before after
  position_eq : position = Position.advance {} before

namespace Place

variable {source before after text : List CodeUnit} {p : Position} {g : Grammar}

theorem nil (source : List CodeUnit) : Place source [] source {} :=
  ⟨rfl, Seam.nil_left source, rfl⟩

theorem step (h : Place source before (text ++ after) p) (seam : Seam text after) :
    Place source (before ++ text) after (p.advance text) := by
  refine ⟨?_, h.seam.append seam, ?_⟩
  · rw [← h.append_eq, List.append_assoc]
  · rw [h.position_eq, Position.advance_append _ h.seam.of_append]

theorem offset_eq (h : Place source before after p) : p.offset = before.length := by
  rw [h.position_eq, Position.offset_advance]
  exact Nat.zero_add _

theorem drop_eq (h : Place source before after p) : source.drop p.offset = after := by
  rw [h.offset_eq, ← h.append_eq, List.drop_left]

theorem offset_le (h : Place source before after p) : p.offset ≤ source.length := by
  rw [h.offset_eq, ← h.append_eq, List.length_append]
  omega

/-- Counting the line breaks of the whole source gives the position of a place. -/
theorem positionAt_eq (h : Place source before after p) : p = positionAt source p.offset := by
  have counted := positionAt_append h.seam
  rw [h.append_eq, ← h.offset_eq, ← h.position_eq] at counted
  exact counted.symm

theorem not_insideBreak (h : Place source before after p) : ¬ InsideBreak source p.offset := by
  have outside := not_insideBreak_append h.seam
  rwa [h.append_eq, ← h.offset_eq] at outside

theorem read (h : Place source before (text ++ after) p) {value : Lexeme}
    (read : Lexeme.read g (text ++ after) = .read ⟨value, text, after⟩) :
    Place source (before ++ text) after (p.advance text) :=
  h.step (Lexeme.seam_of_read read)

theorem lead {m : Misreading} (h : Place source before after p) (splits : m.Splits after) :
    ∃ rest, Place source (before ++ m.lead) (m.culprit ++ rest) (p.advance m.lead) := by
  obtain ⟨rest, rfl⟩ := splits.lead_culprit
  exact ⟨rest, h.step (splits.seam rest)⟩

end Place

/-- The piece is what reading finds at a place of the source. -/
structure Piece.ReadAt (g : Grammar) (source : List CodeUnit) (piece : Piece)
    (before after : List CodeUnit) : Prop where
  place : Place source before (piece.text ++ after) piece.start
  read : Lexeme.read g (piece.text ++ after) = .read ⟨piece.value, piece.text, after⟩

namespace Piece.ReadAt

variable {g : Grammar} {source before after : List CodeUnit} {piece : Piece}

theorem text_ne_nil (h : piece.ReadAt g source before after) : piece.text ≠ [] :=
  (Lexeme.splits_of_read h.read).text_ne_nil

theorem stop (h : piece.ReadAt g source before after) :
    Place source (before ++ piece.text) after piece.stop :=
  h.place.read h.read

end Piece.ReadAt

namespace Trace

variable {g : Grammar} {source before input : List CodeUnit} {p : Position}

theorem readAt_of_read (place : Place source before input p) {cut : Cut Lexeme}
    (h : Lexeme.read g input = .read cut) :
    (Piece.mk cut.value cut.text p).ReadAt g source before cut.rest := by
  have splits := Lexeme.splits_of_read h
  constructor
  · rwa [splits.text_append_rest]
  · rwa [splits.text_append_rest]

theorem readAt_of_mem (place : Place source before input p) :
    ∀ piece ∈ (of g p input).pieces, ∃ before after, piece.ReadAt g source before after := by
  fun_induction of g p input generalizing before with
  | case1 | case2 =>
      intro piece member
      cases member
  | case3 p input cut h ih =>
      have readAt := readAt_of_read place h
      intro piece member
      rcases List.mem_cons.1 member with rfl | later
      · exact ⟨_, _, readAt⟩
      · exact ih readAt.stop piece later

theorem place_stop (place : Place source before input p) :
    ∃ before, Place source before (of g p input).ahead (of g p input).stop := by
  fun_induction of g p input generalizing before with
  | case1 => exact ⟨before, place⟩
  | case2 => exact ⟨before, place⟩
  | case3 p input cut h ih => exact ih (readAt_of_read place h).stop

theorem offset_le_of_mem (g : Grammar) (p : Position) (input : List CodeUnit) :
    ∀ piece ∈ (of g p input).pieces,
      p.offset ≤ piece.start.offset ∧ piece.start.offset < piece.stop.offset := by
  induction p, input using of.induct g with
  | case1 p input h => simp [of_finished h]
  | case2 p input m h => simp [of_failed h]
  | case3 p input cut h ih =>
      have positive := List.length_pos_iff.2 (Lexeme.splits_of_read h).text_ne_nil
      rw [of_read h]
      intro piece member
      rcases List.mem_cons.1 member with rfl | later
      · simp only [Piece.stop, Position.offset_advance]
        omega
      · have := ih piece later
        rw [Position.offset_advance] at this
        omega

theorem offset_le_stop (g : Grammar) (p : Position) (input : List CodeUnit) :
    p.offset ≤ (of g p input).stop.offset := by
  induction p, input using of.induct g with
  | case1 p input h => simp [of_finished h]
  | case2 p input m h => simp [of_failed h]
  | case3 p input cut h ih =>
      rw [Position.offset_advance] at ih
      rw [of_read h]
      exact Nat.le_trans (Nat.le_add_right _ _) ih

theorem pieces_ordered (g : Grammar) (p : Position) (input : List CodeUnit) :
    (of g p input).pieces.Pairwise (fun a b => a.stop.offset ≤ b.start.offset) := by
  induction p, input using of.induct g with
  | case1 p input h => simp [of_finished h]
  | case2 p input m h => simp [of_failed h]
  | case3 p input cut h ih =>
      rw [of_read h]
      refine List.pairwise_cons.2 ⟨fun piece later => ?_, ih⟩
      exact (offset_le_of_mem g _ _ piece later).1

theorem read_ahead (g : Grammar) (p : Position) (input : List CodeUnit) :
    Lexeme.read g (of g p input).ahead
      = ((of g p input).misreading.map Lexeme.Reading.failed).getD .finished := by
  fun_induction of g p input with
  | case1 _ _ h => exact h
  | case2 _ _ _ h => exact h
  | case3 _ _ _ _ ih => exact ih

theorem failed_ahead {m : Misreading} (h : (of g p input).misreading = some m) :
    Lexeme.read g (of g p input).ahead = .failed m := by
  rw [read_ahead, h]
  rfl

theorem ahead_eq_nil (h : (of g p input).misreading = none) : (of g p input).ahead = [] := by
  have finished := read_ahead g p input
  rw [h] at finished
  exact Lexeme.eq_nil_of_finished finished

end Trace

namespace Session

/-- What is skipped of a source as the mark of a script. -/
def skipped (o : Options) (source : List CodeUnit) : List CodeUnit :=
  if o.ignoreShebang then shebang source else []

theorem shebang_append (source : List CodeUnit) :
    shebang source ++ source.drop (shebang source).length = source := by
  unfold shebang
  split
  · rw [← List.prefix_iff_eq_append]
    exact List.takeWhile_prefix _
  · rfl

theorem isBreak_shebang (source : List CodeUnit) : ∀ u ∈ shebang source, u.isBreak = false := by
  intro u member
  unfold shebang at member
  split at member
  · simpa using List.mem_takeWhile_imp member
  · cases member

theorem shebang_of_marked {source : List CodeUnit} (marked : spellingUnits "#!" <+: source) :
    shebang source = source.takeWhile (!·.isBreak) :=
  if_pos (List.isPrefixOf_iff_prefix.2 marked)

theorem shebang_of_unmarked {source : List CodeUnit} (unmarked : ¬ spellingUnits "#!" <+: source) :
    shebang source = [] :=
  if_neg fun marked => unmarked (List.isPrefixOf_iff_prefix.1 marked)

theorem stops_drop_shebang {source : List CodeUnit} (marked : spellingUnits "#!" <+: source) :
    Stops (!·.isBreak) (source.drop (shebang source).length) := by
  rw [shebang_of_marked marked, drop_length_takeWhile]
  exact stops_dropWhile source

theorem shebang_append_of_stops {source other : List CodeUnit}
    (marked : spellingUnits "#!" <+: source) (stops : Stops (!·.isBreak) other) :
    shebang (shebang source ++ other) = shebang source := by
  have unbroken : ∀ u ∈ shebang source, (!u.isBreak) = true := by
    intro u member
    rw [isBreak_shebang source u member]
    rfl
  have still : spellingUnits "#!" <+: shebang source ++ other := by
    obtain ⟨line, rfl⟩ := marked
    exact ⟨line.takeWhile (!·.isBreak) ++ other, rfl⟩
  rw [shebang_of_marked still]
  exact stops.takeWhile_append unbroken

theorem place_start (o : Options) (source : List CodeUnit) :
    Place source (skipped o source) (start o source).ahead (start o source).position := by
  have whole := shebang_append source
  have solid := isBreak_shebang source
  simp only [start, skipped]
  split
  · exact ⟨whole, Seam.of_forall solid _, rfl⟩
  · exact Place.nil source

theorem skipped_append_drop (o : Options) (source : List CodeUnit) :
    skipped o source ++ source.drop (skipped o source).length = source :=
  (place_start o source).append_eq

end Session

namespace Run

variable {o : Options} {source : List CodeUnit}

theorem trace_eq (o : Options) (source : List CodeUnit) :
    trace o source = .of o.grammar (Position.advance {} (Session.skipped o source))
      (source.drop (Session.skipped o source).length) :=
  rfl

theorem readAt_of_mem_trace {piece : Piece} (member : piece ∈ (trace o source).pieces) :
    ∃ before after, piece.ReadAt o.grammar source before after :=
  Trace.readAt_of_mem (Session.place_start o source) piece member

theorem place_stop (o : Options) (source : List CodeUnit) :
    ∃ before, Place source before (trace o source).ahead (trace o source).stop :=
  Trace.place_stop (Session.place_start o source)

end Run

end LuaTokens
