import LuaTokens.Proofs.Part

/-! # Coverage

The parts of a run lie in the source one behind the other, and what is outside of them
is white space. If the run fails, this holds up to where the failing lexeme begins.
-/

namespace LuaTokens

/-- The parts lie apart and in order between the two offsets, and the units between
    them are white space. -/
structure Covers (source : List CodeUnit) (first last : Nat) (parts : List Part) : Prop where
  first_le_last : first ≤ last
  nonempty : ∀ a ∈ parts, a.start.offset < a.stop.offset
  within : ∀ a ∈ parts, first ≤ a.start.offset ∧ a.stop.offset ≤ last
  ordered : parts.Pairwise (fun a b => a.stop.offset ≤ b.start.offset)
  blank : ∀ i u, first ≤ i → i < last → source[i]? = some u →
    (∀ a ∈ parts, ¬ (a.start.offset ≤ i ∧ i < a.stop.offset)) → u ∈ CodeUnit.spaces

namespace Covers

variable {source : List CodeUnit} {first middle last : Nat} {parts : List Part}

theorem nil (source : List CodeUnit) (offset : Nat) : Covers source offset offset [] := by
  refine ⟨Nat.le_refl _, ?_, ?_, .nil, ?_⟩
  · intro a member
    cases member
  · intro a member
    cases member
  · intro i u from_first below
    omega

theorem skip (h : Covers source middle last parts) (le : first ≤ middle)
    (spaces : ∀ i u, first ≤ i → i < middle → source[i]? = some u → u ∈ CodeUnit.spaces) :
    Covers source first last parts := by
  refine ⟨Nat.le_trans le h.first_le_last, h.nonempty, ?_, h.ordered, ?_⟩
  · intro a member
    exact ⟨Nat.le_trans le (h.within a member).1, (h.within a member).2⟩
  · intro i u from_first below found outside
    by_cases early : i < middle
    · exact spaces i u from_first early found
    · exact h.blank i u (Nat.le_of_not_lt early) below found outside

theorem cons {part : Part} (h : Covers source middle last parts) (start : part.start.offset = first)
    (stop : part.stop.offset = middle) (nonempty : first < middle) :
    Covers source first last (part :: parts) := by
  subst start stop
  refine ⟨?_, ?_, ?_, ?_, ?_⟩
  · exact Nat.le_trans (Nat.le_of_lt nonempty) h.first_le_last
  · intro a member
    rcases List.mem_cons.1 member with rfl | later
    · exact nonempty
    · exact h.nonempty a later
  · intro a member
    rcases List.mem_cons.1 member with rfl | later
    · exact ⟨Nat.le_refl _, h.first_le_last⟩
    · exact ⟨Nat.le_trans (Nat.le_of_lt nonempty) (h.within a later).1, (h.within a later).2⟩
  · exact List.pairwise_cons.2 ⟨fun a later => (h.within a later).1, h.ordered⟩
  · intro i u from_start below found outside
    have behind : part.stop.offset ≤ i := by
      have := outside part List.mem_cons_self
      omega
    exact h.blank i u behind below found fun a later => outside a (List.mem_cons_of_mem _ later)

theorem starts_ordered (h : Covers source first last parts) :
    parts.Pairwise (fun a b => a.start.offset < b.start.offset) := by
  refine h.ordered.imp_of_mem ?_
  intro a b member _ apart
  exact Nat.lt_of_lt_of_le (h.nonempty a member) apart

end Covers

theorem Place.mem_of_getElem? {source before text after : List CodeUnit} {p : Position}
    (h : Place source before (text ++ after) p) {i : Nat} {u : CodeUnit} (from_start : p.offset ≤ i)
    (below : i < p.offset + text.length) (found : source[i]? = some u) : u ∈ text := by
  rw [h.offset_eq] at from_start below
  rw [← h.append_eq, List.getElem?_append_right from_start,
    List.getElem?_append_left (by omega)] at found
  exact List.mem_of_getElem? found

theorem Lexeme.spaces_of_read {g : Grammar} {input : List CodeUnit} {cut : Cut Lexeme}
    (h : read g input = .read cut) (space : cut.value = .space) :
    ∀ u ∈ cut.text, u ∈ CodeUnit.spaces := by
  rcases cases_of_read h with rfl | ⟨line, -, comment⟩ | ⟨kind, token⟩
  · intro u member
    exact CodeUnit.isSpace_iff.1 (List.mem_takeWhile_imp member)
  · rcases cut_of_readComment comment with ⟨inner, -, rfl⟩ | ⟨-, rfl⟩ <;> cases space
  · rw [token] at space
    cases space

namespace Piece.ReadAt

variable {g : Grammar} {source before after : List CodeUnit} {piece : Piece}

theorem start_lt_stop (h : piece.ReadAt g source before after) :
    piece.start.offset < piece.stop.offset := by
  have := List.length_pos_iff.2 h.text_ne_nil
  rw [Piece.stop, Position.offset_advance]
  omega

theorem spaces (h : piece.ReadAt g source before after) (silent : piece.part? = none) {i : Nat}
    {u : CodeUnit} (from_start : piece.start.offset ≤ i) (below : i < piece.stop.offset)
    (found : source[i]? = some u) : u ∈ CodeUnit.spaces := by
  rw [Piece.stop, Position.offset_advance] at below
  exact Lexeme.spaces_of_read h.read (Piece.part?_eq_none silent) u
    (h.place.mem_of_getElem? from_start below found)

end Piece.ReadAt

/-- The parts of a trace cover the text from where it begins to where the trace ends. -/
theorem Trace.covers {g : Grammar} {source before input : List CodeUnit} {p : Position}
    (place : Place source before input p) :
    Covers source p.offset (of g p input).stop.offset (of g p input).parts := by
  fun_induction of g p input generalizing before with
  | case1 p => exact Covers.nil source p.offset
  | case2 p => exact Covers.nil source p.offset
  | case3 p input cut h ih =>
      have readAt := readAt_of_read place h
      have later := ih readAt.stop
      cases found : (Piece.mk cut.value cut.text p).part? with
      | none =>
          rw [parts_cons_of_none found]
          exact later.skip (Nat.le_of_lt readAt.start_lt_stop) fun i u => readAt.spaces found
      | some part =>
          have start := congrArg Position.offset (Piece.start_of_part? found)
          have stop := congrArg Position.offset (Piece.stop_of_part? found)
          rw [parts_cons_of_some found]
          exact later.cons start stop readAt.start_lt_stop

namespace Run

variable {o : Options} {source : List CodeUnit}

theorem covers (o : Options) (source : List CodeUnit) :
    Covers source (Session.skipped o source).length (trace o source).stop.offset
      (trace o source).parts := by
  have start := Session.place_start o source
  have covered := Trace.covers (g := o.grammar) start
  rwa [start.offset_eq] at covered

theorem parts_eq (captured : o.comments = true) (source : List CodeUnit) :
    (ofUnits o source).parts = (trace o source).parts := by
  rw [ofUnits_eq, parts]
  simp only [captured, if_true]
  rw [← Trace.filterMap_token?_parts, ← Trace.filterMap_comment?_parts]
  exact merge_parts (covers o source).starts_ordered

theorem offset_stop_of_finished (h : (trace o source).misreading = none) :
    (trace o source).stop.offset = source.length := by
  obtain ⟨before, stop⟩ := place_stop o source
  have done : (trace o source).ahead = [] := Trace.ahead_eq_nil h
  have whole := stop.append_eq
  rw [done, List.append_nil] at whole
  rw [stop.offset_eq, whole]

theorem read_stop_of_failed {m : Misreading} (h : (trace o source).misreading = some m) :
    Lexeme.read o.grammar (source.drop (trace o source).stop.offset) = .failed m := by
  obtain ⟨before, stop⟩ := place_stop o source
  rw [stop.drop_eq]
  exact Trace.failed_ahead h

/-- Nothing of a source is lost, repeated or moved. The parts of a run cover the source
    behind the mark of a script, and if the run fails they cover it up to a lexeme that
    cannot be read. -/
theorem lossless (o : Options) (source : List CodeUnit) (captured : o.comments = true) :
    let run := ofUnits o source
    run.parts.filterMap Part.token? = run.tokens
      ∧ run.parts.filterMap Part.comment? = run.comments
      ∧ ∃ last ≤ source.length, Covers source (Session.skipped o source).length last run.parts
          ∧ (run.failure = none → last = source.length)
          ∧ ∀ d ∈ run.failure, last ≤ d.start.offset
              ∧ ∃ m, Lexeme.read o.grammar (source.drop last) = .failed m
                  ∧ d = m.diagnose o.chunk (positionAt source last) := by
  intro run
  obtain ⟨before, stop⟩ := place_stop o source
  have parts : run.parts = (trace o source).parts := parts_eq captured source
  have shape : run = ⟨(trace o source).tokens, (trace o source).comments,
      (trace o source).failure o.chunk, (trace o source).position⟩ := by
    simp only [run, ofUnits_eq, captured, if_true]
  rw [parts, shape]
  refine ⟨Trace.filterMap_token?_parts _, Trace.filterMap_comment?_parts _,
    (trace o source).stop.offset, stop.offset_le, covers o source, ?_, ?_⟩
  · intro fine
    exact offset_stop_of_finished (Option.map_eq_none_iff.1 fine)
  · intro d failed
    obtain ⟨m, misread, rfl⟩ := Option.map_eq_some_iff.1 failed
    refine ⟨?_, m, read_stop_of_failed misread, ?_⟩
    · simp only [Misreading.diagnose, Position.offset_advance]
      omega
    · rw [← stop.positionAt_eq]

/-- The mark of a script, a comment, a name and a failure. -/
theorem lossless_script :
    let o : Options := { comments := true, ignoreShebang := true }
    let source := spellingUnits "#!s\n--c\nx $"
    o.comments = true ∧ (Session.skipped o source).length = 3
      ∧ ∃ last ≤ source.length, Covers source 3 last (ofUnits o source).parts := by
  intro o source
  obtain ⟨-, -, last, within, covered, -⟩ := lossless o source rfl
  have skipped : (Session.skipped o source).length = 3 := by decide
  rw [skipped] at covered
  exact ⟨rfl, skipped, last, within, covered⟩

end Run

end LuaTokens
