import LuaTokens.Proofs.Lexeme.Failure
import LuaTokens.Proofs.Place
import LuaTokens.Proofs.Sweep
import Mathlib.Data.List.Basic

/-! # The horizon of reading

What a run delivers up to some offset is decided by the source up to that offset and the
one unit behind it. Two sources that agree so far are read alike until something ends
beyond the offset, and whatever comes after that ends beyond it as well.
-/

namespace LuaTokens

theorem exists_rest_of_take_eq {text rest second : List CodeUnit} {n : Nat}
    (same : (text ++ rest).take (n + 1) = second.take (n + 1)) (within : text.length ≤ n) :
    ∃ other, second = text ++ other ∧ other.head? = rest.head?
      ∧ rest.take (n - text.length + 1) = other.take (n - text.length + 1) := by
  have enough : n + 1 - text.length = n - text.length + 1 := by omega
  have front : text <+: second := by
    have taken : text <+: second.take (n + 1) := by
      rw [← same, List.take_append, List.take_of_length_le (Nat.le_succ_of_le within)]
      exact List.prefix_append _ _
    exact taken.trans (List.take_prefix _ _)
  obtain ⟨other, rfl⟩ := front
  have behind : rest.take (n - text.length + 1) = other.take (n - text.length + 1) := by
    rw [List.take_append, List.take_append, enough] at same
    exact List.append_cancel_left same
  refine ⟨other, rfl, ?_, behind⟩
  have first := congrArg List.head? behind
  simpa only [List.head?_take, Nat.succ_ne_zero, if_false] using first.symm

namespace Lexeme

/-- How far the lexeme goes, or the text that shows that there is none. -/
def Reading.reach : Reading → Nat
  | .finished => 0
  | .read cut => cut.text.length
  | .failed m => m.lead.length + m.culprit.length

/-- The same reading with another text behind it. -/
def Reading.before (rest : List CodeUnit) : Reading → Reading
  | .finished => .finished
  | .read cut => .read { cut with rest := rest }
  | .failed m => .failed m

theorem Reading.reach_before (r : Reading) (rest : List CodeUnit) : (r.before rest).reach = r.reach := by
  cases r <;> rfl

variable {g : Grammar} {first second : List CodeUnit} {n : Nat}

theorem read_of_take_eq (same : first.take (n + 1) = second.take (n + 1))
    (within : (read g first).reach ≤ n) :
    read g second = (read g first).before (second.drop (read g first).reach) := by
  cases found : read g first with
  | finished =>
      obtain rfl := eq_nil_of_finished found
      obtain rfl : second = [] := by simpa using same.symm
      rfl
  | read cut =>
      rw [found] at within
      have splits := splits_of_read found
      rw [← splits.text_append_rest] at same found
      obtain ⟨other, rfl, begins, -⟩ := exists_rest_of_take_eq same within
      rw [read_append_of_head? found begins]
      simp only [Reading.before, Reading.reach, List.drop_left]
  | failed m =>
      rw [found] at within
      obtain ⟨rest, rfl⟩ := (splits_of_failed found).lead_culprit
      have within' : (m.lead ++ m.culprit).length ≤ n := by
        rw [List.length_append]
        exact within
      rw [← List.append_assoc] at same
      obtain ⟨other, rfl, begins, -⟩ := exists_rest_of_take_eq same within'
      rw [List.append_assoc, read_append_of_failed found begins]
      rfl

/-- Of two texts that agree up to an offset and one unit further, either both have a
    lexeme or a failure that ends by then or neither has. -/
theorem reach_le_of_take_eq (same : first.take (n + 1) = second.take (n + 1))
    (within : (read g first).reach ≤ n) : (read g second).reach ≤ n := by
  rw [read_of_take_eq same within, Reading.reach_before]
  exact within

end Lexeme

namespace Trace

variable {g : Grammar} {p : Position} {chunk : Option String} {input first second : List CodeUnit}
  {limit n : Nat}

/-- What is in the trace, and why it ends, as far as it ends at the limit or before. -/
def endedBy (t : Trace) (chunk : Option String) (limit : Nat) : List Piece × Option Diagnostic :=
  (t.pieces.filter (·.stop.offset ≤ limit), (t.failure chunk).filter (·.stop.offset ≤ limit))

theorem filter_filterMap_pieces {α : Type} {select : Piece → Option α} {stop : α → Position}
    (stops : ∀ {piece a}, select piece = some a → stop a = piece.stop) (pieces : List Piece)
    (limit : Nat) :
    (pieces.filterMap select).filter (fun a => (stop a).offset ≤ limit)
      = (pieces.filter (·.stop.offset ≤ limit)).filterMap select := by
  rw [List.filter_filterMap, List.filterMap_filter]
  apply List.filterMap_congr
  intro piece _
  cases found : select piece with
  | none => simp
  | some a => simp [stops found, Option.filter_some]

theorem tokens_endedBy (t : Trace) (chunk : Option String) (limit : Nat) :
    t.tokens.filter (·.stop.offset ≤ limit) = (t.endedBy chunk limit).1.filterMap Piece.token? :=
  filter_filterMap_pieces Piece.stop_of_token? t.pieces limit

theorem comments_endedBy (t : Trace) (chunk : Option String) (limit : Nat) :
    t.comments.filter (·.stop.offset ≤ limit) = (t.endedBy chunk limit).1.filterMap Piece.comment? :=
  filter_filterMap_pieces Piece.stop_of_comment? t.pieces limit

theorem endedBy_cons_of_lt {t : Trace} {piece : Piece} (beyond : limit < piece.stop.offset) :
    (t.cons piece).endedBy chunk limit = t.endedBy chunk limit :=
  congrArg (·, _) (List.filter_cons_of_neg (by simpa using beyond))

theorem endedBy_cons_of_le {t : Trace} {piece : Piece} (within : piece.stop.offset ≤ limit) :
    (t.cons piece).endedBy chunk limit
      = (piece :: (t.endedBy chunk limit).1, (t.endedBy chunk limit).2) :=
  congrArg (·, _) (List.filter_cons_of_pos (by simpa using within))

theorem endedBy_eq_nil {t : Trace} (pieces : ∀ piece ∈ t.pieces, limit < piece.stop.offset)
    (failure : ∀ d ∈ t.failure chunk, limit < d.stop.offset) : t.endedBy chunk limit = ([], none) := by
  rw [endedBy, Prod.mk.injEq, List.filter_eq_nil_iff, Option.filter_eq_none_iff]
  constructor
  · intro piece member
    simpa using pieces piece member
  · intro d failed
    simpa using failure d failed

theorem endedBy_of_le (g : Grammar) (chunk : Option String) (input : List CodeUnit)
    (low : limit ≤ p.offset) : (of g p input).endedBy chunk limit = ([], none) := by
  have later := offset_le_stop g p input
  apply endedBy_eq_nil
  · intro piece member
    have := offset_le_of_mem g p input piece member
    omega
  · intro d failed
    obtain ⟨m, misread, rfl⟩ := Option.map_eq_some_iff.1 failed
    have long := List.length_pos_iff.2 (Lexeme.splits_of_failed (failed_ahead misread)).culprit_ne_nil
    rw [m.offset_diagnose]
    omega

theorem endedBy_of_lt_reach (far : n < (Lexeme.read g input).reach) :
    (of g p input).endedBy chunk (p.offset + n) = ([], none) := by
  cases found : Lexeme.read g input with
  | finished =>
      rw [found] at far
      cases far
  | failed m =>
      rw [found] at far
      rw [of_failed found]
      apply endedBy_eq_nil
      · intro piece member
        cases member
      · intro d failed
        obtain rfl := Option.some.inj failed
        rw [m.offset_diagnose]
        exact Nat.add_assoc _ _ _ ▸ Nat.add_lt_add_left far p.offset
  | read cut =>
      rw [found] at far
      have beyond : p.offset + n < (p.advance cut.text).offset := by
        rw [Position.offset_advance]
        exact Nat.add_lt_add_left far p.offset
      rw [of_read found, endedBy_cons_of_lt beyond]
      exact endedBy_of_le g chunk cut.rest (Nat.le_of_lt beyond)

theorem endedBy_of_take_eq_of_lt (p : Position) (chunk : Option String)
    (same : first.take (n + 1) = second.take (n + 1)) (far : n < (Lexeme.read g first).reach) :
    (of g p first).endedBy chunk (p.offset + n) = (of g p second).endedBy chunk (p.offset + n) := by
  have alsoFar : n < (Lexeme.read g second).reach :=
    Nat.lt_of_not_le fun near => Nat.not_le.2 far (Lexeme.reach_le_of_take_eq same.symm near)
  rw [endedBy_of_lt_reach far, endedBy_of_lt_reach alsoFar]

theorem endedBy_of_take_eq (g : Grammar) (p : Position) (chunk : Option String)
    (same : first.take (n + 1) = second.take (n + 1)) :
    (of g p first).endedBy chunk (p.offset + n) = (of g p second).endedBy chunk (p.offset + n) := by
  induction p, first using of.induct g generalizing second n with
  | case1 p first finished =>
      have alike := Lexeme.read_of_take_eq (g := g) same (by rw [finished]; exact Nat.zero_le n)
      rw [finished] at alike
      rw [of_finished finished, of_finished alike]
      rfl
  | case2 p first m failed =>
      rcases Nat.lt_or_ge n (Lexeme.read g first).reach with far | within
      · exact endedBy_of_take_eq_of_lt p chunk same far
      · have alike := Lexeme.read_of_take_eq same within
        rw [failed] at alike
        rw [of_failed failed, of_failed alike]
        rfl
  | case3 p first cut read ih =>
      rcases Nat.lt_or_ge n (Lexeme.read g first).reach with far | within
      · exact endedBy_of_take_eq_of_lt p chunk same far
      · have alike := Lexeme.read_of_take_eq same within
        rw [read] at alike within
        simp only [Lexeme.Reading.before, Lexeme.Reading.reach] at alike within
        have whole := (Lexeme.splits_of_read read).text_append_rest
        rw [← whole] at same
        obtain ⟨other, rfl, -, behind⟩ := exists_rest_of_take_eq same within
        have later := ih behind
        rw [Position.offset_advance, Nat.add_assoc, Nat.add_sub_cancel' within] at later
        have ended : (Piece.mk cut.value cut.text p).stop.offset ≤ p.offset + n := by
          rw [Piece.stop, Position.offset_advance]
          exact Nat.add_le_add_left within p.offset
        rw [List.drop_left] at alike
        rw [of_read read, of_read alike, endedBy_cons_of_le ended, endedBy_cons_of_le ended, later]

end Trace

namespace Session

variable {first second : List CodeUnit} {n : Nat}

/-- The mark of a script is found by its text and the unit behind it, once there are two
    units to see. -/
theorem shebang_of_take_eq (two : 1 ≤ n) (same : first.take (n + 1) = second.take (n + 1))
    (within : (shebang first).length ≤ n) : shebang second = shebang first := by
  have seen : (spellingUnits "#!").length ≤ n + 1 := Nat.succ_le_succ two
  by_cases marked : spellingUnits "#!" <+: first
  · have stops := stops_drop_shebang marked
    have whole := shebang_append first
    rw [← whole] at same
    obtain ⟨other, rfl, begins, -⟩ := exists_rest_of_take_eq same within
    exact shebang_append_of_stops marked (stops.of_head_eq begins)
  · have unmarked : ¬ spellingUnits "#!" <+: second := by
      intro found
      have taken : spellingUnits "#!" <+: second.take (n + 1) := List.prefix_take_iff.2 ⟨found, seen⟩
      rw [← same] at taken
      exact marked (List.prefix_take_iff.1 taken).1
    rw [shebang_of_unmarked marked, shebang_of_unmarked unmarked]

theorem skipped_of_take_eq (o : Options) (two : 1 ≤ n)
    (same : first.take (n + 1) = second.take (n + 1)) (within : (skipped o first).length ≤ n) :
    skipped o second = skipped o first := by
  unfold skipped at within ⊢
  split at within
  next ignored =>
    simp only [ignored, if_true]
    exact shebang_of_take_eq two same within
  next kept => simp only [kept, if_false, Bool.false_eq_true]

end Session

namespace Run

variable {first second : List CodeUnit}

theorem endedBy_of_le_skipped {o : Options} {source : List CodeUnit} {p : Nat}
    (low : p ≤ (Session.skipped o source).length) : (trace o source).endedBy o.chunk p = ([], none) := by
  rw [trace_eq]
  apply Trace.endedBy_of_le
  rw [Position.offset_advance]
  exact Nat.le_trans low (Nat.le_add_left _ _)

theorem endedBy_of_take_eq (o : Options) (p : Nat) (same : first.take (p + 1) = second.take (p + 1)) :
    (trace o first).endedBy o.chunk p = (trace o second).endedBy o.chunk p := by
  by_cases within : 1 ≤ p ∧ (Session.skipped o first).length ≤ p
  · obtain ⟨two, near⟩ := within
    have skipped := Session.skipped_of_take_eq o two same near
    rw [← Session.skipped_append_drop o first] at same
    obtain ⟨other, divided, -, behind⟩ := exists_rest_of_take_eq same near
    have ahead : second.drop (Session.skipped o first).length = other := by
      rw [divided, List.drop_left]
    have later := Trace.endedBy_of_take_eq o.grammar
      (Position.advance {} (Session.skipped o first)) o.chunk behind
    rw [Position.offset_advance, show Position.offset {} = 0 from rfl, Nat.zero_add,
      Nat.add_sub_cancel' near] at later
    rw [trace_eq, trace_eq, skipped, ahead]
    exact later
  · have far : p ≤ (Session.skipped o first).length := by omega
    have alsoFar : p ≤ (Session.skipped o second).length := by
      by_contra near
      rw [Nat.not_le] at near
      have two : 1 ≤ p := Nat.lt_of_le_of_lt (Nat.zero_le _) near
      have skipped := Session.skipped_of_take_eq o two same.symm (Nat.le_of_lt near)
      exact within ⟨two, by rw [skipped]; exact Nat.le_of_lt near⟩
    rw [endedBy_of_le_skipped far, endedBy_of_le_skipped alsoFar]

/-- What ends at an offset or before is decided by the source up to there and one unit
    further. -/
theorem horizon (o : Options) (p : Nat) (same : first.take (p + 1) = second.take (p + 1)) :
    let one := ofUnits o first
    let other := ofUnits o second
    one.tokens.filter (·.stop.offset ≤ p) = other.tokens.filter (·.stop.offset ≤ p)
      ∧ one.comments.filter (·.stop.offset ≤ p) = other.comments.filter (·.stop.offset ≤ p)
      ∧ one.failure.filter (·.stop.offset ≤ p) = other.failure.filter (·.stop.offset ≤ p) := by
  have ended := endedBy_of_take_eq o p same
  simp only [ofUnits_eq, Trace.tokens_endedBy _ o.chunk, ended, true_and]
  constructor
  · cases o.comments with
    | false => rfl
    | true => simp only [if_true, Trace.comments_endedBy _ o.chunk, ended]
  · exact congrArg Prod.snd ended

/-- A comment, a name and a faulty escape, whatever the string goes on with. -/
theorem horizon_escape :
    let o : Options := { version := .lua52, comments := true }
    let first := spellingUnits "--c\nx'\\xq1' y"
    let second := spellingUnits "--c\nx'\\xq1[["
    let one := ofUnits o first
    let other := ofUnits o second
    first.take 10 = second.take 10
      ∧ one.tokens.filter (·.stop.offset ≤ 9) = other.tokens.filter (·.stop.offset ≤ 9)
      ∧ one.comments.filter (·.stop.offset ≤ 9) = other.comments.filter (·.stop.offset ≤ 9)
      ∧ one.failure.filter (·.stop.offset ≤ 9) = other.failure.filter (·.stop.offset ≤ 9) := by
  intro o first second one other
  have same : first.take (9 + 1) = second.take (9 + 1) := by decide
  exact ⟨same, horizon o 9 same⟩

end Run

end LuaTokens
