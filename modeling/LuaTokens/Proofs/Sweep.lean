import LuaTokens.Proofs.Lexeme.Seam
import LuaTokens.Proofs.Position.LineBreak
import LuaTokens.Session.Basic

/-! # Sweeps and pulls, step by step

What a sweep does at one lexeme, and where the positions of what it delivers lie: in the
source, and each behind the beginning of its line.
-/

namespace LuaTokens

theorem Misreading.offset_diagnose (m : Misreading) (chunk : Option String) (p : Position) :
    (m.diagnose chunk p).stop.offset = p.offset + m.lead.length + m.culprit.length := by
  simp only [diagnose, stop]
  split <;> simp [Position.shift]

namespace Sweep

/-- The sweep with these comments before its own. -/
def behind (comments : List Comment) (s : Sweep) : Sweep :=
  { s with comments := comments ++ s.comments }

theorem behind_behind (first second : List Comment) (s : Sweep) :
    (s.behind second).behind first = s.behind (first ++ second) := by
  simp [behind]

section Equations

variable {g : Grammar} {chunk : Option String} {p : Position} {input : List CodeUnit}
  {cut : Cut Lexeme}

theorem of_failed {m : Misreading} (h : Lexeme.read g input = .failed m) :
    of g chunk p input
      = ⟨[], some (.failure (m.diagnose chunk p)), (m.diagnose chunk p).stop, []⟩ := by
  rw [of]
  split
  next finished => rw [h] at finished; cases finished
  next failed => rw [h] at failed; cases failed; rfl
  next read => rw [h] at read; cases read

theorem of_read (h : Lexeme.read g input = .read cut) :
    of g chunk p input = match cut.value with
      | .space => of g chunk (p.advance cut.text) cut.rest
      | .comment body => (of g chunk (p.advance cut.text) cut.rest).behind
          [⟨.ofUnits body, Utf16.lossy cut.text, p, p.advance cut.text⟩]
      | .token kind => ⟨[], some (.token ⟨kind, p, p.advance cut.text⟩), p.advance cut.text, cut.rest⟩ := by
  rw [of]
  split
  next finished => rw [h] at finished; cases finished
  next failed => rw [h] at failed; cases failed
  next read =>
    rw [h] at read
    cases read
    obtain ⟨value, text, rest⟩ := cut
    cases value <;> rfl

theorem of_nil : of g chunk p [] = ⟨[], none, p, []⟩ := by
  rw [of]
  rfl

end Equations

end Sweep

/-- The position lies in the first `total` units, and not before its line. -/
structure Position.Within (total : Nat) (p : Position) : Prop where
  lineStart_le : p.lineStart ≤ p.offset
  offset_le : p.offset ≤ total

/-- The places that an item names lie in the first `total` units. -/
def Item.Within (total : Nat) : Item → Prop
  | .token t => t.start.Within total ∧ t.stop.Within total
  | .failure d => d.start.Within total ∧ d.stop.Within total

namespace Position

theorem lineStart_advance (p : Position) (h : p.lineStart ≤ p.offset) (text : List CodeUnit) :
    (p.advance text).lineStart ≤ (p.advance text).offset := by
  rw [advance_eq]
  simp only
  cases last : (lineBreaksFrom p.offset text).getLast? with
  | none =>
      rw [Option.map_none, Option.getD_none]
      omega
  | some b =>
      have bounds := bounds_of_mem_lineBreaksFrom (List.mem_of_getLast? last)
      exact bounds.2.2

variable {p : Position} {total : Nat}

theorem Within.advance {text rest : List CodeUnit} (h : p.lineStart ≤ p.offset)
    (fits : p.offset + (text ++ rest).length ≤ total) : (p.advance text).Within total := by
  refine ⟨p.lineStart_advance h text, ?_⟩
  rw [offset_advance]
  rw [List.length_append] at fits
  omega

end Position

theorem Misreading.within_diagnose {m : Misreading} {p : Position} {total : Nat} {input : List CodeUnit}
    {chunk : Option String} (splits : m.Splits input) (h : p.lineStart ≤ p.offset)
    (fits : p.offset + input.length ≤ total) :
    (m.diagnose chunk p).start.Within total ∧ (m.diagnose chunk p).stop.Within total := by
  obtain ⟨rest, rfl⟩ := splits.lead_culprit
  have start := Position.Within.advance h fits
  refine ⟨start, ?_⟩
  rw [diagnose, stop]
  simp only
  split
  · constructor
    · exact Nat.le_trans start.lineStart_le (Nat.le_add_right _ _)
    · simp only [Position.shift, Position.offset_advance]
      simp only [List.length_append] at fits
      omega
  · apply Position.Within.advance start.lineStart_le
    rw [Position.offset_advance]
    rw [List.length_append, ← Nat.add_assoc] at fits
    exact fits

namespace Sweep

/-- All that a sweep names lies in the source. -/
structure Within (total : Nat) (s : Sweep) : Prop where
  comments : ∀ c ∈ s.comments, c.start.Within total ∧ c.stop.Within total
  item : ∀ item ∈ s.item, item.Within total
  lineStart_le : s.position.lineStart ≤ s.position.offset
  offset_le : s.position.offset + s.ahead.length ≤ total

theorem within_cut {g : Grammar} {p : Position} {input : List CodeUnit} {cut : Cut Lexeme} {total : Nat}
    (read : Lexeme.read g input = .read cut) (h : p.lineStart ≤ p.offset)
    (fits : p.offset + input.length ≤ total) :
    (p.advance cut.text).Within total ∧ (p.advance cut.text).offset + cut.rest.length ≤ total := by
  rw [← (Lexeme.splits_of_read read).text_append_rest] at fits
  refine ⟨Position.Within.advance h fits, ?_⟩
  rw [Position.offset_advance, Nat.add_assoc, ← List.length_append]
  exact fits

theorem within_of (g : Grammar) (chunk : Option String) {p : Position} {input : List CodeUnit}
    {total : Nat} (h : p.lineStart ≤ p.offset) (fits : p.offset + input.length ≤ total) :
    (of g chunk p input).Within total := by
  fun_induction of g chunk p input with
  | case1 p input finished =>
      rw [Lexeme.eq_nil_of_finished finished] at fits
      exact ⟨by simp, by simp, h, fits⟩
  | case2 p input m failed =>
      obtain ⟨start, stop⟩ := Misreading.within_diagnose
        (Lexeme.splits_of_failed failed) h fits
      refine ⟨by simp, ?_, stop.lineStart_le, stop.offset_le⟩
      rintro item ⟨⟩
      exact ⟨start, stop⟩
  | case3 p input cut read _ _ ih =>
      obtain ⟨stop, later⟩ := within_cut read h fits
      exact ih stop.lineStart_le later
  | case4 p input cut read _ _ _ ih =>
      obtain ⟨stop, later⟩ := within_cut read h fits
      obtain ⟨comments, item, lineStart, offset⟩ := ih stop.lineStart_le later
      refine ⟨?_, item, lineStart, offset⟩
      intro c member
      rcases List.mem_cons.1 member with rfl | member
      · exact ⟨⟨h, Nat.le_trans (Nat.le_add_right _ _) fits⟩, stop⟩
      · exact comments c member
  | case5 p input cut read =>
      obtain ⟨stop, later⟩ := within_cut read h fits
      refine ⟨by simp, ?_, stop.lineStart_le, later⟩
      rintro item ⟨⟩
      exact ⟨⟨h, Nat.le_trans (Nat.le_add_right _ _) fits⟩, stop⟩

end Sweep

namespace Session

section Steps

variable {s : Session}

theorem pull_of_token {kind : Token.Kind} {text rest : List CodeUnit}
    (read : Lexeme.read s.options.grammar s.ahead = .read ⟨.token kind, text, rest⟩) :
    s.pull = (some (.token ⟨kind, s.position, s.position.advance text⟩),
      { s with position := s.position.advance text, ahead := rest }) := by
  rw [pull, sweep, Sweep.of_read read]
  simp

theorem pull_of_failed {m : Misreading} (failed : Lexeme.read s.options.grammar s.ahead = .failed m) :
    s.pull = (some (.failure (m.diagnose s.options.chunk s.position)),
      { s with position := (m.diagnose s.options.chunk s.position).stop, ahead := [] }) := by
  rw [pull, sweep, Sweep.of_failed failed]
  simp

end Steps

/-- Pull so many times, also when the session is over. -/
def pulls : Nat → Session → List (Option Item) × Session
  | 0, s => ([], s)
  | count + 1, s =>
      let (items, last) := pulls count s.pull.2
      (s.pull.1 :: items, last)

/-- The session stands in its source, and so do the comments it holds. -/
structure Within (s : Session) : Prop where
  comments : ∀ c ∈ s.comments.toList, c.start.Within s.source.length ∧ c.stop.Within s.source.length
  lineStart_le : s.position.lineStart ≤ s.position.offset
  offset_le : s.position.offset + s.ahead.length ≤ s.source.length

theorem within_start (o : Options) (source : List CodeUnit) : (start o source).Within := by
  have front : (if o.ignoreShebang then shebang source else []) <+: source := by
    unfold shebang
    split
    · split
      · exact List.takeWhile_prefix _
      · exact List.nil_prefix
    · exact List.nil_prefix
  refine ⟨by simp [start], Position.lineStart_advance _ (Nat.le_refl _) _, ?_⟩
  have := front.length_le
  simp only [start, Position.offset_advance, List.length_drop]
  omega

variable {s : Session}

theorem within_pull (h : s.Within) :
    s.pull.2.Within ∧ ∀ item ∈ s.pull.1, item.Within s.source.length := by
  obtain ⟨comments, item, lineStart, offset⟩ :=
    Sweep.within_of s.options.grammar s.options.chunk h.lineStart_le h.offset_le
  refine ⟨⟨?_, lineStart, offset⟩, item⟩
  intro c member
  simp only [pull] at member
  split at member
  · rw [Array.toList_appendList, List.mem_append] at member
    rcases member with old | new
    · exact h.comments c old
    · exact comments c new
  · exact h.comments c member

theorem within_pulls (count : Nat) (h : s.Within) :
    (s.pulls count).2.Within ∧ (s.pulls count).2.source = s.source
      ∧ ∀ item ∈ (s.pulls count).1.filterMap id, item.Within s.source.length := by
  induction count generalizing s with
  | zero => exact ⟨h, rfl, by simp [pulls]⟩
  | succ count ih =>
      obtain ⟨next, item⟩ := within_pull h
      obtain ⟨last, source, items⟩ := ih next
      refine ⟨last, source, ?_⟩
      intro found member
      simp only [pulls, List.mem_filterMap, List.mem_cons, id] at member
      obtain ⟨entry, here | later, same⟩ := member
      · exact item found (here.symm.trans same)
      · exact items found (List.mem_filterMap.2 ⟨entry, later, same⟩)

end Session

end LuaTokens
