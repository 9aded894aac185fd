import LuaTokens.Proofs.Lexeme.Form
import LuaTokens.Proofs.Lexeme.LongBracket
import LuaTokens.Proofs.Standing

/-! # Long brackets close at the first closer

Behind a long opening bracket nothing has a meaning up to the first closing bracket of the
same level, in a string as in a comment. What stands in between is the value, and where no
such bracket stands the source ends in the middle of the construct.
-/

namespace LuaTokens

def Extent.text (source : List CodeUnit) (e : Extent) : List CodeUnit :=
  (source.drop e.first).take (e.last - e.first)

theorem Extent.length_text {source : List CodeUnit} {e : Extent} (within : e.last ≤ source.length) :
    (e.text source).length = e.last - e.first := by
  rw [text, List.length_take, List.length_drop]
  omega

namespace Position

variable {source : List CodeUnit} (p : Position)

theorem offset_advance_extent {stop : Nat} (le : p.offset ≤ stop) (within : stop ≤ source.length) :
    (p.advance (Extent.text source ⟨p.offset, stop⟩)).offset = stop := by
  rw [offset_advance, Extent.length_text within]
  exact Nat.add_sub_cancel' le

theorem offset_advance_drop (within : p.offset ≤ source.length) :
    (p.advance (source.drop p.offset)).offset = source.length := by
  rw [offset_advance, List.length_drop]
  exact Nat.add_sub_cancel' within

end Position

namespace LongBracket

/-- Where the body begins behind the opener at the offset `opening`: one line break that
    stands right there does not belong to it. -/
def bodyStart (source : List CodeUnit) (opening level : Nat) : Nat :=
  opening + level + 2 + CodeUnit.breakWidth (source.drop (opening + level + 2))

/-- From the offset `start` on, the closer of the level stands first at the offset `close`. -/
structure ClosesFirst (source : List CodeUnit) (level start close : Nat) : Prop where
  start_le : start ≤ close
  closes : closer level <+: source.drop close
  first : ∀ k, start ≤ k → k < close → ¬ closer level <+: source.drop k

/-- From the offset `start` on, the closer of the level stands nowhere. -/
def Endless (source : List CodeUnit) (level start : Nat) : Prop :=
  ∀ k, start ≤ k → ¬ closer level <+: source.drop k

variable {source : List CodeUnit} {level opening close : Nat}

theorem ClosesFirst.le_length {start : Nat} (h : ClosesFirst source level start close) :
    close + level + 2 ≤ source.length := by
  have fits := h.closes.length_le
  rw [length_closer, List.length_drop] at fits
  omega

theorem opening_le_bodyStart (source : List CodeUnit) (opening level : Nat) :
    opening ≤ bodyStart source opening level := by
  rw [bodyStart]
  omega

theorem le_length_of_opens (opens : opener level <+: source.drop opening) : opening ≤ source.length := by
  have fits := opens.length_le
  rw [length_opener, List.length_drop] at fits
  omega

theorem level?_of_opens (opens : opener level <+: source.drop opening) :
    level? (source.drop opening) = some level :=
  let ⟨opened, divided⟩ := opens
  level?_eq_some_iff.2 ⟨opened, divided.symm⟩

theorem drop_bodyStart (source : List CodeUnit) (opening level : Nat) :
    (source.drop opening).drop (level + 2 + CodeUnit.breakWidth ((source.drop opening).drop (level + 2)))
      = source.drop (bodyStart source opening level) := by
  simp only [List.drop_drop, bodyStart, Nat.add_assoc]

theorem read_of_closesFirst (opens : opener level <+: source.drop opening)
    (closes : ClosesFirst source level (bodyStart source opening level) close) :
    read (source.drop opening) = .closed ⟨Extent.text source ⟨bodyStart source opening level, close⟩,
      Extent.text source ⟨opening, close + level + 2⟩, source.drop (close + level + 2)⟩ := by
  have le := closes.start_le
  have found : offsetOf? (closer level) (source.drop (bodyStart source opening level))
      = some (close - bodyStart source opening level) := by
    refine offsetOf?_eq_some (closer_ne_nil level) (fun k earlier => ?_) ?_
    · rw [List.drop_drop]
      exact closes.first _ (Nat.le_add_right _ _) (by omega)
    · rw [List.drop_drop, Nat.add_sub_cancel' le]
      exact closes.closes
  have width : level + 2 + CodeUnit.breakWidth ((source.drop opening).drop (level + 2))
      + (close - bodyStart source opening level) + (level + 2) = close + level + 2 - opening := by
    rw [bodyStart] at le ⊢
    rw [List.drop_drop, ← Nat.add_assoc opening level 2]
    omega
  have stop : opening + (close + level + 2 - opening) = close + level + 2 := by
    have := opening_le_bodyStart source opening level
    omega
  simp only [read, level?_of_opens opens, drop_bodyStart, found, width, Cut.ofWidth]
  simp only [List.drop_drop, stop, Extent.text]

theorem read_of_endless (opens : opener level <+: source.drop opening)
    (endless : Endless source level (bodyStart source opening level)) :
    read (source.drop opening) = .unclosed := by
  have missing : offsetOf? (closer level) (source.drop (bodyStart source opening level)) = none := by
    refine offsetOf?_eq_none fun k _ => ?_
    rw [List.drop_drop]
    exact endless _ (Nat.le_add_right _ _)
  simp only [read, level?_of_opens opens, drop_bodyStart, missing]

end LongBracket

namespace Lexeme

variable {g : Grammar} {level : Nat} {input rest : List CodeUnit}

theorem read_of_opens (opens : LongBracket.opener level <+: input) : read g input = readLongString input := by
  obtain ⟨opened, rfl⟩ := opens
  refine read_longString (beginsLongString_iff.2 ⟨rfl, ?_⟩)
  cases level with
  | zero => exact .inl rfl
  | succ n => exact .inr rfl

theorem read_dashes (line : List CodeUnit) :
    read g (spellingUnits "--" ++ line) = readComment (spellingUnits "--") line :=
  read_comment

theorem read_of_delimiter (positive : 0 < level) (noSign : rest.head? ≠ some (.of '='))
    (noBracket : rest.head? ≠ some (.of '[')) :
    read g (.of '[' :: (List.replicate level (.of '=') ++ rest))
      = .failed ⟨.invalidDelimiter, [], .of '[' :: List.replicate level (.of '=')⟩ := by
  have stops : Stops (· == .of '=') rest := by
    intro u next
    rw [← Bool.not_eq_true, beq_iff_eq]
    rintro rfl
    exact noSign next
  have signs : LongBracket.equalsSigns (List.replicate level (.of '=') ++ rest)
      = List.replicate level (.of '=') :=
    stops.takeWhile_append (by simp)
  have begins : beginsLongString (.of '[') (List.replicate level (.of '=') ++ rest) = true := by
    obtain ⟨n, rfl⟩ : ∃ n, level = n + 1 := ⟨level - 1, by omega⟩
    exact beginsLongString_iff.2 ⟨rfl, .inr rfl⟩
  have absent : LongBracket.read (.of '[' :: (List.replicate level (.of '=') ++ rest)) = .absent := by
    rw [LongBracket.read_eq_absent_iff, LongBracket.level?]
    simp [signs, noBracket]
  rw [read_longString begins, readLongString, absent]
  simp [signs, Nat.add_comm 1]

end Lexeme

namespace Session

variable {s : Session} {level : Nat}

/-- What is ahead of the session is what the source has behind its position. -/
def Stands (s : Session) : Prop :=
  s.source.drop s.position.offset = s.ahead

/-- The session behind a comment, which it holds if the options ask for it. -/
def passing (s : Session) (c : Comment) : Session :=
  { s with
    position := c.stop
    ahead := s.source.drop c.stop.offset
    comments := if s.options.comments then s.comments.push c else s.comments }

section Pulls

theorem pull_of_comment (stands : s.Stands) {body text rest : List CodeUnit}
    (read : Lexeme.read s.options.grammar s.ahead = .read ⟨.comment body, text, rest⟩) :
    s.pull = (s.passing ⟨.ofUnits body, Utf16.lossy text, s.position, s.position.advance text⟩).pull := by
  have behind : s.source.drop (s.position.advance text).offset = rest := by
    have divided : text ++ rest = s.ahead := (Lexeme.splits_of_read read).text_append_rest
    rw [Position.offset_advance, ← List.drop_drop, stands, ← divided, List.drop_left]
  rw [pull, sweep, Sweep.of_read read]
  simp only [pull, sweep, passing, Sweep.behind, behind]
  split
  next captured => simp
  next => rfl

end Pulls

section Brackets

/-- What a pull does at a long string. -/
structure PullsLongString (s : Session) (level : Nat) : Prop where
  /-- The string is the units up to the first closer, and the session goes on behind that. -/
  closed (close : Nat) :
    let start := LongBracket.bodyStart s.source s.position.offset level
    let stop := s.position.advance (Extent.text s.source ⟨s.position.offset, close + level + 2⟩)
    LongBracket.ClosesFirst s.source level start close →
      stop.offset = close + level + 2
        ∧ s.pull
          = (some (.token ⟨.string (.ofUnits (Extent.text s.source ⟨start, close⟩)), s.position, stop⟩),
            { s with position := stop, ahead := s.source.drop stop.offset })
  /-- Without a closer the failure covers all units from the bracket to the end of the source. -/
  unclosed :
    let start := LongBracket.bodyStart s.source s.position.offset level
    let stop := s.position.advance s.ahead
    LongBracket.Endless s.source level start →
      stop.offset = s.source.length
        ∧ s.pull = (some (.failure ⟨.unfinishedLongString, s.position, stop, "<eof>", s.options.chunk⟩),
            { s with position := stop, ahead := [] })

/-- What a pull does at a long comment. -/
structure PullsLongComment (s : Session) (level : Nat) : Prop where
  /-- The body is the units up to the first closer. The comment is passed with its dashes and
      both brackets. -/
  closed (close : Nat) :
    let start := LongBracket.bodyStart s.source (s.position.offset + 2) level
    let text := Extent.text s.source ⟨s.position.offset, close + level + 2⟩
    let stop := s.position.advance text
    LongBracket.ClosesFirst s.source level start close →
      stop.offset = close + level + 2
        ∧ s.pull = (s.passing ⟨.ofUnits (Extent.text s.source ⟨start, close⟩), Utf16.lossy text,
            s.position, stop⟩).pull
  /-- Without a closer the failure begins at the bracket, behind the dashes. -/
  unclosed :
    let start := LongBracket.bodyStart s.source (s.position.offset + 2) level
    let bracket := s.position.shift 2
    let stop := bracket.advance (s.source.drop bracket.offset)
    LongBracket.Endless s.source level start →
      stop.offset = s.source.length
        ∧ s.pull = (some (.failure ⟨.unfinishedLongComment, bracket, stop, "<eof>", s.options.chunk⟩),
            { s with position := stop, ahead := [] })

theorem pullsLongString (stands : s.Stands) (opens : LongBracket.opener level <+: s.ahead) :
    s.PullsLongString level := by
  have reads : Lexeme.read s.options.grammar s.ahead = Lexeme.readLongString s.ahead := Lexeme.read_of_opens opens
  rw [← stands] at opens
  constructor
  · intro close start stop closes
    have start_le : s.position.offset ≤ start := LongBracket.opening_le_bodyStart _ _ _
    have le : s.position.offset ≤ close + level + 2 := by
      have := closes.start_le
      omega
    have offset : stop.offset = close + level + 2 := s.position.offset_advance_extent le closes.le_length
    have read : Lexeme.read s.options.grammar s.ahead
        = .read ⟨.token (.string (.ofUnits (Extent.text s.source ⟨start, close⟩))),
            Extent.text s.source ⟨s.position.offset, close + level + 2⟩,
            s.source.drop (close + level + 2)⟩ := by
      rw [reads, Lexeme.readLongString, ← stands, LongBracket.read_of_closesFirst opens closes]
      rfl
    refine ⟨offset, ?_⟩
    rw [offset]
    exact pull_of_token read
  · intro start stop endless
    have failed : Lexeme.read s.options.grammar s.ahead = .failed ⟨.unfinishedLongString, [], s.ahead⟩ := by
      rw [reads, Lexeme.readLongString, ← stands, LongBracket.read_of_endless opens endless]
    have last := s.position.offset_advance_drop (LongBracket.le_length_of_opens opens)
    rw [stands] at last
    exact ⟨last, pull_of_failed failed⟩

theorem dashes_append_text (stands : s.Stands) {line : List CodeUnit}
    (ahead : s.ahead = spellingUnits "--" ++ line) {last : Nat} (le : s.position.offset + 2 ≤ last) :
    spellingUnits "--" ++ Extent.text s.source ⟨s.position.offset + 2, last⟩
      = Extent.text s.source ⟨s.position.offset, last⟩ := by
  have width : last - s.position.offset = 2 + (last - (s.position.offset + 2)) := by omega
  simp only [Extent.text, width, ← List.drop_drop]
  rw [stands, ahead]
  exact (List.take_length_add_append _).symm

theorem pullsLongComment (stands : s.Stands) {line : List CodeUnit}
    (ahead : s.ahead = spellingUnits "--" ++ line) (opens : LongBracket.opener level <+: line) :
    s.PullsLongComment level := by
  have reads : Lexeme.read s.options.grammar s.ahead = Lexeme.readComment (spellingUnits "--") line := by
    rw [ahead, Lexeme.read_dashes]
  have behind : s.source.drop (s.position.offset + 2) = line := by
    rw [← List.drop_drop, stands, ahead]
    rfl
  rw [← behind] at opens
  constructor
  · intro close start text stop closes
    have start_le : s.position.offset + 2 ≤ start := LongBracket.opening_le_bodyStart _ _ _
    have le : s.position.offset + 2 ≤ close + level + 2 := by
      have := closes.start_le
      omega
    have offset : stop.offset = close + level + 2 :=
      s.position.offset_advance_extent (by omega) closes.le_length
    have read : Lexeme.read s.options.grammar s.ahead
        = .read ⟨.comment (Extent.text s.source ⟨start, close⟩), text, s.source.drop (close + level + 2)⟩ := by
      rw [reads, Lexeme.readComment, ← behind, LongBracket.read_of_closesFirst opens closes]
      simp only [dashes_append_text stands ahead le]
      rfl
    exact ⟨offset, pull_of_comment stands read⟩
  · intro start bracket stop endless
    have failed : Lexeme.read s.options.grammar s.ahead
        = .failed ⟨.unfinishedLongComment, spellingUnits "--", s.source.drop (s.position.offset + 2)⟩ := by
      rw [reads, Lexeme.readComment, ← behind, LongBracket.read_of_endless opens endless]
    have dashes : s.position.advance (spellingUnits "--") = bracket :=
      s.position.advance_of_unbroken (CodeUnit.forall_of_any (by decide))
    have pulled := pull_of_failed failed
    simp only [Misreading.diagnose, Misreading.stop, dashes] at pulled
    exact ⟨bracket.offset_advance_drop (LongBracket.le_length_of_opens opens), pulled⟩

theorem pull_of_invalidDelimiter {rest : List CodeUnit} (positive : 0 < level)
    (ahead : s.ahead = .of '[' :: (List.replicate level (.of '=') ++ rest))
    (noSign : rest.head? ≠ some (.of '=')) (noBracket : rest.head? ≠ some (.of '[')) :
    let delimiter := .of '[' :: List.replicate level (.of '=')
    let stop := s.position.shift (level + 1)
    let near := Utf16.lossy delimiter
    s.pull = (some (.failure ⟨.invalidDelimiter, s.position, stop, near, s.options.chunk⟩),
      { s with position := stop, ahead := [] }) := by
  intro delimiter stop near
  have failed : Lexeme.read s.options.grammar s.ahead = .failed ⟨.invalidDelimiter, [], delimiter⟩ := by
    rw [ahead, Lexeme.read_of_delimiter positive noSign noBracket]
  have unbroken : ∀ u ∈ delimiter, u.isBreak = false :=
    fun u member => LongBracket.isBreak_opener level u (List.mem_append_left _ member)
  have moved : s.position.advance delimiter = stop := by
    rw [s.position.advance_of_unbroken unbroken]
    simp [delimiter, stop]
  have pulled := pull_of_failed failed
  simp only [Misreading.diagnose, Misreading.stop, Position.advance, moved] at pulled
  exact pulled

theorem pull_of_lineComment (stands : s.Stands) {line : List CodeUnit}
    (ahead : s.ahead = spellingUnits "--" ++ line) (unopened : ∀ level, ¬ LongBracket.opener level <+: line) :
    let body := line.takeWhile (!·.isBreak)
    s.pull = (s.passing ⟨.ofUnits body, Utf16.lossy (spellingUnits "--" ++ body), s.position,
      s.position.shift (2 + body.length)⟩).pull := by
  intro body
  have read : Lexeme.read s.options.grammar s.ahead
      = .read ⟨.comment body, spellingUnits "--" ++ body, line.dropWhile (!·.isBreak)⟩ := by
    rw [ahead, Lexeme.read_dashes, Lexeme.readComment, LongBracket.read_eq_absent_iff_unopened.2 unopened]
    rfl
  have unbroken : ∀ u ∈ spellingUnits "--" ++ body, u.isBreak = false := by
    intro u member
    rcases List.mem_append.1 member with dash | inside
    · exact CodeUnit.forall_of_any (by decide) u dash
    · simpa using List.mem_takeWhile_imp inside
  have moved := s.position.advance_of_unbroken unbroken
  rw [List.length_append, show (spellingUnits "--").length = 2 from rfl] at moved
  rw [pull_of_comment stands read, moved]

end Brackets

/-- A session that has something left to read stands where its position says. -/
theorem stands_converse (o : Options) (source : List CodeUnit) (calls : List Call)
    (unread : ((start o source).converse calls).last.ahead ≠ []) :
    ((start o source).converse calls).last.Stands := by
  have leads := (start o source).leads_converse calls
  have faultless : ∀ d, Item.failure d ∉ ((start o source).converse calls).delivered :=
    fun d member => unread (leads.over_of_failure member rfl)
  obtain ⟨before, place⟩ := leads.atPlace ⟨_, place_start o source⟩ faultless
  rw [Stands, leads.source]
  exact place.drop_eq

/-- Long brackets close at the first matching closer, alike in strings and comments. Where
    equals signs are not followed by a second bracket, a string fails at its delimiter and a
    comment goes to the end of its line. -/
theorem pull_longBracket (stands : s.Stands) (level : Nat) :
    (LongBracket.opener level <+: s.ahead → s.PullsLongString level)
      ∧ (spellingUnits "--" ++ LongBracket.opener level <+: s.ahead → s.PullsLongComment level)
      ∧ (∀ rest, 0 < level → s.ahead = .of '[' :: (List.replicate level (.of '=') ++ rest) →
          rest.head? ≠ some (.of '=') → rest.head? ≠ some (.of '[') →
          let delimiter := .of '[' :: List.replicate level (.of '=')
          let stop := s.position.shift (level + 1)
          let near := Utf16.lossy delimiter
          s.pull = (some (.failure ⟨.invalidDelimiter, s.position, stop, near, s.options.chunk⟩),
            { s with position := stop, ahead := [] }))
      ∧ (∀ line, s.ahead = spellingUnits "--" ++ line → (∀ m, ¬ LongBracket.opener m <+: line) →
          let body := line.takeWhile (!·.isBreak)
          s.pull = (s.passing ⟨.ofUnits body, Utf16.lossy (spellingUnits "--" ++ body), s.position,
            s.position.shift (2 + body.length)⟩).pull) := by
  refine ⟨pullsLongString stands, ?_, fun rest => pull_of_invalidDelimiter,
    fun line => pull_of_lineComment stands⟩
  rintro ⟨rest, ahead⟩
  rw [List.append_assoc] at ahead
  exact pullsLongComment stands ahead.symm (List.prefix_append _ _)

/-- Behind a name, a line break, a closer of another level and an overlapping bracket come before
    the closer. -/
theorem pull_longBracket_overlapping :
    let source := spellingUnits "x--[==[\n]=]]==]y"
    let s := ((start { comments := true } source).converse [.next]).last
    let start := LongBracket.bodyStart s.source (s.position.offset + 2) 2
    let body := Extent.text s.source ⟨start, 11⟩
    let text := Extent.text s.source ⟨s.position.offset, 15⟩
    s.Stands ∧ spellingUnits "--" ++ LongBracket.opener 2 <+: s.ahead
      ∧ LongBracket.ClosesFirst s.source 2 start 11 ∧ body = spellingUnits "]=]"
      ∧ s.pull
        = (s.passing ⟨.ofUnits body, Utf16.lossy text, s.position, s.position.advance text⟩).pull := by
  intro source s start body text
  have stands : s.Stands := stands_converse _ source [.next] (by decide +kernel)
  have opens : spellingUnits "--" ++ LongBracket.opener 2 <+: s.ahead := by decide +kernel
  have earlier : ∀ k < 11, start ≤ k → ¬ LongBracket.closer 2 <+: s.source.drop k := by decide +kernel
  have closes : LongBracket.ClosesFirst s.source 2 start 11 :=
    ⟨by decide +kernel, by decide +kernel, fun k le lt => earlier k lt le⟩
  have comment := (pull_longBracket stands 2).2.1 opens
  exact ⟨stands, opens, closes, by decide +kernel, (comment.closed 11 closes).2⟩

end Session

end LuaTokens
