import LuaTokens.Proofs.Lexeme.Quoted
import LuaTokens.Proofs.Scanner.Escape

/-! # Scanning quoted strings

The scanner goes through plain units one by one and cuts out a whole run of them where
an escape or the end comes, so it may stand between the halves of a surrogate pair. The
runs have the bytes of the elements that they are made of.
-/

namespace LuaTokens

namespace Scan

section Definitions

variable (features : FeatureSet) (chunk : Option String) (start : Position) (quote : CodeUnit)

/-- One round over the contents of a string, given its bytes up to the offset `first`. The
    units from there up to the scanner are plain. -/
def quotedRound : ByteString × Nat → Scan ((ByteString × Nat) ⊕ ByteString)
  | (bytes, first) => do
      match ← ask Scanner.peek with
      | none => fail chunk .unfinishedString start
      | some u =>
          if u = quote then
            let run ← slice first (← ask (·.position.offset))
            return .inr (bytes ++ .ofUnits run)
          else if u.isBreak then fail chunk .unfinishedString start
          else if u = .of '\\' then
            let run ← slice first (← ask (·.position.offset))
            let escaped ← escape features chunk
            return .inl (bytes ++ .ofUnits run ++ escaped, ← ask (·.position.offset))
          else
            advance 1
            return .inl (bytes, first)

end Definitions

/-- Move over the string that begins at the scanner. -/
def quoted (features : FeatureSet) (chunk : Option String) (start : Position) : Scan Token.Kind := do
  match ← ask Scanner.peek with
  | none => fail chunk .unfinishedString start
  | some quote =>
      advance 1
      let first ← ask (·.position.offset)
      let bytes ← loop (quotedRound features chunk start quote) ([], first)
      advance 1
      return .string bytes

open Scanner Quoted

variable {features : FeatureSet} {chunk : Option String} {quote : CodeUnit}
  {opening s now : Scanner} {bytes : ByteString} {first : Nat}

/-- The contents up to the scanner are elements with these bytes, and plain units from the
    offset `first` on. -/
def Gathers (features : FeatureSet) (quote : CodeUnit) (s : Scanner) (bytes : ByteString)
    (first : Nat) (now : Scanner) : Prop :=
  ∃ base text run, Moved s text base ∧ Seam text base.ahead
    ∧ Reaches features quote s.ahead bytes text base.ahead ∧ first = base.position.offset
    ∧ Moved base run now ∧ ∀ u ∈ run, isPlain quote u = true

theorem isBreak_of_isPlain {u : CodeUnit} (plain : isPlain quote u = true) : u.isBreak = false := by
  simp only [isPlain, Bool.and_eq_true, Bool.not_eq_true'] at plain
  exact plain.1.2

theorem Gathers.flush (h : Gathers features quote s bytes first now) (quoted : quote.isQuote = true)
    (ends : Stops (isPlain quote) now.ahead) :
    ∃ text run, Moved s text now ∧ Seam text now.ahead
      ∧ Reaches features quote s.ahead (bytes ++ .ofUnits run) text now.ahead
      ∧ Spans now first now.position.offset run := by
  obtain ⟨base, text, run, moved, seam, reaches, rfl, gone, plain⟩ := h
  have unbroken : ∀ u ∈ run, u.isBreak = false := fun u member => isBreak_of_isPlain (plain u member)
  have later : Reaches features quote base.ahead (.ofUnits run) run now.ahead := by
    rw [gone.ahead]
    exact .of_plain plain fun u head => isLowSurrogate_of_not_plain quoted (ends u head)
  rw [gone.ahead] at seam
  exact ⟨text ++ run, run, moved.trans gone seam.of_append, seam.append (Seam.of_forall unbroken _),
    reaches.trans later, base, now, gone.units.symm, gone, rfl, rfl⟩

theorem Gathers.advance {u : CodeUnit} {after : Scanner}
    (h : Gathers features quote s bytes first now) (plain : isPlain quote u = true)
    (step : Moved now [u] after) : Gathers features quote s bytes first after := by
  obtain ⟨base, text, run, moved, seam, reaches, start, gone, all⟩ := h
  exact ⟨base, text, run ++ [u], moved, seam, reaches, start,
    gone.concat step (isBreak_of_isPlain plain), forall_mem_append all (by simpa using plain)⟩

theorem ensures_unfinished {α : Type} {ok : α → Scanner → Prop} {text : List CodeUnit}
    (quoted : quote.isQuote = true) (opened : Moved opening [quote] s) (moved : Moved s text now)
    (read : Quoted.read features quote s.ahead = .error ⟨.unfinishedString, [], quote :: text⟩) :
    (fail chunk .unfinishedString opening.position : Scan α).Ensures now ok fun d after =>
      ∃ m, Quoted.read features quote s.ahead = .error m ∧ Fails chunk opening m d after := by
  have single : ∀ u ∈ [quote], u.isBreak = false := by simpa using CodeUnit.isBreak_of_isQuote quoted
  have whole := opened.trans moved (Seam.of_forall single _)
  exact ensures_fail_moved whole rfl fun _ fails => ⟨_, read, fails⟩

theorem step_ends {rest : List CodeUnit} (features : FeatureSet)
    (ends : ∀ u ∈ rest.head?, u ≠ quote ∧ u.isBreak = true) :
    Quoted.step features quote rest = .ending (.cutOff []) := by
  cases rest with
  | nil => rfl
  | cons u tail =>
      obtain ⟨different, broken⟩ := ends u rfl
      simp [Quoted.step, different, broken]

/-- The contents go on at the scanner, or have ended with a backslash. -/
def Continues (features : FeatureSet) (quote : CodeUnit) (s : Scanner) (state : ByteString × Nat)
    (now : Scanner) : Prop :=
  Gathers features quote s state.1 state.2 now
    ∨ now.ahead = [] ∧ ∃ text, Moved s text now
        ∧ Quoted.read features quote s.ahead = .error ⟨.unfinishedString, [], quote :: text⟩

theorem ensures_escapedRound {α : Type} {ok : α → Scanner → Prop} {text rest : List CodeUnit}
    (opened : Moved opening [quote] s) (quoted : quote.isQuote = true) (inside : .of '\\' ≠ quote)
    (ahead : now.ahead = .of '\\' :: rest) (moved : Moved s text now) (seam : Seam text now.ahead)
    (reaches : Reaches features quote s.ahead bytes text now.ahead) :
    (do
      let escaped ← escape features chunk
      return .inl (bytes ++ escaped, ← ask (·.position.offset)) : Scan ((ByteString × Nat) ⊕ α)).Ensures
        now (Round (Continues features quote s) ok now)
        (fun d after => ∃ m, Quoted.read features quote s.ahead = .error m
          ∧ Fails chunk opening m d after) := by
  cases rest with
  | nil =>
      have bare : step features quote now.ahead = .ending (.cutOff [.of '\\']) := by
        rw [ahead, step, if_neg inside]
        rfl
      have read : Quoted.read features quote s.ahead
          = .error ⟨.unfinishedString, [], quote :: (text ++ [.of '\\'])⟩ := reaches.read_cutOff bare
      apply Returns.bind (returns_escape_end ahead)
      rintro _ after ⟨rfl, gone⟩
      have finished : after.ahead = [] := gone.rest_eq ahead
      rw [gone.ahead] at seam
      refine ⟨.inr ⟨finished, text ++ [.of '\\'], moved.trans gone seam.of_append, read⟩, ?_⟩
      exact gone.remaining_lt (List.cons_ne_nil _ _)
  | cons v tail =>
      refine ensures_bind (ensures_escape ahead) ?_ ?_
      · rintro _ after ⟨reason, error, shifted, rfl⟩
        have misread : step features quote now.ahead = .ending (.misread reason
            (.of '\\' :: (v :: tail).take (Escape.read features v tail).width)) := by
          rw [ahead, step, if_neg inside]
          simp only [show (CodeUnit.of '\\').isBreak = false by decide, error]
          rfl
        have lead : Moved opening (quote :: text) now := opened.trans moved (Seam.of_forall
          (by simpa using CodeUnit.isBreak_of_isQuote quoted) _)
        have front : .of '\\' :: (v :: tail).take (Escape.read features v tail).width <+: now.ahead := by
          rw [ahead]
          exact List.prefix_cons_inj _ |>.2 (List.take_prefix _ _)
        exact ⟨_, reaches.read_misread misread,
          fails_of_shifted (m := ⟨_, _, _⟩) lead front shifted (Escape.inEscape_of_error error)⟩
      · rintro escaped after ⟨ok, gone, behind⟩
        have element := step_escape inside ok
        have rest : after.ahead = (v :: tail).drop (Escape.read features v tail).width := by
          apply gone.rest_eq
          rw [ahead, List.cons_append, List.take_append_drop]
        rw [← ahead, ← rest] at element
        rw [gone.ahead] at seam
        refine ⟨.inl ⟨after, _, [], moved.trans gone seam.of_append, seam.append behind,
          reaches.trans (.of_element element), rfl, Moved.refl after, by simp⟩, ?_⟩
        exact gone.remaining_lt (List.cons_ne_nil _ _)

/-- Scanning the contents of a string goes up to the quote, or fails as reading does. -/
theorem ensures_quotedContents (quoted : quote.isQuote = true) (opened : Moved opening [quote] s) :
    (loop (quotedRound features chunk opening.position quote) ([], s.position.offset)).Ensures s
      (fun bytes after => ∃ text rest, after.ahead = quote :: rest ∧ Moved s text after
        ∧ Quoted.read features quote s.ahead = .ok ⟨bytes, quote :: text ++ [quote], rest⟩)
      (fun d after => ∃ m, Quoted.read features quote s.ahead = .error m
        ∧ Fails chunk opening m d after) := by
  apply ensures_loop (Continues features quote s)
  · rintro ⟨bytes, first⟩ now (gathers | ⟨finished, text, moved, unfinished⟩)
    · apply ensures_ask_bind
      rw [peek_eq]
      cases ahead : now.ahead with
      | nil =>
          obtain ⟨text, run, moved, -, reaches, -⟩ := gathers.flush quoted (by rw [ahead]; exact Stops.nil)
          have read := reaches.read_cutOff (step_ends features (by rw [ahead]; simp))
          rw [List.append_nil] at read
          exact ensures_unfinished quoted opened moved read
      | cons u rest =>
          simp only [List.head?_cons]
          by_cases plain : isPlain quote u = true
          · have inside := plain
            simp only [isPlain, Bool.and_eq_true, Bool.not_eq_true', bne_iff_ne, ne_eq] at inside
            obtain ⟨⟨different, unbroken⟩, unescaped⟩ := inside
            rw [if_neg different, if_neg (by simp [unbroken]), if_neg unescaped]
            apply Returns.bind (returns_advance_unit ahead unbroken)
            rintro _ after ⟨step, -⟩
            exact ⟨.inl (gathers.advance plain step), step.remaining_lt (List.cons_ne_nil _ _)⟩
          have ends : Stops (isPlain quote) now.ahead := by
            intro v head
            rw [ahead] at head
            cases head
            simpa using plain
          obtain ⟨text, run, moved, seam, reaches, spans⟩ := gathers.flush quoted ends
          by_cases closes : u = quote
          · subst closes
            rw [if_pos rfl]
            apply ensures_ask_bind
            apply Returns.bind (returns_slice_spans spans rfl)
            rintro _ _ ⟨rfl, rfl⟩
            rw [ahead] at reaches
            exact ⟨text, rest, ahead, moved, reaches.read_closed⟩
          rw [if_neg closes]
          by_cases broken : u.isBreak = true
          · have read := reaches.read_cutOff
              (step_ends features (by rw [ahead]; rintro v ⟨⟩; exact ⟨closes, broken⟩))
            rw [List.append_nil] at read
            rw [if_pos broken]
            exact ensures_unfinished quoted opened moved read
          rw [if_neg broken]
          by_cases escaped : u = .of '\\'
          · subst escaped
            rw [if_pos rfl]
            apply ensures_ask_bind
            apply Returns.bind (returns_slice_spans spans rfl)
            rintro _ _ ⟨rfl, rfl⟩
            exact ensures_escapedRound opened quoted closes ahead moved seam reaches
          · simp [isPlain, closes, broken, escaped] at plain
    · apply ensures_ask_bind
      rw [peek_eq, finished]
      exact ensures_unfinished quoted opened moved unfinished
  · exact .inl ⟨s, [], [], Moved.refl s, Seam.nil_left _, Reaches.refl _ _ _, rfl, Moved.refl s, by simp⟩

theorem finds_quoted {input : List CodeUnit} (ahead : opening.ahead = quote :: input)
    (quoted : quote.isQuote = true) :
    Finds (Scan.quoted features chunk opening.position) chunk opening
      (.ofToken .string (Quoted.read features quote input)) := by
  have unbroken := CodeUnit.isBreak_of_isQuote quoted
  apply ensures_ask_bind
  rw [peek_eq, ahead]
  apply Returns.bind (returns_advance_unit ahead unbroken)
  rintro _ s ⟨opened, rfl⟩
  apply ensures_ask_bind
  refine ensures_bind (ensures_quotedContents quoted opened) ?_ ?_
  · rintro d after ⟨m, read, fails⟩
    rw [read]
    exact ⟨m, rfl, fails⟩
  · rintro bytes stop ⟨text, rest, closes, moved, read⟩
    apply Returns.bind (returns_advance_unit closes unbroken)
    rintro _ after ⟨step, rfl⟩
    have single : ∀ u ∈ [quote], u.isBreak = false := by simpa using unbroken
    rw [read]
    exact ⟨_, rfl, opened.trans (moved.concat step unbroken) (Seam.of_forall single _)⟩

end Scan

end LuaTokens
