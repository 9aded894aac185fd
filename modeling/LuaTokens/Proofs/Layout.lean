import LuaTokens.Proofs.Coverage
import LuaTokens.Proofs.Lexeme.Lookahead

/-! # Layout

The text of every part of a run can be taken out of its source and placed between any
white space, and it is still read as the same part. Only a comment that ends with its
line needs a line break behind it.
-/

namespace LuaTokens

namespace Part

/-- The part without its place. -/
def content : Part → Token.Kind ⊕ ByteString × String
  | token t => .inl t.kind
  | comment c => .inr (c.body, c.raw)

def extent (p : Part) : Extent :=
  ⟨p.start.offset, p.stop.offset⟩

/-- Whether the part is a comment without a long bracket. -/
def isLineComment (source : List CodeUnit) (p : Part) : Bool :=
  p.comment?.isSome && LongBracket.level? ((p.slice source).drop 2) = none

end Part

/-- The texts one behind the other, each with white space behind it. -/
def weave (lead : List CodeUnit) : List (List CodeUnit × List CodeUnit) → List CodeUnit
  | [] => lead
  | (text, gap) :: more => lead ++ (text ++ weave gap more)

/-- Where the texts stand when they are woven behind `offset`. -/
def placesFrom (offset : Nat) (lead : List CodeUnit) :
    List (List CodeUnit × List CodeUnit) → List Extent
  | [] => []
  | (text, gap) :: more =>
      let first := offset + lead.length
      let last := first + text.length
      ⟨first, last⟩ :: placesFrom last gap more

/-- White space for the parts, one gap behind each of them and one at the front. Only
    the first and the last gap may be empty, and a gap behind a comment that is not long
    begins with a line break. -/
structure Layout (source : List CodeUnit) (lead : List CodeUnit)
    (gapped : List (Part × List CodeUnit)) : Prop where
  lead_spaces : ∀ u ∈ lead, u ∈ CodeUnit.spaces
  gap_spaces : ∀ entry ∈ gapped, ∀ u ∈ entry.2, u ∈ CodeUnit.spaces
  apart : ∀ entry ∈ gapped.dropLast, entry.2 ≠ []
  line_ends : ∀ entry ∈ gapped, entry.1.isLineComment source = true →
    ∀ u ∈ entry.2.head?, u.isBreak = true

namespace Layout

variable {source lead : List CodeUnit} {entry : Part × List CodeUnit}
  {more : List (Part × List CodeUnit)}

theorem tail (h : Layout source lead (entry :: more)) : Layout source entry.2 more := by
  refine ⟨h.gap_spaces entry List.mem_cons_self, ?_, ?_, ?_⟩
  · exact fun later member => h.gap_spaces later (List.mem_cons_of_mem _ member)
  · intro later member
    cases more with
    | nil => cases member
    | cons next more => exact h.apart later (List.mem_cons_of_mem _ member)
  · exact fun later member => h.line_ends later (List.mem_cons_of_mem _ member)

theorem gap_ne_nil (h : Layout source lead (entry :: more)) (followed : more ≠ []) :
    entry.2 ≠ [] := by
  obtain ⟨next, rest, rfl⟩ := List.exists_cons_of_ne_nil followed
  exact h.apart entry List.mem_cons_self

end Layout

theorem head?_weave {lead : List CodeUnit} {texts : List (List CodeUnit × List CodeUnit)}
    (apart : texts ≠ [] → lead ≠ []) : (weave lead texts).head? = lead.head? := by
  cases texts with
  | nil => rfl
  | cons entry more =>
      obtain ⟨u, tail, rfl⟩ := List.exists_cons_of_ne_nil (apart (by simp))
      rfl

theorem Lexeme.isSpace_eq_false {g : Grammar} {u : CodeUnit} {rest : List CodeUnit}
    {cut : Cut Lexeme} (h : read g (u :: rest) = .read cut) (solid : cut.value ≠ .space) :
    u.isSpace = false := by
  cases space : u.isSpace with
  | false => rfl
  | true =>
      rw [read_space space] at h
      cases h
      exact absurd rfl solid

theorem Trace.of_spaces {g : Grammar} {lead rest : List CodeUnit} (p : Position)
    (spaces : ∀ u ∈ lead, u ∈ CodeUnit.spaces) (stops : Stops CodeUnit.isSpace rest) :
    (of g p (lead ++ rest)).parts = (of g (p.advance lead) rest).parts
      ∧ (of g p (lead ++ rest)).misreading = (of g (p.advance lead) rest).misreading := by
  cases lead with
  | nil => exact ⟨rfl, rfl⟩
  | cons u tail =>
      have all : ∀ v ∈ u :: tail, v.isSpace = true :=
        fun v member => CodeUnit.isSpace_iff.2 (spaces v member)
      have read : Lexeme.read g (u :: tail ++ rest) = .read ⟨.space, u :: tail, rest⟩ := by
        rw [List.cons_append, Lexeme.read_space (all u List.mem_cons_self), ← List.cons_append,
          Cut.ofRun, stops.takeWhile_append all, stops.dropWhile_append all]
      rw [of_read read]
      exact ⟨parts_cons_of_none rfl _, rfl⟩

theorem Piece.content_part? (value : Lexeme) (text : List CodeUnit) (start other : Position) :
    (Piece.mk value text start).part?.map Part.content
      = (Piece.mk value text other).part?.map Part.content := by
  cases value <;> rfl

/-- On its own the text is read as one lexeme, with the content of the part. -/
def ReadsAs (g : Grammar) (text : List CodeUnit) (part : Part) : Prop :=
  ∃ value, Lexeme.read g text = .read ⟨value, text, []⟩
    ∧ ∀ start, (Piece.mk value text start).part?.map Part.content = some part.content

namespace ReadsAs

variable {g : Grammar} {text other : List CodeUnit} {part : Part}

theorem exists_read (h : ReadsAs g text part) (follows : Follows [] other)
    (ends : part.comment?.isSome = true → LongBracket.level? (text.drop 2) = none →
      Stops (!·.isBreak) other) :
    ∃ value, Lexeme.read g (text ++ other) = .read ⟨value, text, other⟩
      ∧ Stops CodeUnit.isSpace (text ++ other)
      ∧ ∀ start, (Piece.mk value text start).part?.map Part.content = some part.content := by
  obtain ⟨value, alone, content⟩ := h
  have solid : value ≠ .space := by
    rintro rfl
    have := content {}
    cases this
  refine ⟨value, ?_, ?_, content⟩
  · apply Lexeme.read_append _ follows (fun space => absurd space solid)
    · intro body comment
      apply ends
      have same := content {}
      subst comment
      simp only [Piece.part?, Option.map_some, Option.some.injEq] at same
      cases part with
      | token t => cases same
      | comment c => rfl
    · rwa [List.append_nil]
  · obtain ⟨u, tail, rfl⟩ := List.exists_cons_of_ne_nil (Lexeme.splits_of_read alone).text_ne_nil
    intro v first
    cases first
    exact Lexeme.isSpace_eq_false alone solid

end ReadsAs

/-- The texts that the parts have in the source, with their gaps. -/
def texts (source : List CodeUnit) (gapped : List (Part × List CodeUnit)) :
    List (List CodeUnit × List CodeUnit) :=
  gapped.map fun entry => (entry.1.slice source, entry.2)

theorem weave_texts_cons (source lead : List CodeUnit) (entry : Part × List CodeUnit)
    (more : List (Part × List CodeUnit)) :
    weave lead (texts source (entry :: more))
      = lead ++ (entry.1.slice source ++ weave entry.2 (texts source more)) :=
  rfl

theorem placesFrom_texts_cons (offset : Nat) (source lead : List CodeUnit)
    (entry : Part × List CodeUnit) (more : List (Part × List CodeUnit)) :
    placesFrom offset lead (texts source (entry :: more))
      = ⟨offset + lead.length, offset + lead.length + (entry.1.slice source).length⟩
        :: placesFrom (offset + lead.length + (entry.1.slice source).length) entry.2
          (texts source more) :=
  rfl

namespace Layout

variable {g : Grammar} {source lead : List CodeUnit} {entry : Part × List CodeUnit}
  {more : List (Part × List CodeUnit)}

theorem head?_rest (layout : Layout source lead (entry :: more)) :
    (weave entry.2 (texts source more)).head? = entry.2.head? := by
  apply head?_weave
  intro followed
  exact layout.gap_ne_nil (by simpa [texts] using followed)

theorem follows (layout : Layout source lead (entry :: more)) :
    Follows [] (weave entry.2 (texts source more)) := by
  apply Follows.of_space
  intro u first
  rw [layout.head?_rest] at first
  have space := layout.gap_spaces entry List.mem_cons_self u (List.mem_of_head? first)
  exact CodeUnit.isSpace_iff.2 space

theorem exists_read (layout : Layout source lead (entry :: more))
    (alone : ReadsAs g (entry.1.slice source) entry.1) :
    ∃ value, Lexeme.read g (entry.1.slice source ++ weave entry.2 (texts source more))
        = .read ⟨value, entry.1.slice source, weave entry.2 (texts source more)⟩
      ∧ Stops CodeUnit.isSpace (entry.1.slice source ++ weave entry.2 (texts source more))
      ∧ ∀ start, (Piece.mk value (entry.1.slice source) start).part?.map Part.content
          = some entry.1.content := by
  apply alone.exists_read layout.follows
  intro comment noBracket u first
  rw [layout.head?_rest] at first
  have line : entry.1.isLineComment source = true := by
    simp [Part.isLineComment, comment, noBracket]
  simpa using layout.line_ends entry List.mem_cons_self line u first

end Layout

/-- Texts that are lexemes on their own are read one by one from what is woven of them. -/
theorem Trace.of_weave {g : Grammar} {source lead : List CodeUnit}
    {gapped : List (Part × List CodeUnit)} (layout : Layout source lead gapped)
    (alone : ∀ entry ∈ gapped, ReadsAs g (entry.1.slice source) entry.1) (p : Position) :
    let again := of g p (weave lead (texts source gapped))
    again.misreading = none
      ∧ again.parts.map Part.content = gapped.map (·.1.content)
      ∧ again.parts.map Part.extent = placesFrom p.offset lead (texts source gapped) := by
  induction gapped generalizing lead p with
  | nil =>
      obtain ⟨parts, misreading⟩ := of_spaces (g := g) p layout.lead_spaces
        Stops.nil
      rw [List.append_nil, of_nil] at parts misreading
      simp only [texts, List.map_nil, weave]
      rw [parts, misreading]
      exact ⟨rfl, rfl, rfl⟩
  | cons entry more ih =>
      obtain ⟨value, read, stops, content⟩ := layout.exists_read (alone entry List.mem_cons_self)
      obtain ⟨parts, misreading⟩ := of_spaces p layout.lead_spaces stops
      obtain ⟨part, found, same⟩ := Option.map_eq_some_iff.1 (content (p.advance lead))
      have extent : part.extent = ⟨p.offset + lead.length,
          p.offset + lead.length + (entry.1.slice source).length⟩ := by
        simp [Part.extent, Piece.start_of_part? found, Piece.stop_of_part? found, Piece.stop]
      obtain ⟨fine, contents, extents⟩ := ih layout.tail
        (fun later member => alone later (List.mem_cons_of_mem _ member))
        ((p.advance lead).advance (entry.1.slice source))
      rw [Position.offset_advance, Position.offset_advance] at extents
      rw [of_read read] at parts misreading
      rw [parts_cons_of_some found] at parts
      rw [weave_texts_cons, placesFrom_texts_cons]
      refine ⟨misreading.trans fine, ?_, ?_⟩
      · rw [parts, List.map_cons, same]
        exact congrArg (_ :: ·) contents
      · rw [parts, List.map_cons, extent]
        exact congrArg (_ :: ·) extents

theorem Lexeme.text_of_hash {g : Grammar} {rest : List CodeUnit} {cut : Cut Lexeme}
    (h : read g (.of '#' :: rest) = .read cut) : cut.text = [.of '#'] := by
  have noWord : ¬ (CodeUnit.of '#').isNameStart g.extendedIdentifiers = true := by
    cases g.extendedIdentifiers <;> decide
  have single : ∀ p : Punctuator, p.units.head? = some (.of '#') → p.units = [.of '#'] := by
    intro p
    cases p <;> decide
  have symbol : readSymbol g (.of '#' :: rest) = .read cut := by
    rw [← h]
    exact (read_symbol (by decide) rfl (by simpa using noWord) (by decide) rfl rfl).symm
  rcases cut_of_readSymbol symbol with ⟨⟨after, dots⟩, -⟩ | ⟨sign, -, -, ⟨after, fits⟩, rfl⟩
  · have first : CodeUnit.of '.' = .of '#' := (List.cons.inj dots).1
    exact absurd first (by decide)
  · obtain ⟨u, units, shape⟩ := List.exists_cons_of_ne_nil sign.units_ne_nil
    rw [shape] at fits
    obtain ⟨rfl, -⟩ := List.cons.inj fits
    rw [single sign (by rw [shape]; rfl)]
    rfl

namespace Run

theorem skipped_weave {o : Options} {source lead : List CodeUnit}
    {gapped : List (Part × List CodeUnit)} (layout : Layout source lead gapped)
    (alone : ∀ entry ∈ gapped, ReadsAs o.grammar (entry.1.slice source) entry.1) :
    Session.skipped o (weave lead (texts source gapped)) = [] := by
  have unmarked : ¬ spellingUnits "#!" <+: weave lead (texts source gapped) := by
    rintro ⟨after, marked⟩
    have marked : .of '#' :: .of '!' :: after = weave lead (texts source gapped) := marked
    cases gapped with
    | nil =>
        have space := layout.lead_spaces (.of '#') (by
          rw [show lead = _ from marked.symm]
          exact List.mem_cons_self)
        revert space
        decide
    | cons entry more =>
        rw [weave_texts_cons] at marked
        cases lead with
        | cons u lead =>
            have space := layout.lead_spaces u List.mem_cons_self
            rw [← (List.cons.inj marked).1] at space
            revert space
            decide
        | nil =>
            obtain ⟨value, read, -, -⟩ := layout.exists_read (alone entry List.mem_cons_self)
            rw [List.nil_append] at marked
            rw [← marked] at read
            rw [show entry.1.slice source = _ from Lexeme.text_of_hash read] at marked
            have second : .of '!' :: after = weave entry.2 (texts source more) :=
              (List.cons.inj marked).2
            rcases layout.follows (.of '!') (by rw [← second]; rfl) with old | space
            · cases old
            · revert space
              decide
  have none : Session.shebang (weave lead (texts source gapped)) = [] :=
    if_neg fun marked => unmarked (List.isPrefixOf_iff_prefix.1 marked)
  rw [Session.skipped, none, ite_self]

theorem parts_weave {o : Options} (captured : o.comments = true) {source lead : List CodeUnit}
    {gapped : List (Part × List CodeUnit)} (layout : Layout source lead gapped)
    (alone : ∀ entry ∈ gapped, ReadsAs o.grammar (entry.1.slice source) entry.1) :
    let again := ofUnits o (weave lead (texts source gapped))
    again.failure = none
      ∧ again.parts.map Part.content = gapped.map (·.1.content)
      ∧ again.parts.map Part.extent = placesFrom 0 lead (texts source gapped) := by
  have unmarked : trace o (weave lead (texts source gapped))
      = .of o.grammar {} (weave lead (texts source gapped)) := by
    have skipped := skipped_weave layout alone
    simp only [Session.skipped] at skipped
    simp only [trace, Session.trace, Session.start, skipped]
    rfl
  obtain ⟨fine, contents, extents⟩ := Trace.of_weave layout alone {}
  refine ⟨?_, ?_, ?_⟩
  · rw [ofUnits_eq, unmarked]
    simp only [Trace.failure, fine, Option.map_none]
  · rw [parts_eq captured, unmarked, contents]
  · rw [parts_eq captured, unmarked, extents]

theorem readsAs_of_mem_parts {o : Options} (captured : o.comments = true)
    {source : List CodeUnit} {part : Part} (member : part ∈ (ofUnits o source).parts) :
    ReadsAs o.grammar (part.slice source) part := by
  rw [parts_eq captured] at member
  obtain ⟨piece, inTrace, found⟩ := List.mem_filterMap.1 member
  obtain ⟨before, after, readAt⟩ := readAt_of_mem_trace inTrace
  have alone := Lexeme.read_append readAt.read (Follows.nil_right after) (fun _ => Stops.nil)
    (fun _ _ _ => Stops.nil)
  rw [List.append_nil] at alone
  rw [readAt.slice_eq found]
  refine ⟨piece.value, alone, fun start => ?_⟩
  rw [Piece.content_part? piece.value piece.text start piece.start]
  exact congrArg (Option.map Part.content) found

/-- Layout does not matter. The parts of a run are the same in any layout, at the places
    that it gives them, and each of them is the same on its own. -/
theorem relayout (o : Options) (source : List CodeUnit) (captured : o.comments = true) :
    let parts := (ofUnits o source).parts
    (∀ lead gapped, gapped.map Prod.fst = parts → Layout source lead gapped →
        let again := ofUnits o (weave lead (texts source gapped))
        again.failure = none ∧ again.parts.map Part.content = parts.map Part.content
          ∧ again.parts.map Part.extent = placesFrom 0 lead (texts source gapped))
      ∧ ∀ part ∈ parts,
          let alone := ofUnits o (part.slice source)
          alone.failure = none ∧ alone.parts.map Part.content = [part.content]
            ∧ alone.parts.map Part.extent = [⟨0, (part.slice source).length⟩] := by
  intro parts
  refine ⟨?_, ?_⟩
  · intro lead gapped same layout
    have alone : ∀ entry ∈ gapped, ReadsAs o.grammar (entry.1.slice source) entry.1 := by
      intro entry member
      apply readsAs_of_mem_parts captured
      show entry.1 ∈ parts
      rw [← same]
      exact List.mem_map_of_mem member
    obtain ⟨fine, contents, extents⟩ := parts_weave captured layout alone
    refine ⟨fine, ?_, extents⟩
    rw [contents, ← same, List.map_map]
    rfl
  · intro part member
    have layout : Layout source [] [(part, [])] := by
      refine ⟨by simp, by simp, by simp, by simp⟩
    have alone : ∀ entry ∈ [(part, ([] : List CodeUnit))],
        ReadsAs o.grammar (entry.1.slice source) entry.1 := by
      intro entry single
      rw [List.mem_singleton.1 single]
      exact readsAs_of_mem_parts captured member
    have again := parts_weave captured layout alone
    simpa [weave, texts, placesFrom] using again

/-- A comment and three tokens, each put on a line of its own. -/
theorem relayout_lines :
    let o : Options := { comments := true }
    let source := spellingUnits "--c\nx = 1"
    let gapped := (ofUnits o source).parts.map fun part => (part, [CodeUnit.of '\n'])
    o.comments = true ∧ gapped.length = 4 ∧ gapped.map Prod.fst = (ofUnits o source).parts
      ∧ Layout source [] gapped
      ∧ (ofUnits o (weave [] (texts source gapped))).parts.map Part.content
        = (ofUnits o source).parts.map Part.content := by
  intro o source gapped
  have four : gapped.length = 4 := by
    rw [List.length_map, parts_eq rfl]
    decide +kernel
  have same : gapped.map Prod.fst = (ofUnits o source).parts := by
    simp [gapped, Function.comp_def]
  have layout : Layout source [] gapped := by
    have lineFeeds : ∀ entry ∈ gapped, entry.2 = [CodeUnit.of '\n'] := by
      intro entry member
      obtain ⟨part, -, rfl⟩ := List.mem_map.1 member
      rfl
    refine ⟨by simp, ?_, ?_, ?_⟩
    · intro entry member u lineFeed
      rw [lineFeeds entry member, List.mem_singleton] at lineFeed
      rw [lineFeed]
      decide
    · intro entry member
      rw [lineFeeds entry (List.dropLast_subset _ member)]
      exact List.cons_ne_nil _ _
    · intro entry member _ u first
      rw [lineFeeds entry member] at first
      cases first
      decide
  obtain ⟨-, contents, -⟩ := (relayout o source rfl).1 [] gapped same layout
  exact ⟨rfl, four, same, layout, contents⟩

end Run

end LuaTokens
