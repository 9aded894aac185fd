import LuaTokens.Lexeme.Cut
import LuaTokens.Lexeme.Escape

/-! # Quoted strings

A quoted string is a quote, elements, and the same quote. An element is one code
point that stands for itself, or an escape. The string ends in failure at a line
break that is not escaped, at the end of the source, and at a faulty escape.
-/

namespace LuaTokens.Quoted

/-- One element and the bytes it contributes. -/
structure Element where
  text : List CodeUnit
  bytes : ByteString
  deriving Repr, DecidableEq

/-- How the elements of a string come to an end. -/
inductive Ending where
  /-- The closing quote is next. -/
  | closed
  /-- A line break or the end of the source is next, after a last backslash if
      `tail` has one. -/
  | cutOff (tail : List CodeUnit)
  | misread (fault : Fault) (culprit : List CodeUnit)
  deriving Repr, DecidableEq

/-- What the next units of a string are. -/
inductive Step where
  | element (e : Element) (rest : List CodeUnit)
  | ending (e : Ending)
  deriving Repr, DecidableEq

/-- Read one element or recognize the end. -/
def step (features : FeatureSet) (quote : CodeUnit) : List CodeUnit → Step
  | [] => .ending (.cutOff [])
  | u :: rest =>
      if u = quote then .ending .closed
      else if u.isBreak then .ending (.cutOff [])
      else if u ≠ .of '\\' then
        let width := Utf16.leadingWidth (u :: rest)
        let point := (u :: rest).take width
        .element ⟨point, .ofUnits point⟩ ((u :: rest).drop width)
      else
        match rest with
        | [] => .ending (.cutOff [u])
        | v :: tail =>
            let escape := Escape.read features v tail
            let text := u :: rest.take escape.width
            match escape.outcome with
            | .ok bytes => .element ⟨text, bytes⟩ (rest.drop escape.width)
            | .error fault => .ending (.misread fault text)

/-- The elements of a string up to its ending, and what is left there. -/
structure Body where
  elements : List Element
  ending : Ending
  rest : List CodeUnit
  deriving Repr, DecidableEq

namespace Body

def cons (e : Element) (body : Body) : Body :=
  { body with elements := e :: body.elements }

/-- The text of the elements. -/
def text (body : Body) : List CodeUnit :=
  body.elements.flatMap (·.text)

/-- The bytes of the elements. -/
def bytes (body : Body) : ByteString :=
  body.elements.flatMap (·.bytes)

end Body

theorem text_append_of_step {features : FeatureSet} {quote : CodeUnit} {input rest : List CodeUnit}
    {e : Element} (h : step features quote input = .element e rest) : e.text ++ rest = input := by
  unfold step at h
  split at h
  · cases h
  split at h
  · cases h
  split at h
  · cases h
  split at h
  · cases h
    exact List.take_append_drop _ _
  split at h
  · cases h
  simp only at h
  split at h
  · cases h
    simp
  · cases h

theorem text_ne_nil_of_step {features : FeatureSet} {quote : CodeUnit} {input rest : List CodeUnit}
    {e : Element} (h : step features quote input = .element e rest) : e.text ≠ [] := by
  unfold step at h
  split at h
  · cases h
  split at h
  · cases h
  split at h
  · cases h
  split at h
  next u tail _ _ _ =>
    cases h
    have positive := Utf16.leadingWidth_pos u tail
    simp
    omega
  split at h
  · cases h
  simp only at h
  split at h
  · cases h
    simp
  · cases h

theorem length_lt_of_step {features : FeatureSet} {quote : CodeUnit} {input rest : List CodeUnit}
    {e : Element} (h : step features quote input = .element e rest) :
    rest.length < input.length := by
  have nonempty := List.length_pos_iff.2 (text_ne_nil_of_step h)
  rw [← text_append_of_step h, List.length_append]
  omega

/-- Read elements as far as they go. -/
def body (features : FeatureSet) (quote : CodeUnit) (input : List CodeUnit) : Body :=
  match _h : step features quote input with
  | .element e rest => (body features quote rest).cons e
  | .ending ending => ⟨[], ending, input⟩
termination_by input.length
decreasing_by exact length_lt_of_step _h

theorem text_append_rest_body (features : FeatureSet) (quote : CodeUnit) (input : List CodeUnit) :
    (body features quote input).text ++ (body features quote input).rest = input := by
  fun_induction body features quote input with
  | case1 input e rest h ih =>
    have same := text_append_of_step h
    simp only [Body.text, Body.cons, List.flatMap_cons, List.append_assoc] at ih ⊢
    rw [ih, same]
  | case2 => simp [Body.text]

theorem head_of_step_closed {features : FeatureSet} {quote : CodeUnit} {input : List CodeUnit}
    (h : step features quote input = .ending .closed) : ∃ rest, input = quote :: rest := by
  unfold step at h
  split at h
  · cases h
  split at h
  next rest same => exact ⟨rest, by rw [same]⟩
  split at h
  · cases h
  split at h
  · cases h
  split at h
  · cases h
  simp only at h
  split at h <;> cases h

theorem rest_body_of_closed {features : FeatureSet} {quote : CodeUnit} {input : List CodeUnit}
    (h : (body features quote input).ending = .closed) :
    ∃ rest, (body features quote input).rest = quote :: rest := by
  fun_induction body features quote input with
  | case1 input e rest _ ih => exact ih h
  | case2 input ending same =>
    cases h
    exact head_of_step_closed same

/-- Read the string whose opening quote stands before `input`. -/
def read (features : FeatureSet) (quote : CodeUnit) (input : List CodeUnit) :
    Except Misreading (Cut ByteString) :=
  let content := body features quote input
  match content.ending with
  | .closed => .ok ⟨content.bytes, quote :: content.text ++ [quote], content.rest.drop 1⟩
  | .cutOff tail => .error ⟨.unfinishedString, [], quote :: content.text ++ tail⟩
  | .misread fault culprit => .error ⟨fault, quote :: content.text, culprit⟩

theorem splits_of_read {features : FeatureSet} {quote : CodeUnit} {input : List CodeUnit}
    {cut : Cut ByteString} (h : read features quote input = .ok cut) :
    cut.Splits (quote :: input) := by
  unfold read at h
  simp only at h
  split at h
  next closed =>
    obtain ⟨rest, same⟩ := rest_body_of_closed closed
    have whole := text_append_rest_body features quote input
    cases h
    rw [same] at whole ⊢
    refine ⟨?_, by simp⟩
    simpa using whole
  all_goals cases h

end LuaTokens.Quoted
