import LuaTokens.Position

/-! # Line breaks

One pass from the left finds the line breaks of a source, and counting those that
end before an offset gives the line of the offset. Moving over text agrees with
the count wherever text is divided at a seam, a place that no line break spans.
-/

namespace LuaTokens

/-- The units from the offset `first` up to the offset `last`. -/
structure Extent where
  first : Nat
  last : Nat
  deriving Repr, DecidableEq

/-- The line breaks of text that begins at `offset`. -/
def lineBreaksFrom (offset : Nat) : List CodeUnit → List Extent
  | [] => []
  | [u] => if u.isBreak then [⟨offset, offset + 1⟩] else []
  | u :: v :: rest =>
      if u.isBreak then
        if v.isBreak && v != u then ⟨offset, offset + 2⟩ :: lineBreaksFrom (offset + 2) rest
        else ⟨offset, offset + 1⟩ :: lineBreaksFrom (offset + 1) (v :: rest)
      else lineBreaksFrom (offset + 1) (v :: rest)

def lineBreaks (source : List CodeUnit) : List Extent :=
  lineBreaksFrom 0 source

/-- The position of an offset: its line counts the line breaks that end at or
    before it, and begins where the last of them ends. -/
def positionAt (source : List CodeUnit) (offset : Nat) : Position :=
  let ended := (lineBreaks source).filter (·.last ≤ offset)
  ⟨1 + ended.length, (ended.getLast?.map Extent.last).getD 0, offset⟩

/-- Whether the offset is between the two units of one line break. -/
def InsideBreak (source : List CodeUnit) (offset : Nat) : Prop :=
  ∃ b ∈ lineBreaks source, b.first < offset ∧ offset < b.last

/-- The line break unit at the end of the text that a following one may still
    complete to a pair. -/
def openBreak : List CodeUnit → Option CodeUnit
  | [] => none
  | [u] => if u.isBreak then some u else none
  | u :: v :: rest =>
      if u.isBreak && (v.isBreak && v != u) then openBreak rest else openBreak (v :: rest)

/-- No line break spans the place between `before` and `after`. -/
def Seam (before after : List CodeUnit) : Prop :=
  ∀ u ∈ openBreak before, ∀ v ∈ after.head?, v.isBreak = true → v = u

namespace Seam

theorem nil_left (after : List CodeUnit) : Seam [] after := by
  intro u opened
  cases opened

theorem nil_right (before : List CodeUnit) : Seam before [] := by
  intro u _ v first
  cases first

theorem of_head {before after : List CodeUnit} (h : ∀ v ∈ after.head?, v.isBreak = false) :
    Seam before after := by
  intro u _ v first broken
  rw [h v first] at broken
  cases broken

private theorem openBreak_getLast {before : List CodeUnit} {u : CodeUnit}
    (h : openBreak before = some u) : before.getLast? = some u ∧ u.isBreak = true := by
  fun_induction openBreak before with
  | case1 => cases h
  | case2 v broken =>
      cases h
      exact ⟨rfl, broken⟩
  | case3 => cases h
  | case4 v w rest _ ih =>
      cases rest with
      | nil => cases h
      | cons x rest => simpa only [List.getLast?_cons_cons] using ih h
  | case5 v w rest _ ih => simpa only [List.getLast?_cons_cons] using ih h

theorem of_append {before text after : List CodeUnit} (h : Seam before (text ++ after)) :
    Seam before text := by
  cases text with
  | nil => exact nil_right before
  | cons u tail => exact h

theorem of_getLast {before after : List CodeUnit}
    (h : ∀ u ∈ before.getLast?, u.isBreak = false) : Seam before after := by
  intro u opened
  obtain ⟨last, broken⟩ := openBreak_getLast opened
  rw [h u last] at broken
  cases broken

theorem of_forall {before : List CodeUnit} (h : ∀ u ∈ before, u.isBreak = false)
    (after : List CodeUnit) : Seam before after :=
  of_getLast (fun u last => h u (List.mem_of_getLast? last))

theorem openBreak_append {before after : List CodeUnit} (seam : Seam before after)
    (nonempty : after ≠ []) : openBreak (before ++ after) = openBreak after := by
  fun_induction openBreak before with
  | case1 => rfl
  | case2 u broken =>
      obtain ⟨v, rest, rfl⟩ := List.exists_cons_of_ne_nil nonempty
      have unpaired : (v.isBreak && v != u) = false := by
        by_cases second : v.isBreak = true
        · simp [seam u (by simp [openBreak, broken]) v rfl second]
        · simp [second]
      simp [openBreak, unpaired]
  | case3 u unbroken =>
      obtain ⟨v, rest, rfl⟩ := List.exists_cons_of_ne_nil nonempty
      simp [openBreak, unbroken]
  | case4 u v rest pair ih =>
      simp only [List.cons_append, openBreak, pair, if_true]
      exact ih (fun w opened => seam w (by simpa [openBreak, pair] using opened))
  | case5 u v rest unpaired ih =>
      simp only [List.cons_append, openBreak, unpaired]
      exact ih (fun w opened => seam w (by simpa [openBreak, unpaired] using opened))

theorem append {first second after : List CodeUnit} (left : Seam first (second ++ after))
    (right : Seam second after) : Seam (first ++ second) after := by
  cases second with
  | nil => simpa using left
  | cons v rest =>
      have same : openBreak (first ++ v :: rest) = openBreak (v :: rest) :=
        openBreak_append left (by simp)
      intro u opened
      exact right u (by rwa [same] at opened)

end Seam

theorem seam_take_breakWidth (input : List CodeUnit) :
    Seam (input.take (CodeUnit.breakWidth input)) (input.drop (CodeUnit.breakWidth input)) := by
  match input with
  | [] => exact Seam.nil_left _
  | [u] =>
      simp only [CodeUnit.breakWidth]
      split
      · exact Seam.nil_right _
      · exact Seam.nil_left _
  | u :: v :: rest =>
      simp only [CodeUnit.breakWidth]
      split
      next broken =>
        split
        next paired =>
          intro w opened
          simp [openBreak, broken, paired] at opened
        next unpaired =>
          intro w opened x first second
          simp only [List.take_succ_cons, List.take_zero, openBreak, broken, if_true] at opened
          cases opened
          cases first
          simpa [second] using unpaired
      · exact Seam.nil_left _

theorem isBreak_take_breakWidth (input : List CodeUnit) :
    ∀ w ∈ input.take (CodeUnit.breakWidth input), w.isBreak = true := by
  match input with
  | [] => simp
  | [u] =>
      simp only [CodeUnit.breakWidth]
      split
      next broken => simpa using broken
      · simp
  | u :: v :: rest =>
      simp only [CodeUnit.breakWidth]
      split
      next broken =>
        split
        next paired =>
          simp only [Bool.and_eq_true] at paired
          simp [broken, paired.1]
        · simpa using broken
      · simp

/-- The pass over the whole finds the line breaks of the parts on both sides of a seam. -/
theorem lineBreaksFrom_append {before after : List CodeUnit} (seam : Seam before after)
    (offset : Nat) :
    lineBreaksFrom offset (before ++ after)
      = lineBreaksFrom offset before ++ lineBreaksFrom (offset + before.length) after := by
  fun_induction lineBreaksFrom offset before with
  | case1 => simp
  | case2 offset u broken =>
      cases after with
      | nil => simp [lineBreaksFrom, broken]
      | cons v rest =>
          have unpaired : (v.isBreak && v != u) = false := by
            by_cases second : v.isBreak = true
            · simp [seam u (by simp [openBreak, broken]) v rfl second]
            · simp [second]
          simp [lineBreaksFrom, broken, unpaired]
  | case3 offset u unbroken => cases after <;> simp [lineBreaksFrom, unbroken]
  | case4 offset u v rest broken paired ih =>
      have inner : Seam rest after :=
        fun w opened => seam w (by simpa [openBreak, broken, paired] using opened)
      simp only [List.cons_append, lineBreaksFrom, broken, paired, if_true, ih inner,
        List.length_cons]
      rw [show offset + (rest.length + 1 + 1) = offset + 2 + rest.length by omega]
  | case5 offset u v rest broken unpaired ih =>
      have inner : Seam (v :: rest) after :=
        fun w opened => seam w (by simpa [openBreak, broken, unpaired] using opened)
      have tail := ih inner
      simp only [List.cons_append, List.length_cons] at tail ⊢
      simp only [lineBreaksFrom, broken, unpaired, if_true, tail]
      rw [show offset + (rest.length + 1 + 1) = offset + 1 + (rest.length + 1) by omega]
      rfl
  | case6 offset u v rest unbroken ih =>
      have inner : Seam (v :: rest) after :=
        fun w opened => seam w (by simpa [openBreak, unbroken] using opened)
      have tail := ih inner
      simp only [List.cons_append, List.length_cons] at tail ⊢
      simp only [lineBreaksFrom, unbroken, tail]
      rw [show offset + (rest.length + 1 + 1) = offset + 1 + (rest.length + 1) by omega]
      rfl

theorem bounds_of_mem_lineBreaksFrom {offset : Nat} {text : List CodeUnit} {b : Extent}
    (h : b ∈ lineBreaksFrom offset text) :
    offset ≤ b.first ∧ b.first < b.last ∧ b.last ≤ offset + text.length := by
  fun_induction lineBreaksFrom offset text with
  | case1 => cases h
  | case2 => simp_all
  | case3 => cases h
  | case4 offset u v rest _ _ ih =>
      rcases List.mem_cons.1 h with rfl | later
      · simp
      · have := ih later
        simp only [List.length_cons]
        omega
  | case5 offset u v rest _ _ ih =>
      rcases List.mem_cons.1 h with rfl | later
      · simp
      · have := ih later
        simp only [List.length_cons] at this ⊢
        omega
  | case6 offset u v rest _ ih =>
      have := ih h
      simp only [List.length_cons] at this ⊢
      omega

theorem Position.advance_eq (p : Position) (text : List CodeUnit) :
    p.advance text = ⟨p.line + (lineBreaksFrom p.offset text).length,
      ((lineBreaksFrom p.offset text).getLast?.map Extent.last).getD p.lineStart,
      p.offset + text.length⟩ := by
  fun_induction Position.advance p text with
  | case1 => simp [lineBreaksFrom]
  | case2 p u broken => simp [lineBreaksFrom, broken, Position.breakLine]
  | case3 p u unbroken => simp [lineBreaksFrom, unbroken, Position.shift]
  | case4 p u v rest broken paired ih =>
      rw [ih]
      simp only [Position.breakLine, lineBreaksFrom, broken, paired, if_true, List.length_cons,
        List.getLast?_cons, Option.map_some, Option.getD_some]
      cases (lineBreaksFrom (p.offset + 2) rest).getLast? <;> simp <;> omega
  | case5 p u v rest broken unpaired ih =>
      rw [ih]
      simp only [Position.breakLine, lineBreaksFrom, broken, unpaired, if_true,
        Bool.false_eq_true, if_false, List.length_cons, List.getLast?_cons, Option.map_some,
        Option.getD_some]
      cases (lineBreaksFrom (p.offset + 1) (v :: rest)).getLast? <;> simp <;> omega
  | case6 p u v rest unbroken ih =>
      rw [ih]
      simp only [Position.shift, lineBreaksFrom, unbroken, List.length_cons]
      simp
      omega

@[simp] theorem Position.offset_advance (p : Position) (text : List CodeUnit) :
    (p.advance text).offset = p.offset + text.length := by
  rw [Position.advance_eq]

theorem Position.advance_append (p : Position) {before after : List CodeUnit}
    (seam : Seam before after) : p.advance (before ++ after) = (p.advance before).advance after := by
  simp only [Position.advance_eq, lineBreaksFrom_append seam, List.length_append,
    List.getLast?_append]
  cases (lineBreaksFrom (p.offset + before.length) after).getLast? <;> simp <;> omega

theorem lineBreaksFrom_of_unbroken {text : List CodeUnit} (unbroken : ∀ u ∈ text, u.isBreak = false)
    (offset : Nat) : lineBreaksFrom offset text = [] := by
  fun_induction lineBreaksFrom offset text with
  | case1 => rfl
  | case2 offset u broken => simp [unbroken u List.mem_cons_self] at broken
  | case3 => rfl
  | case4 offset u v rest broken => simp [unbroken u List.mem_cons_self] at broken
  | case5 offset u v rest broken => simp [unbroken u List.mem_cons_self] at broken
  | case6 offset u v rest _ ih => exact ih fun w member => unbroken w (List.mem_cons_of_mem _ member)

theorem Position.advance_of_unbroken (p : Position) {text : List CodeUnit}
    (unbroken : ∀ u ∈ text, u.isBreak = false) : p.advance text = p.shift text.length := by
  rw [Position.advance_eq, lineBreaksFrom_of_unbroken unbroken]
  rfl

/-- At a seam the count over the whole source is what moving over the text before it gives. -/
theorem positionAt_append {before after : List CodeUnit} (seam : Seam before after) :
    positionAt (before ++ after) before.length = Position.advance {} before := by
  have left : (lineBreaksFrom 0 before).filter (·.last ≤ before.length) = lineBreaksFrom 0 before := by
    rw [List.filter_eq_self]
    intro b member
    simpa using (bounds_of_mem_lineBreaksFrom member).2.2
  have right : (lineBreaksFrom (0 + before.length) after).filter (·.last ≤ before.length) = [] := by
    rw [List.filter_eq_nil_iff]
    intro b member ended
    have := bounds_of_mem_lineBreaksFrom member
    have : b.last ≤ before.length := by simpa using ended
    omega
  simp only [positionAt, lineBreaks, lineBreaksFrom_append seam, List.filter_append, left, right,
    List.append_nil, Position.advance_eq]
  simp

theorem not_insideBreak_append {before after : List CodeUnit} (seam : Seam before after) :
    ¬ InsideBreak (before ++ after) before.length := by
  rintro ⟨b, member, first, last⟩
  rw [lineBreaks, lineBreaksFrom_append seam, List.mem_append] at member
  rcases member with left | right
  · have := bounds_of_mem_lineBreaksFrom left
    omega
  · have := bounds_of_mem_lineBreaksFrom right
    omega

end LuaTokens
