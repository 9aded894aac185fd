import LuaTokens.Proofs.Position.LineBreak
import LuaTokens.Proofs.Text.Follow

/-! # Line feeds for line breaks

Any text has a counterpart in which every line break is a single line feed. It is the
text itself where there are no line breaks, it begins alike up to the kind of a line
break, and moving over it leads to the same line and column.
-/

namespace LuaTokens

/-- The text with a line feed for each of its line breaks. -/
def unifyBreaks : List CodeUnit → List CodeUnit
  | [] => []
  | [u] => if u.isBreak then [0x0A] else [u]
  | u :: v :: rest =>
      if u.isBreak then
        if v.isBreak && v != u then 0x0A :: unifyBreaks rest
        else 0x0A :: unifyBreaks (v :: rest)
      else u :: unifyBreaks (v :: rest)

section UnifyBreaks

variable {u : CodeUnit} {text rest : List CodeUnit} {p : CodeUnit → Bool}

theorem unifyBreaks_cons_of_unbroken (unbroken : u.isBreak = false) (rest : List CodeUnit) :
    unifyBreaks (u :: rest) = u :: unifyBreaks rest := by
  cases rest <;> simp [unifyBreaks, unbroken]

theorem unifyBreaks_cons_of_isBreak (broken : u.isBreak = true) (rest : List CodeUnit) :
    unifyBreaks (u :: rest)
      = 0x0A :: unifyBreaks ((u :: rest).drop (CodeUnit.breakWidth (u :: rest))) := by
  cases rest with
  | nil => simp [unifyBreaks, CodeUnit.breakWidth, broken]
  | cons v rest =>
      simp only [unifyBreaks, CodeUnit.breakWidth, broken, if_true]
      split <;> rfl

theorem unifyBreaks_append_of_unbroken (unbroken : ∀ v ∈ text, v.isBreak = false)
    (rest : List CodeUnit) : unifyBreaks (text ++ rest) = text ++ unifyBreaks rest := by
  induction text with
  | nil => rfl
  | cons v text ih =>
      rw [List.cons_append, unifyBreaks_cons_of_unbroken (unbroken v List.mem_cons_self),
        ih fun w member => unbroken w (List.mem_cons_of_mem v member)]
      rfl

theorem unifyBreaks_of_unbroken (unbroken : ∀ v ∈ text, v.isBreak = false) : unifyBreaks text = text := by
  simpa only [unifyBreaks, List.append_nil] using unifyBreaks_append_of_unbroken unbroken []

theorem unifyBreaks_append {before after : List CodeUnit} (seam : Seam before after) :
    unifyBreaks (before ++ after) = unifyBreaks before ++ unifyBreaks after := by
  induction before using unifyBreaks.induct with
  | case1 => rfl
  | case2 u broken =>
      cases after with
      | nil => simp [unifyBreaks]
      | cons v rest =>
          have unpaired : (v.isBreak && v != u) = false := by
            by_cases second : v.isBreak = true
            · simp [seam u (by simp [openBreak, broken]) v rfl second]
            · simp [second]
          simp [unifyBreaks, broken, unpaired]
  | case3 u unbroken => cases after <;> simp [unifyBreaks, unbroken]
  | case4 u v rest broken paired ih =>
      have inner : Seam rest after :=
        fun w opened => seam w (by simpa [openBreak, broken, paired] using opened)
      simp only [List.cons_append, unifyBreaks, broken, paired, if_true, ih inner]
  | case5 u v rest broken unpaired ih =>
      have inner : Seam (v :: rest) after :=
        fun w opened => seam w (by simpa [openBreak, broken, unpaired] using opened)
      have tail := ih inner
      simp only [List.cons_append] at tail ⊢
      simp only [unifyBreaks, broken, unpaired, if_true, if_false, Bool.false_eq_true, tail,
        List.cons_append]
  | case6 u v rest unbroken ih =>
      have inner : Seam (v :: rest) after :=
        fun w opened => seam w (by simpa [openBreak, unbroken] using opened)
      have tail := ih inner
      simp only [List.cons_append] at tail ⊢
      simp only [unifyBreaks, unbroken, if_false, Bool.false_eq_true, tail, List.cons_append]

example : unifyBreaks (spellingUnits "a\r\n\n\rb\r\r\n") = spellingUnits "a\n\nb\n\n" := by decide

theorem divide_unifyBreaks {n : Nat} {input : List CodeUnit} (fits : n ≤ input.length)
    (unbroken : ∀ v ∈ input.take n, v.isBreak = false) :
    (unifyBreaks input).take n = input.take n
      ∧ (unifyBreaks input).drop n = unifyBreaks (input.drop n) := by
  have length : (input.take n).length = n := by rw [List.length_take, Nat.min_eq_left fits]
  have whole := unifyBreaks_append_of_unbroken unbroken (input.drop n)
  rw [List.take_append_drop] at whole
  rw [whole, List.take_left' length, List.drop_left' length]
  exact ⟨rfl, rfl⟩

theorem head?_unifyBreaks (input : List CodeUnit) :
    (unifyBreaks input).head? = input.head?.map fun u => if u.isBreak then 0x0A else u := by
  cases input with
  | nil => rfl
  | cons u rest =>
      cases broken : u.isBreak with
      | true => simp [unifyBreaks_cons_of_isBreak broken, broken]
      | false => simp [unifyBreaks_cons_of_unbroken broken, broken]

theorem unifyBreaks_ne_nil (nonempty : text ≠ []) : unifyBreaks text ≠ [] := by
  obtain ⟨u, rest, rfl⟩ := List.exists_cons_of_ne_nil nonempty
  intro empty
  have first := head?_unifyBreaks (u :: rest)
  rw [empty] at first
  cases first

theorem follows_unifyBreaks (rest : List CodeUnit) : Follows rest (unifyBreaks rest) := by
  intro u first
  rw [head?_unifyBreaks, Option.mem_def, Option.map_eq_some_iff] at first
  obtain ⟨v, same, rfl⟩ := first
  cases broken : v.isBreak with
  | true => exact .inr rfl
  | false => exact .inl same

theorem head?_unifyBreaks_eq_some {v : CodeUnit} (unbroken : v.isBreak = false) (input : List CodeUnit) :
    (unifyBreaks input).head? = some v ↔ input.head? = some v := by
  have differs : ∀ w : CodeUnit, w.isBreak = true → w ≠ v := by
    rintro w broken rfl
    rw [unbroken] at broken
    cases broken
  rw [head?_unifyBreaks]
  cases input with
  | nil => rfl
  | cons u rest =>
      cases broken : u.isBreak with
      | true => simp [broken, differs u broken, differs 0x0A (by decide)]
      | false => simp [broken]

theorem any_head?_unifyBreaks (none : ∀ v : CodeUnit, v.isBreak = true → p v = false)
    (input : List CodeUnit) : (unifyBreaks input).head?.any p = input.head?.any p := by
  rw [head?_unifyBreaks]
  cases input with
  | nil => rfl
  | cons u rest =>
      cases broken : u.isBreak with
      | true => simp [broken, none u broken, none 0x0A (by decide)]
      | false => simp [broken]

theorem eq_lineFeed_of_mem_head? {v : CodeUnit} (first : v ∈ (unifyBreaks rest).head?)
    (broken : v.isBreak = true) : v = 0x0A := by
  rw [head?_unifyBreaks, Option.mem_def, Option.map_eq_some_iff] at first
  obtain ⟨w, -, rfl⟩ := first
  split at broken
  next other => exact if_pos other
  next unbroken => exact absurd broken unbroken

theorem unpaired_unifyBreaks {v : CodeUnit} (first : v ∈ (unifyBreaks rest).head?) :
    (v.isBreak && v != 0x0A) = false := by
  cases broken : v.isBreak with
  | false => rfl
  | true => simp [eq_lineFeed_of_mem_head? first broken]

theorem breakWidth_unifyBreaks (input : List CodeUnit) :
    CodeUnit.breakWidth (unifyBreaks input)
      = (unifyBreaks (input.take (CodeUnit.breakWidth input))).length := by
  cases input with
  | nil => rfl
  | cons u rest =>
      cases broken : u.isBreak with
      | false =>
          have none := CodeUnit.breakWidth_of_unbroken broken
          rw [unifyBreaks_cons_of_unbroken broken, none, none]
          rfl
      | true =>
          have one : (unifyBreaks ((u :: rest).take (CodeUnit.breakWidth (u :: rest)))).length = 1 := by
            cases rest with
            | nil => simp [CodeUnit.breakWidth, unifyBreaks, broken]
            | cons v rest =>
                simp only [CodeUnit.breakWidth, broken, if_true]
                split
                next paired => simp [unifyBreaks, broken, paired]
                next => simp [unifyBreaks, broken]
          rw [one, unifyBreaks_cons_of_isBreak broken]
          generalize (u :: rest).drop (CodeUnit.breakWidth (u :: rest)) = later
          have unpaired := @unpaired_unifyBreaks later
          cases unified : unifyBreaks later with
          | nil => rfl
          | cons v tail =>
              rw [unified] at unpaired
              simp [CodeUnit.breakWidth, unpaired rfl, show CodeUnit.isBreak 0x0A = true by decide]

theorem drop_breakWidth_unifyBreaks (input : List CodeUnit) :
    (unifyBreaks input).drop (CodeUnit.breakWidth (unifyBreaks input))
      = unifyBreaks (input.drop (CodeUnit.breakWidth input)) := by
  have whole := unifyBreaks_append (seam_take_breakWidth input)
  rw [List.take_append_drop] at whole
  rw [breakWidth_unifyBreaks, whole, List.drop_left]

theorem mem_unifyBreaks {v : CodeUnit} (member : v ∈ unifyBreaks text) : v = 0x0A ∨ v ∈ text := by
  induction text using unifyBreaks.induct with
  | case1 => cases member
  | case2 u broken =>
      simp only [unifyBreaks, broken, if_true, List.mem_singleton] at member
      exact .inl member
  | case3 u unbroken =>
      simp only [unifyBreaks, unbroken, if_false, Bool.false_eq_true] at member
      exact .inr member
  | case4 u w rest broken paired ih =>
      simp only [unifyBreaks, broken, paired, if_true, List.mem_cons] at member
      rcases member with first | later
      · exact .inl first
      · exact (ih later).imp_right fun inside => List.mem_cons_of_mem u (List.mem_cons_of_mem w inside)
  | case5 u w rest broken unpaired ih =>
      simp only [unifyBreaks, broken, unpaired, if_true, if_false, Bool.false_eq_true,
        List.mem_cons] at member
      rcases member with first | later
      · exact .inl first
      · exact (ih later).imp_right fun inside => List.mem_cons_of_mem u inside
  | case6 u w rest unbroken ih =>
      simp only [unifyBreaks, unbroken, if_false, Bool.false_eq_true, List.mem_cons] at member
      rcases member with rfl | later
      · exact .inr List.mem_cons_self
      · exact (ih later).imp_right fun inside => List.mem_cons_of_mem u inside

theorem prefix_unifyBreaks {pattern : List CodeUnit} (unbroken : ∀ v ∈ pattern, v.isBreak = false)
    (input : List CodeUnit) : pattern <+: unifyBreaks input ↔ pattern <+: input := by
  induction pattern generalizing input with
  | nil => simp
  | cons v pattern ih =>
      have solid := unbroken v List.mem_cons_self
      have later := ih fun w member => unbroken w (List.mem_cons_of_mem v member)
      cases input with
      | nil => rfl
      | cons u rest =>
          cases broken : u.isBreak with
          | true =>
              have differs : ∀ w : CodeUnit, w.isBreak = true → v ≠ w := by
                rintro w broken rfl
                rw [solid] at broken
                cases broken
              rw [unifyBreaks_cons_of_isBreak broken, List.cons_prefix_cons, List.cons_prefix_cons]
              simp only [differs u broken, differs 0x0A (by decide), false_and]
          | false =>
              rw [unifyBreaks_cons_of_unbroken broken, List.cons_prefix_cons, List.cons_prefix_cons,
                later]

end UnifyBreaks

section Runs

variable {input rest : List CodeUnit} {p : CodeUnit → Bool}

theorem CodeUnit.forall_isBreak {b : Bool} (lineFeed : p 0x0A = b) (carriageReturn : p 0x0D = b) :
    ∀ v : CodeUnit, v.isBreak = true → p v = b := by
  intro v broken
  simp only [CodeUnit.isBreak, Bool.or_eq_true, beq_iff_eq] at broken
  rcases broken with rfl | rfl
  · exact lineFeed
  · exact carriageReturn

/-- What stops a run goes on to stop it if the run takes all line breaks or none. -/
theorem Stops.unifyBreaks (alike : ∀ v : CodeUnit, v.isBreak = true → p v = p 0x0A)
    (h : Stops p rest) : Stops p (unifyBreaks rest) := by
  intro u first
  rw [head?_unifyBreaks, Option.mem_def, Option.map_eq_some_iff] at first
  obtain ⟨v, same, rfl⟩ := first
  split
  next broken => exact (alike v broken).symm.trans (h v same)
  next => exact h v same

theorem run_unifyBreaks (none : ∀ v : CodeUnit, v.isBreak = true → p v = false) (input : List CodeUnit) :
    (unifyBreaks input).takeWhile p = input.takeWhile p
      ∧ (unifyBreaks input).dropWhile p = unifyBreaks (input.dropWhile p) := by
  have all : ∀ v ∈ input.takeWhile p, p v = true := fun v member => List.mem_takeWhile_imp member
  have unbroken : ∀ v ∈ input.takeWhile p, v.isBreak = false := by
    intro v member
    by_contra broken
    have outside := none v (by simpa using broken)
    rw [all v member] at outside
    cases outside
  have stops : Stops p (unifyBreaks (input.dropWhile p)) :=
    (stops_dropWhile input).unifyBreaks fun v broken => (none v broken).trans (none 0x0A (by decide)).symm
  have whole := unifyBreaks_append_of_unbroken unbroken (input.dropWhile p)
  rw [List.takeWhile_append_dropWhile] at whole
  rw [whole]
  exact ⟨stops.takeWhile_append all, stops.dropWhile_append all⟩

theorem spaces_unifyBreaks (input : List CodeUnit) :
    (unifyBreaks input).takeWhile CodeUnit.isSpace = unifyBreaks (input.takeWhile CodeUnit.isSpace)
      ∧ (unifyBreaks input).dropWhile CodeUnit.isSpace
        = unifyBreaks (input.dropWhile CodeUnit.isSpace) := by
  have stops : Stops CodeUnit.isSpace (input.dropWhile CodeUnit.isSpace) := stops_dropWhile input
  have seam : Seam (input.takeWhile CodeUnit.isSpace) (input.dropWhile CodeUnit.isSpace) :=
    Seam.of_head fun v first => CodeUnit.isBreak_of_not_isSpace (stops v first)
  have all : ∀ v ∈ unifyBreaks (input.takeWhile CodeUnit.isSpace), v.isSpace = true := by
    intro v member
    rcases mem_unifyBreaks member with rfl | inside
    · rfl
    · exact List.mem_takeWhile_imp inside
  have behind := stops.unifyBreaks (CodeUnit.forall_isBreak rfl rfl)
  have whole := unifyBreaks_append seam
  rw [List.takeWhile_append_dropWhile] at whole
  rw [whole]
  exact ⟨behind.takeWhile_append all, behind.dropWhile_append all⟩

end Runs

namespace Position

theorem advance_cons_of_unbroken (p : Position) {u : CodeUnit} (unbroken : u.isBreak = false)
    (rest : List CodeUnit) : p.advance (u :: rest) = (p.shift 1).advance rest := by
  cases rest <;> simp [advance, unbroken]

theorem advance_lineFeed (p : Position) (rest : List CodeUnit) :
    p.advance (0x0A :: unifyBreaks rest) = (p.breakLine 1).advance (unifyBreaks rest) := by
  have unpaired := @unpaired_unifyBreaks rest
  cases unified : unifyBreaks rest with
  | nil => rfl
  | cons v tail =>
      rw [unified] at unpaired
      simp [advance, unpaired rfl, show CodeUnit.isBreak 0x0A = true by decide]

/-- The same line and the same column. -/
structure Alike (p q : Position) : Prop where
  line_eq : p.line = q.line
  offset_add : p.offset + q.lineStart = q.offset + p.lineStart

namespace Alike

variable {p q : Position}

theorem refl (p : Position) : p.Alike p :=
  ⟨rfl, rfl⟩

theorem column_eq (h : p.Alike q) : p.column = q.column := by
  have := h.offset_add
  unfold column
  omega

theorem shift (h : p.Alike q) (count : Nat) : (p.shift count).Alike (q.shift count) := by
  refine ⟨h.line_eq, ?_⟩
  have := h.offset_add
  simp only [Position.shift]
  omega

theorem breakLine (h : p.Alike q) (width other : Nat) : (p.breakLine width).Alike (q.breakLine other) := by
  refine ⟨congrArg (· + 1) h.line_eq, ?_⟩
  simp only [Position.breakLine]
  omega

theorem advance (h : p.Alike q) (text : List CodeUnit) :
    (p.advance (unifyBreaks text)).Alike (q.advance text) := by
  induction q, text using Position.advance.induct generalizing p with
  | case1 q => exact h
  | case2 q u broken =>
      simp only [unifyBreaks, Position.advance, broken, if_true]
      exact h.breakLine 1 1
  | case3 q u unbroken =>
      simp only [unifyBreaks, Position.advance, unbroken, if_false, Bool.false_eq_true]
      exact h.shift 1
  | case4 q u v rest broken paired ih =>
      simp only [unifyBreaks, Position.advance, broken, paired, if_true, advance_lineFeed]
      exact ih (h.breakLine 1 2)
  | case5 q u v rest broken unpaired ih =>
      simp only [unifyBreaks, Position.advance, broken, unpaired, if_true, if_false,
        Bool.false_eq_true, advance_lineFeed]
      exact ih (h.breakLine 1 1)
  | case6 q u v rest unbroken ih =>
      rw [unifyBreaks_cons_of_unbroken (by simpa using unbroken),
        advance_cons_of_unbroken p (by simpa using unbroken)]
      simp only [Position.advance, unbroken, if_false, Bool.false_eq_true]
      exact ih (h.shift 1)

end Alike

end Position

end LuaTokens
