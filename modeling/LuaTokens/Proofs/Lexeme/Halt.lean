import LuaTokens.Proofs.Lexeme.LineFeed

/-! # Where reading halts

Where reading fails, it stops behind the offending part. That is a seam, unless the part
is a faulty escape: such an escape covers one unit of whatever kind where another was
expected, so its last unit may be a line break, or even the first half of one.
-/

namespace LuaTokens

namespace Escape

variable {features : FeatureSet} {u v : CodeUnit} {input rest : List CodeUnit} {fault : Fault}

theorem mem_take_of_mem_dropLast {n k : Nat} (le : n ≤ k + 1) (member : u ∈ (input.take n).dropLast) :
    u ∈ input.take k := by
  rw [List.dropLast_eq_take, List.take_take, List.length_take] at member
  exact (List.take_prefix_take_left (by omega)).subset member

theorem isBreak_dropLast_hexadecimal (unbroken : v.isBreak = false) (input : List CodeUnit) :
    ∀ u ∈ ((v :: input).take (hexadecimal input).width).dropLast, u.isBreak = false := by
  match input with
  | [] => simp [hexadecimal]
  | [w] => simpa [hexadecimal] using unbroken
  | high :: low :: tail =>
      simp only [hexadecimal]
      split
      · simpa using unbroken
      next first =>
        have digit : high.isBreak = false :=
          CodeUnit.isBreak_eq_false CodeUnit.isHexDigit_spaces (by simpa using first)
        split <;> simp [unbroken, digit]

theorem width_codePoint_of_not_brace (missing : input.head? ≠ some (.of '\x7b')) :
    (codePoint input).width = 2 := by
  simp [codePoint, missing]

theorem width_codePoint_of_brace (tail : List CodeUnit) :
    (codePoint (.of '\x7b' :: tail)).width ≤ 3 + (tail.takeWhile CodeUnit.isHexDigit).length := by
  obtain ⟨zeros, significant, more, rfl, leading, first, all, stops⟩ := exists_parts tail
  have digits : (zeros ++ (significant ++ more)).takeWhile CodeUnit.isHexDigit = zeros ++ significant := by
    rw [← List.append_assoc]
    exact stops.takeWhile_append (isHexDigit_parts leading all)
  rw [codePoint_parts leading first all stops, digits]
  split
  · exact Nat.le_add_right _ _
  split
  · simp only [List.length_append]
    omega
  · unfold closing
    split
    · simp only
      omega
    split
    · simp only
      omega
    · simp only
      omega

theorem isBreak_dropLast_codePoint (unbroken : v.isBreak = false) (input : List CodeUnit) :
    ∀ u ∈ ((v :: input).take (codePoint input).width).dropLast, u.isBreak = false := by
  intro u member
  by_cases opens : input.head? = some (.of '\x7b')
  · obtain ⟨tail, rfl⟩ := List.head?_eq_some_iff.1 opens
    have fits := width_codePoint_of_brace tail
    have inside := mem_take_of_mem_dropLast (k := (tail.takeWhile CodeUnit.isHexDigit).length + 2) (by omega) member
    rw [List.take_succ_cons, List.take_succ_cons,
      ← List.prefix_iff_eq_take.1 (List.takeWhile_prefix (l := tail) CodeUnit.isHexDigit)] at inside
    simp only [List.mem_cons] at inside
    rcases inside with rfl | rfl | digit
    · exact unbroken
    · decide
    · exact CodeUnit.isBreak_eq_false CodeUnit.isHexDigit_spaces (List.mem_takeWhile_imp digit)
  · rw [width_codePoint_of_not_brace opens] at member
    obtain rfl := List.mem_singleton.1 (mem_take_of_mem_dropLast (k := 1) (Nat.le_refl 2) member)
    exact unbroken

/-- Only the last unit of a faulty escape may be a line break. -/
theorem isBreak_dropLast_of_error (error : (read features v rest).outcome = .error fault) :
    ∀ u ∈ ((v :: rest).take (read features v rest).width).dropLast, u.isBreak = false := by
  have unbroken : v.isBreak = false := by
    cases broken : v.isBreak with
    | false => rfl
    | true =>
        rw [read_of_isBreak broken] at error
        cases error
  cases form features v with
  | control byte h | lineBreak isBreak h | skip h | literal h =>
      rw [h] at error
      cases error
  | decimal digit h =>
      rw [h]
      exact fun u member => isBreak_take_decimal _ u (List.dropLast_subset _ member)
  | hexadecimal h =>
      rw [h]
      exact isBreak_dropLast_hexadecimal unbroken rest
  | codePoint h =>
      rw [h]
      exact isBreak_dropLast_codePoint unbroken rest
  | unknown h =>
      rw [h]
      exact fun u member => Utf16.isBreak_leading unbroken rest u (List.dropLast_subset _ member)

end Escape

/-- How the offending part ends before `rest`: as a faulty escape whose last unit alone may be
    a line break, or at a seam. -/
structure Misreading.Halts (m : Misreading) (rest : List CodeUnit) : Prop where
  escape : m.fault.inEscape = true → ∀ u ∈ m.culprit.dropLast, u.isBreak = false
  seam : m.fault.inEscape = false → Seam m.culprit rest

theorem Misreading.Halts.of_seam {m : Misreading} {rest : List CodeUnit}
    (outside : m.fault.inEscape = false) (seam : Seam m.culprit rest) : m.Halts rest :=
  ⟨fun inside => absurd (outside.symm.trans inside) Bool.false_ne_true, fun _ => seam⟩

namespace Quoted

variable {features : FeatureSet} {quote : CodeUnit} {input rest : List CodeUnit}

theorem seam_body (features : FeatureSet) (quote : CodeUnit) (input : List CodeUnit) :
    Seam (body features quote input).text (body features quote input).rest := by
  fun_induction body features quote input with
  | case1 input e rest element ih =>
      have seam := (step_unifyBreaks_of_element element).1
      rw [← text_append_rest_body features quote rest] at seam
      exact seam.append ih
  | case2 => exact Seam.nil_left _

theorem isBreak_dropLast_of_misread {fault : Fault} {culprit : List CodeUnit}
    (h : step features quote input = .ending (.misread fault culprit)) :
    fault.inEscape = true ∧ ∀ u ∈ culprit.dropLast, u.isBreak = false := by
  have found := form features quote input
  rw [h] at found
  cases found with
  | @misread v _ tail _ error =>
      refine ⟨Escape.inEscape_of_error error, ?_⟩
      have positive := Escape.width_pos features v tail
      have nonempty : (v :: tail).take (Escape.read features v tail).width ≠ [] := by
        simp
        omega
      rw [List.dropLast_cons_of_ne_nil nonempty]
      intro u member
      rcases List.mem_cons.1 member with rfl | inside
      · decide
      · exact Escape.isBreak_dropLast_of_error error u inside

theorem halts_of_read (isQuote : quote.isQuote = true) {m : Misreading}
    (h : read features quote input = .error m) :
    ∃ rest, quote :: input = m.lead ++ (m.culprit ++ rest) ∧ m.Halts rest := by
  have opening : ∀ u ∈ [quote], u.isBreak = false := by simpa using CodeUnit.isBreak_of_isQuote isQuote
  rcases misreading_of_read h with ⟨tail, rest, rfl, divided, cutOff⟩ | ⟨rest, lead, divided, misread⟩
  · have seam := seam_body features quote input
    rw [rest_body_eq divided] at seam
    obtain ⟨_, -, unbroken, -⟩ := tail_of_cutOff cutOff
    have ends : Seam ([quote] ++ ((body features quote input).text ++ tail)) rest :=
      .append (Seam.of_forall opening _) (seam.append (Seam.of_forall unbroken rest))
    rw [← List.append_assoc] at divided
    exact ⟨rest, congrArg (quote :: ·) divided, .of_seam rfl ends⟩
  · obtain ⟨inside, unbroken⟩ := isBreak_dropLast_of_misread misread
    refine ⟨rest, ?_, fun _ => unbroken, fun outside => ?_⟩
    · rw [lead]
      exact congrArg (quote :: ·) divided
    · rw [inside] at outside
      cases outside

end Quoted

namespace Lexeme

variable {g : Grammar} {input rest : List CodeUnit} {u : CodeUnit} {m : Misreading}

theorem halts_of_readLongString (begins : beginsLongString u rest = true)
    (h : readLongString (u :: rest) = .failed m) :
    ∃ after, u :: rest = m.lead ++ (m.culprit ++ after) ∧ m.Halts after := by
  rcases misreading_of_readLongString h with ⟨-, rfl⟩ | ⟨-, rfl⟩
  · exact ⟨[], by simp, .of_seam rfl (Seam.nil_right _)⟩
  · obtain ⟨rfl, -⟩ := beginsLongString_iff.1 begins
    refine ⟨_, (List.take_append_drop _ _).symm, .of_seam rfl (Seam.of_forall ?_ _)⟩
    intro v member
    rw [List.drop_one, List.tail_cons, Nat.add_comm, List.take_succ_cons, LongBracket.equalsSigns,
      ← List.prefix_iff_eq_take.1 (List.takeWhile_prefix _)] at member
    rcases List.mem_cons.1 member with rfl | sign
    · decide
    · obtain rfl : v = .of '=' := by simpa using List.mem_takeWhile_imp sign
      decide

theorem halts_of_readNumeral (h : Numeral.read input = .error m) :
    ∃ rest, input = m.lead ++ (m.culprit ++ rest) ∧ m.Halts rest := by
  have misread := h
  unfold Numeral.read at h
  simp only at h
  split at h
  · cases h
  · cases h
    refine ⟨_, (Numeral.text_append_rest_take input).symm, .of_seam rfl ?_⟩
    exact Seam.of_forall (Numeral.isBreak_of_misread misread) _

/-- Where reading fails, it halts at a seam or behind a faulty escape. -/
theorem halts_of_failed (h : read g input = .failed m) :
    ∃ rest, input = m.lead ++ (m.culprit ++ rest) ∧ m.Halts rest := by
  have found := form g input
  rw [h] at found
  generalize outcomeEq : Reading.failed m = outcome at found
  cases found with
  | finished | space | word => cases outcomeEq
  | comment line =>
      obtain ⟨-, rfl⟩ := misreading_of_readComment outcomeEq.symm
      exact ⟨[], by simp, .of_seam rfl (Seam.nil_right _)⟩
  | quoted rest isQuote => exact Quoted.halts_of_read isQuote (Reading.error_of_ofToken outcomeEq.symm)
  | numeral rest => exact halts_of_readNumeral (Reading.error_of_ofToken outcomeEq.symm)
  | longString rest begins => exact halts_of_readLongString begins outcomeEq.symm
  | symbol rest unspaced =>
      obtain ⟨-, -, rfl⟩ := misreading_of_readSymbol outcomeEq.symm
      have unbroken := CodeUnit.isBreak_of_not_isSpace unspaced
      exact ⟨rest, rfl, .of_seam rfl (Seam.of_forall (by simpa using unbroken) _)⟩

end Lexeme

end LuaTokens
