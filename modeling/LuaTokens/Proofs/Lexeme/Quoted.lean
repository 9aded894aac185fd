import LuaTokens.Lexeme.Quoted
import LuaTokens.Proofs.Lexeme.Escape

/-! # What a quoted string looks at

Each element of a string looks at one unit behind it at most, and the closing quote
looks at nothing, so a closed string is read the same whatever follows it. A string
that is not closed stops at a line break, at the end of the source, or at the
backslash of a faulty escape. A run of units that stand for themselves has its own bytes,
however it divides into elements.
-/

namespace LuaTokens.Quoted

variable {features : FeatureSet} {quote : CodeUnit} {input : List CodeUnit}

/-- The units that begin an element or an ending, with what is read there. -/
inductive Form (features : FeatureSet) (quote : CodeUnit) : List CodeUnit → Step → Prop where
  | finished : Form features quote [] (.ending (.cutOff []))
  | closed (rest : List CodeUnit) : Form features quote (quote :: rest) (.ending .closed)
  | lineBreak {u : CodeUnit} (rest : List CodeUnit) (inside : u ≠ quote) (broken : u.isBreak = true) :
      Form features quote (u :: rest) (.ending (.cutOff []))
  | plain {u : CodeUnit} (rest : List CodeUnit) (inside : u ≠ quote) (unbroken : u.isBreak = false)
      (unescaped : u ≠ .of '\\') :
      Form features quote (u :: rest)
        (.element ⟨(u :: rest).take (Utf16.leadingWidth (u :: rest)),
            .ofUnits ((u :: rest).take (Utf16.leadingWidth (u :: rest)))⟩
          ((u :: rest).drop (Utf16.leadingWidth (u :: rest))))
  | bare (inside : .of '\\' ≠ quote) :
      Form features quote [.of '\\'] (.ending (.cutOff [.of '\\']))
  | escape {v : CodeUnit} {bytes : ByteString} (rest : List CodeUnit) (inside : .of '\\' ≠ quote)
      (ok : (Escape.read features v rest).outcome = .ok bytes) :
      Form features quote (.of '\\' :: v :: rest)
        (.element ⟨.of '\\' :: (v :: rest).take (Escape.read features v rest).width, bytes⟩
          ((v :: rest).drop (Escape.read features v rest).width))
  | misread {v : CodeUnit} {fault : Fault} (rest : List CodeUnit) (inside : .of '\\' ≠ quote)
      (error : (Escape.read features v rest).outcome = .error fault) :
      Form features quote (.of '\\' :: v :: rest)
        (.ending (.misread fault (.of '\\' :: (v :: rest).take (Escape.read features v rest).width)))

theorem form (features : FeatureSet) (quote : CodeUnit) (input : List CodeUnit) :
    Form features quote input (step features quote input) := by
  cases input with
  | nil => exact .finished
  | cons u rest =>
      rw [step.eq_def]
      simp only
      split
      next same =>
        subst same
        exact .closed rest
      next inside =>
        split
        next broken => exact .lineBreak rest inside broken
        next unbroken =>
          rw [Bool.not_eq_true] at unbroken
          split
          next unescaped => exact .plain rest inside unbroken unescaped
          next escaped =>
            obtain rfl := Classical.not_not.1 escaped
            cases rest with
            | nil => exact .bare inside
            | cons v tail =>
                simp only
                split
                next bytes ok => exact .escape tail inside ok
                next fault error => exact .misread tail inside error

theorem body_of_element {e : Element} {rest : List CodeUnit}
    (h : step features quote input = .element e rest) :
    body features quote input = (body features quote rest).cons e := by
  rw [body]
  split
  next element =>
    rw [h] at element
    cases element
    rfl
  next ending =>
    rw [h] at ending
    cases ending

theorem body_of_ending {ending : Ending} (h : step features quote input = .ending ending) :
    body features quote input = ⟨[], ending, input⟩ := by
  rw [body]
  split
  next element =>
    rw [h] at element
    cases element
  next other =>
    rw [h] at other
    cases other
    rfl

theorem step_rest_body (features : FeatureSet) (quote : CodeUnit) (input : List CodeUnit) :
    step features quote (body features quote input).rest
      = .ending (body features quote input).ending := by
  fun_induction body features quote input with
  | case1 input e rest _ ih => exact ih
  | case2 input ending h => exact h

theorem rest_body_eq {rest : List CodeUnit} (divided : input = (body features quote input).text ++ rest) :
    (body features quote input).rest = rest :=
  List.append_cancel_left ((text_append_rest_body features quote input).trans divided)

theorem closed_of_read {cut : Cut ByteString} (ok : read features quote input = .ok cut) :
    (body features quote input).ending = .closed := by
  unfold read at ok
  simp only at ok
  split at ok
  next closed => exact closed
  all_goals cases ok

section Lookahead

variable {rest other : List CodeUnit} {e : Element}

theorem step_plain {u : CodeUnit} (inside : u ≠ quote) (unbroken : u.isBreak = false)
    (unescaped : u ≠ .of '\\') (rest : List CodeUnit) :
    step features quote (u :: rest)
      = .element ⟨(u :: rest).take (Utf16.leadingWidth (u :: rest)),
            .ofUnits ((u :: rest).take (Utf16.leadingWidth (u :: rest)))⟩
          ((u :: rest).drop (Utf16.leadingWidth (u :: rest))) := by
  simp [step, inside, unbroken, unescaped]

theorem step_escape {v : CodeUnit} {bytes : ByteString} {rest : List CodeUnit}
    (inside : .of '\\' ≠ quote) (ok : (Escape.read features v rest).outcome = .ok bytes) :
    step features quote (.of '\\' :: v :: rest)
      = .element ⟨.of '\\' :: (v :: rest).take (Escape.read features v rest).width, bytes⟩
          ((v :: rest).drop (Escape.read features v rest).width) := by
  simp [step, inside, ok, show (CodeUnit.of '\\').isBreak = false by decide]

theorem step_misread {v : CodeUnit} {fault : Fault} {rest : List CodeUnit}
    (inside : .of '\\' ≠ quote) (error : (Escape.read features v rest).outcome = .error fault) :
    step features quote (.of '\\' :: v :: rest)
      = .ending (.misread fault (.of '\\' :: (v :: rest).take (Escape.read features v rest).width)) := by
  simp [step, inside, error, show (CodeUnit.of '\\').isBreak = false by decide]

theorem step_append (h : step features quote (e.text ++ rest) = .element e rest)
    (same : other.head? = rest.head?) :
    step features quote (e.text ++ other) = .element e other := by
  have found := form features quote (e.text ++ rest)
  rw [h] at found
  generalize e.text ++ rest = whole at found
  cases found with
  | @plain u tail inside unbroken unescaped =>
      simp only at h ⊢
      generalize widthEq : Utf16.leadingWidth (u :: tail) = width at same ⊢
      have positive := Utf16.leadingWidth_pos u tail
      have fits := Utf16.leadingWidth_le (u :: tail)
      obtain ⟨text, textEq⟩ : ∃ text, (u :: tail).take width = u :: text := by
        cases width with
        | zero => omega
        | succ n => exact ⟨_, rfl⟩
      have length : (u :: text).length = width := by
        rw [← textEq, List.length_take]
        omega
      have now : Utf16.leadingWidth (u :: text ++ other) = (u :: text).length := by
        rw [Utf16.leadingWidth_append (List.cons_ne_nil u text) same, ← textEq,
          List.take_append_drop, widthEq, textEq, length]
      rw [textEq, List.cons_append, step_plain inside unbroken unescaped, ← List.cons_append, now,
        List.take_left, List.drop_left]
  | @escape v bytes tail inside ok =>
      simp only at h ⊢
      have positive := Escape.width_pos features v tail
      have fits := Escape.width_le_of_ok ok
      generalize widthEq : (Escape.read features v tail).width = width at same positive fits ⊢
      obtain ⟨n, rfl⟩ : ∃ n, width = n + 1 := ⟨width - 1, by omega⟩
      simp only [List.take_succ_cons, List.drop_succ_cons] at same ⊢
      simp only [List.length_cons, Nat.add_le_add_iff_right] at fits
      have length : (tail.take n).length = n := by
        rw [List.length_take]
        omega
      have now : Escape.read features v (tail.take n ++ other) = Escape.read features v tail := by
        have divided : tail.take n ++ tail.drop n = tail := List.take_append_drop n tail
        rw [Escape.read_append (by rw [divided, length, widthEq]) same, divided]
      rw [List.cons_append, List.cons_append, step_escape inside (by rw [now]; exact ok), now, widthEq]
      simp [length]

theorem body_append {ending : Ending} (same : other.head? = (body features quote input).rest.head?)
    (ends : step features quote other = .ending ending) :
    body features quote ((body features quote input).text ++ other)
      = ⟨(body features quote input).elements, ending, other⟩ := by
  fun_induction body features quote input with
  | case1 input e rest h ih =>
      have whole := text_append_rest_body features quote rest
      have split := text_append_of_step h
      have begins : ((body features quote rest).text ++ other).head? = rest.head? := by
        have first := congrArg List.head? whole
        rw [List.head?_append] at first
        rw [← first, List.head?_append, same]
        rfl
      rw [← split] at h
      have now := step_append h begins
      have text : ((body features quote rest).cons e).text ++ other
          = e.text ++ ((body features quote rest).text ++ other) := by
        simp [Body.text, Body.cons]
      rw [text, body_of_element now, ih same]
      rfl
  | case2 input old h => exact body_of_ending ends

theorem read_append {cut : Cut ByteString} (h : read features quote input = .ok cut)
    (other : List CodeUnit) :
    ∃ text, cut.text = quote :: text
      ∧ read features quote (text ++ other) = .ok ⟨cut.value, cut.text, other⟩ := by
  unfold read at h
  simp only at h
  split at h
  next closed =>
    obtain ⟨tail, behind⟩ := rest_body_of_closed closed
    have same : (quote :: other).head? = (body features quote input).rest.head? := by
      rw [behind]
      rfl
    have closes : step features quote (quote :: other) = .ending .closed := by simp [step]
    have now := body_append same closes
    cases h
    refine ⟨(body features quote input).text ++ [quote], rfl, ?_⟩
    rw [List.append_assoc, List.singleton_append]
    simp only [read, now]
    rfl
  all_goals cases h

end Lookahead

section Failure

theorem culprit_of_misread {fault : Fault} {culprit : List CodeUnit}
    (h : step features quote input = .ending (.misread fault culprit)) :
    ∃ escape rest, culprit = .of '\\' :: escape ∧ input = culprit ++ rest := by
  have found := form features quote input
  rw [h] at found
  cases found with
  | misread rest _ _ => exact ⟨_, _, rfl, by rw [List.cons_append, List.take_append_drop]⟩

theorem tail_of_cutOff {tail : List CodeUnit}
    (h : step features quote input = .ending (.cutOff tail)) :
    ∃ rest, input = tail ++ rest ∧ (∀ u ∈ tail, u.isBreak = false)
      ∧ ∀ u ∈ rest.head?, u.isBreak = true := by
  have found := form features quote input
  rw [h] at found
  cases found with
  | finished => exact ⟨[], rfl, by simp, by simp⟩
  | lineBreak rest _ broken => exact ⟨_, rfl, by simp, by simpa using broken⟩
  | bare => exact ⟨[], rfl, CodeUnit.forall_of_any (by decide), by simp⟩

theorem misreading_of_read {m : Misreading} (h : read features quote input = .error m) :
    (∃ tail rest, m = ⟨.unfinishedString, [], quote :: ((body features quote input).text ++ tail)⟩
        ∧ input = (body features quote input).text ++ (tail ++ rest)
        ∧ step features quote (tail ++ rest) = .ending (.cutOff tail))
      ∨ ∃ rest, m.lead = quote :: (body features quote input).text
        ∧ input = (body features quote input).text ++ (m.culprit ++ rest)
        ∧ step features quote (m.culprit ++ rest) = .ending (.misread m.fault m.culprit) := by
  have whole := text_append_rest_body features quote input
  have last := step_rest_body features quote input
  unfold read at h
  simp only at h
  split at h
  · cases h
  next tail cutOff =>
    cases h
    rw [cutOff] at last
    obtain ⟨rest, behind, -⟩ := tail_of_cutOff last
    rw [behind] at whole last
    exact .inl ⟨tail, rest, rfl, whole.symm, last⟩
  next fault culprit misread =>
    cases h
    rw [misread] at last
    obtain ⟨_, rest, -, behind⟩ := culprit_of_misread last
    rw [behind] at whole last
    exact .inr ⟨rest, rfl, whole.symm, last⟩

end Failure

section Runs

/-- Whether the unit stands for itself within a string, or for half of a code point. -/
def isPlain (quote u : CodeUnit) : Bool :=
  u != quote && !u.isBreak && u != .of '\\'

theorem isPlain_iff {u : CodeUnit} :
    isPlain quote u = true ↔ u ≠ quote ∧ u.isBreak = false ∧ u ≠ .of '\\' := by
  simp [isPlain, and_assoc]

/-- Elements with these bytes and this text are read before `rest`. -/
structure Reaches (features : FeatureSet) (quote : CodeUnit) (input : List CodeUnit)
    (bytes : ByteString) (text rest : List CodeUnit) : Prop where
  bytes_eq : (body features quote input).bytes = bytes ++ (body features quote rest).bytes
  text_eq : (body features quote input).text = text ++ (body features quote rest).text
  ending_eq : (body features quote input).ending = (body features quote rest).ending
  rest_eq : (body features quote input).rest = (body features quote rest).rest

variable {text rest : List CodeUnit} {bytes : ByteString}

namespace Reaches

theorem refl (features : FeatureSet) (quote : CodeUnit) (input : List CodeUnit) :
    Reaches features quote input [] [] input :=
  ⟨rfl, rfl, rfl, rfl⟩

theorem trans {more last : List CodeUnit} {others : ByteString}
    (first : Reaches features quote input bytes text rest)
    (second : Reaches features quote rest others more last) :
    Reaches features quote input (bytes ++ others) (text ++ more) last := by
  refine ⟨?_, ?_, first.ending_eq.trans second.ending_eq, first.rest_eq.trans second.rest_eq⟩
  · rw [first.bytes_eq, second.bytes_eq, List.append_assoc]
  · rw [first.text_eq, second.text_eq, List.append_assoc]

theorem of_element {e : Element} (h : step features quote input = .element e rest) :
    Reaches features quote input e.bytes e.text rest := by
  constructor <;> rw [body_of_element h] <;> rfl

/-- A run of plain units has its own bytes, unless its last unit and the next are the halves
    of one code point. -/
theorem of_plain (plain : ∀ u ∈ text, isPlain quote u = true)
    (apart : ∀ u ∈ rest.head?, u.isLowSurrogate = false) :
    Reaches features quote (text ++ rest) (.ofUnits text) text rest := by
  have inside : ∀ u ∈ text, u ≠ quote ∧ u.isBreak = false ∧ u ≠ .of '\\' :=
    fun u member => isPlain_iff.1 (plain u member)
  clear plain
  fun_induction Utf16.points text with
  | case1 => exact refl features quote rest
  | case2 u =>
      obtain ⟨different, unbroken, unescaped⟩ := inside u List.mem_cons_self
      have width : Utf16.leadingWidth (u :: rest) = 1 := by
        cases rest with
        | nil => rfl
        | cons v tail => simp [Utf16.leadingWidth, apart v rfl]
      have found : step features quote (u :: rest) = _ := step_plain different unbroken unescaped rest
      rw [width] at found
      exact of_element found
  | case3 high low tail pair ih =>
      obtain ⟨different, unbroken, unescaped⟩ := inside high List.mem_cons_self
      have later := ih fun u member => inside u (by simp [member])
      have found : step features quote (high :: low :: (tail ++ rest)) = _ :=
        step_plain different unbroken unescaped _
      have bytes : ByteString.ofUnits (high :: low :: tail)
          = ByteString.ofUnits [high, low] ++ ByteString.ofUnits tail := by
        simp [ByteString.ofUnits, Utf16.points, pair]
      rw [Utf16.leadingWidth, if_pos pair] at found
      rw [bytes]
      exact (of_element found).trans later
  | case4 high low tail single ih =>
      obtain ⟨different, unbroken, unescaped⟩ := inside high List.mem_cons_self
      have later := ih fun u member => inside u (List.mem_cons_of_mem _ member)
      have found : step features quote (high :: low :: (tail ++ rest)) = _ :=
        step_plain different unbroken unescaped _
      have bytes : ByteString.ofUnits (high :: low :: tail)
          = ByteString.ofUnits [high] ++ ByteString.ofUnits (low :: tail) := by
        simp [ByteString.ofUnits, Utf16.points, single]
      rw [Utf16.leadingWidth, if_neg single] at found
      rw [bytes]
      exact (of_element found).trans later

end Reaches

section Endings

variable {ending : Ending}

theorem Reaches.body_eq (reaches : Reaches features quote input bytes text rest)
    (h : step features quote rest = .ending ending) :
    (body features quote input).bytes = bytes ∧ (body features quote input).text = text
      ∧ (body features quote input).ending = ending ∧ (body features quote input).rest = rest := by
  have last := body_of_ending h
  refine ⟨?_, ?_, ?_, ?_⟩
  · rw [reaches.bytes_eq, last, Body.bytes, List.flatMap_nil, List.append_nil]
  · rw [reaches.text_eq, last, Body.text, List.flatMap_nil, List.append_nil]
  · rw [reaches.ending_eq, last]
  · rw [reaches.rest_eq, last]

theorem Reaches.read_closed (reaches : Reaches features quote input bytes text (quote :: rest)) :
    read features quote input = .ok ⟨bytes, quote :: text ++ [quote], rest⟩ := by
  have closed : step features quote (quote :: rest) = .ending .closed := by simp [step]
  obtain ⟨bytes, text, ending, rest⟩ := reaches.body_eq closed
  simp only [read, bytes, text, ending, rest]
  rfl

theorem Reaches.read_cutOff {tail : List CodeUnit}
    (reaches : Reaches features quote input bytes text rest)
    (h : step features quote rest = .ending (.cutOff tail)) :
    read features quote input = .error ⟨.unfinishedString, [], quote :: text ++ tail⟩ := by
  obtain ⟨-, text, ending, -⟩ := reaches.body_eq h
  simp only [read, text, ending]

theorem Reaches.read_misread {fault : Fault} {culprit : List CodeUnit}
    (reaches : Reaches features quote input bytes text rest)
    (h : step features quote rest = .ending (.misread fault culprit)) :
    read features quote input = .error ⟨fault, quote :: text, culprit⟩ := by
  obtain ⟨-, text, ending, -⟩ := reaches.body_eq h
  simp only [read, text, ending]

theorem isLowSurrogate_of_not_plain (quoted : quote.isQuote = true) {u : CodeUnit}
    (ends : isPlain quote u = false) : u.isLowSurrogate = false := by
  cases low : u.isLowSurrogate with
  | false => rfl
  | true =>
      have different : u ≠ quote := by
        rintro rfl
        simp only [CodeUnit.isQuote, Bool.or_eq_true, beq_iff_eq] at quoted
        rcases quoted with rfl | rfl <;> cases low
      have unescaped : u ≠ .of '\\' := by
        rintro rfl
        cases low
      simp [isPlain, different, unescaped, Utf16.isBreak_of_isLowSurrogate low] at ends

end Endings

end Runs

end LuaTokens.Quoted
