import LuaTokens.Proofs.Lexeme.Form
import LuaTokens.Proofs.Scanner.LongBracket
import LuaTokens.Proofs.Scanner.Numeral
import LuaTokens.Proofs.Scanner.Quoted
import LuaTokens.Proofs.Token.Punctuator

/-! # Scanning tokens

The next two units decide how a token is scanned, and a third whether two dots go on.
What is scanned is what reading a lexeme there finds.
-/

namespace LuaTokens

/-- The longest live punctuator that the units `u` and `next?` begin with. -/
def Punctuator.ofUnits (features : FeatureSet) (u : CodeUnit) (next? : Option CodeUnit) :
    Option Punctuator :=
  all.find? fun p =>
    p.isLive features && p.units.head? == some u && p.units.tail.all (next? == some ·)

namespace Scan

open Scanner

section Definitions

variable (g : Grammar) (chunk : Option String) (start : Position)

/-- Move over a name and classify it. -/
def name : Scan Token.Kind := do
  advanceWhile (CodeUnit.isNamePart g.extendedIdentifiers)
  let text ← slice start.offset (← ask (·.position.offset))
  return Lexeme.classifyWord g.features (.ofUnits text)

def longString : Scan Token.Kind := do
  match ← longBracket chunk .unfinishedLongString with
  | some (first, last) => return .string (.ofUnits (← slice first last))
  | none =>
      advance 1
      advanceWhile (· == .of '=')
      fail chunk .invalidDelimiter start

/-- Move over three dots or a punctuator that begins with the unit `u`. -/
def symbol (u : CodeUnit) : Scan Token.Kind := do
  let next? ← ask (·.peekAt 1)
  if u = .of '.' && next? = some (.of '.') && (← ask (·.isAt 2 '.')) then
    advance 3
    return .vararg
  else
    match Punctuator.ofUnits g.features u next? with
    | some sign =>
        advance sign.units.length
        return .punctuator sign
    | none =>
        advance 1
        fail chunk .unexpectedSymbol start

/-- Move over the token that begins with the unit `u`. -/
def tokenKind (u : CodeUnit) : Scan Token.Kind := do
  if u.isNameStart g.extendedIdentifiers then name g start
  else if u.isQuote then quoted g.features chunk start
  else
    let next? ← ask (·.peekAt 1)
    if u.isDigit || (u = .of '.' && next?.any CodeUnit.isDigit) then numeral chunk start
    else if u = .of '[' && (next? = some (.of '[') || next? = some (.of '=')) then
      longString chunk start
    else symbol g chunk start u

end Definitions

variable {g : Grammar} {chunk : Option String} {s : Scanner} {u : CodeUnit} {rest : List CodeUnit}

theorem finds_name (ahead : s.ahead = u :: rest)
    (first : u.isNameStart g.extendedIdentifiers = true) :
    Finds (name g s.position) chunk s (Lexeme.read g s.ahead) := by
  rw [ahead, Lexeme.read_word first, ← ahead]
  apply Returns.bind (returns_advanceWhile
    (fun _ part => CodeUnit.isBreak_eq_false (CodeUnit.isNamePart_spaces _) part) s)
  intro _ after moved
  apply ensures_ask_bind
  apply Returns.bind (returns_slice_spans moved.spans moved.units)
  rintro _ _ ⟨rfl, rfl⟩
  refine ensures_pure ⟨_, ?_, moved⟩
  rw [moved.rest_eq List.takeWhile_append_dropWhile.symm]
  rfl

theorem finds_longString (ahead : s.ahead = u :: rest)
    (begins : Lexeme.beginsLongString u rest = true) :
    Finds (longString chunk s.position) chunk s (Lexeme.readLongString s.ahead) := by
  obtain ⟨rfl, -⟩ := Lexeme.beginsLongString_iff.1 begins
  refine ensures_bind (ensures_longBracket ahead chunk _) ?_ ?_
  · rintro _ after ⟨unclosed, moved, rfl⟩
    rw [Lexeme.readLongString, unclosed]
    exact ⟨_, rfl, fails_of_moved (m := ⟨.unfinishedLongString, [], s.ahead⟩) (Moved.refl s) moved rfl⟩
  · rintro (_ | ⟨first, last⟩) inside found
    · obtain ⟨absent, rfl⟩ := found
      apply Returns.bind (returns_advance_unit ahead (by decide))
      rintro _ behind ⟨step, rfl⟩
      have signs : ∀ v : CodeUnit, (v == .of '=') = true → v.isBreak = false := by
        intro v sign
        obtain rfl : v = .of '=' := by simpa using sign
        decide
      apply Returns.bind (returns_advanceWhile signs behind)
      intro _ after moved
      have whole := step.trans moved (Seam.of_forall (CodeUnit.forall_of_any (by decide)) _)
      have text : inside.ahead.take (1 + (LongBracket.equalsSigns (inside.ahead.drop 1)).length)
          = [.of '['] ++ behind.ahead.takeWhile (· == .of '=') := by
        rw [ahead, Nat.add_comm, List.take_succ_cons, List.drop_succ_cons, List.drop_zero,
          LongBracket.equalsSigns, ← List.prefix_iff_eq_take.1 (List.takeWhile_prefix _)]
        rfl
      rw [Lexeme.readLongString, absent]
      simp only [text]
      exact ensures_fail_moved whole rfl fun _ fails => ⟨_, rfl, fails⟩
    · obtain ⟨body, text, closed, moved, spans⟩ := found
      rw [Lexeme.readLongString, closed]
      apply Returns.bind (returns_slice_spans spans moved.units)
      rintro _ _ ⟨rfl, rfl⟩
      exact ensures_pure ⟨text, rfl, moved⟩

theorem leading?_cons (features : FeatureSet) (u : CodeUnit) (rest : List CodeUnit) :
    Punctuator.leading? features (u :: rest) = Punctuator.ofUnits features u rest.head? := by
  unfold Punctuator.leading? Punctuator.ofUnits
  congr 1
  funext p
  rw [Bool.and_assoc]
  congr 1
  cases p <;> cases rest <;>
    simp [Punctuator.units, Punctuator.spelling, spellingUnits, List.isPrefixOf] <;> grind

theorem isVararg_iff : (u = .of '.' && rest.head? = some (.of '.') && rest[1]? = some (.of '.')) = true
    ↔ Lexeme.varargUnits <+: u :: rest := by
  match rest with
  | [] => simp [Lexeme.varargUnits, spellingUnits]
  | [v] => simp [Lexeme.varargUnits, spellingUnits]
  | v :: w :: tail =>
      simp only [Lexeme.varargUnits, spellingUnits, List.head?_cons, List.getElem?_cons_succ]
      simp [List.cons_prefix_cons, and_assoc]
      grind

theorem finds_of_width {kind : Token.Kind} {text : List CodeUnit} {count : Nat}
    (front : text <+: s.ahead) (width : text.length = count) (unbroken : ∀ v ∈ text, v.isBreak = false) :
    Finds (do advance count; return kind) chunk s (.read (.ofWidth count s.ahead (.token kind))) := by
  obtain ⟨tail, divided⟩ := front
  apply Returns.bind (returns_advance_over divided.symm width unbroken)
  intro _ after moved
  refine ensures_pure ⟨text, ?_, moved⟩
  rw [← width, moved.ahead, Cut.ofWidth, List.take_left, List.drop_left]

theorem finds_symbol (ahead : s.ahead = u :: rest) (unbroken : u.isBreak = false) :
    Finds (symbol g chunk s.position u) chunk s (Lexeme.readSymbol g s.ahead) := by
  have second : s.peekAt 1 = rest.head? := by
    rw [peekAt_eq, ahead, List.head?_eq_getElem?]
    rfl
  have third : s.isAt 2 '.' = decide (rest[1]? = some (.of '.')) := by
    rw [isAt_eq, ahead]
    rfl
  apply ensures_ask_bind
  apply ensures_ask_bind
  rw [second, third, Lexeme.readSymbol]
  by_cases dots : Lexeme.varargUnits <+: s.ahead
  · rw [if_pos (List.isPrefixOf_iff_prefix.2 dots)]
    rw [if_pos (isVararg_iff.2 (ahead ▸ dots))]
    exact finds_of_width dots rfl (CodeUnit.forall_of_any (by decide))
  · rw [if_neg (dots ∘ List.isPrefixOf_iff_prefix.1)]
    rw [if_neg (fun fits => dots (ahead ▸ isVararg_iff.1 fits))]
    rw [← leading?_cons, ← ahead]
    cases found : Punctuator.leading? g.features s.ahead with
    | some sign =>
        exact finds_of_width (Punctuator.fits_of_leading? found).2 rfl (Lexeme.isBreak_punctuator sign)
    | none =>
        apply Returns.bind (returns_advance_unit ahead unbroken)
        rintro _ after ⟨moved, -⟩
        rw [ahead]
        exact ensures_fail_moved moved rfl fun _ fails => ⟨_, rfl, fails⟩

theorem finds_tokenKind (ahead : s.ahead = u :: rest) (solid : u.isSpace = false)
    (noComment : Lexeme.beginsComment u rest = false) :
    Finds (tokenKind g chunk s.position u) chunk s (Lexeme.read g s.ahead) := by
  have second : s.peekAt 1 = rest.head? := by
    rw [peekAt_eq, ahead, List.head?_eq_getElem?]
    rfl
  rw [tokenKind]
  by_cases first : u.isNameStart g.extendedIdentifiers = true
  · rw [if_pos first]
    exact finds_name ahead first
  rw [if_neg first]
  by_cases quote : u.isQuote = true
  · rw [if_pos quote, ahead, Lexeme.read_quoted quote]
    exact finds_quoted ahead quote
  rw [if_neg quote]
  apply ensures_ask_bind
  rw [second]
  change (if Lexeme.beginsNumeral u rest = true then _
    else if Lexeme.beginsLongString u rest = true then _ else _ : Scan Token.Kind).Ensures s _ _
  by_cases number : Lexeme.beginsNumeral u rest = true
  · rw [if_pos number, ahead, Lexeme.read_numeral number, ← ahead]
    exact finds_numeral ahead number
  rw [if_neg number]
  by_cases long : Lexeme.beginsLongString u rest = true
  · rw [if_pos long, ahead, Lexeme.read_longString long, ← ahead]
    exact finds_longString ahead long
  rw [if_neg long, ahead, Lexeme.read_symbol solid noComment (by simpa using first)
    (by simpa using quote) (by simpa using number) (by simpa using long), ← ahead]
  exact finds_symbol ahead (CodeUnit.isBreak_of_not_isSpace solid)

end Scan

end LuaTokens
