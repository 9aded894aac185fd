import LuaTokens.Proofs.Lexeme.Form
import LuaTokens.Proofs.Simulation
import LuaTokens.Proofs.Text.Follow
import LuaTokens.Proofs.Token.Punctuator

/-! # Runs with extended names

Names that may hold units outside ASCII change nothing for a source that is read without
them: such a unit begins no lexeme in the plain grammar, so where a word would now go on
or begin, the plain grammar fails. Inside strings, escapes and comments names play no part.
-/

namespace LuaTokens

namespace CodeUnit

/-- Whether the unit lies outside ASCII. -/
def isForeign (u : CodeUnit) : Bool :=
  0x80 ≤ u

theorem isNameStart_extended (extended : Bool) (u : CodeUnit) :
    u.isNameStart true = (u.isNameStart extended || u.isForeign) := by
  cases extended <;> simp [isNameStart, isForeign, Bool.or_assoc]

theorem isNameStart_of_isForeign {u : CodeUnit} (foreign : u.isForeign = true) :
    u.isNameStart false = false := by
  have beyond : 0x80 ≤ u.toNat := by
    simpa [isForeign, UInt16.le_iff_toNat_le] using foreign
  simp only [isNameStart, Bool.false_and, Bool.or_false, Bool.or_eq_false_iff, Bool.and_eq_false_iff,
    decide_eq_false_iff_not, UInt16.le_iff_toNat_le, beq_eq_false_iff_ne, ne_eq, ← UInt16.toNat_inj]
  simp only [UInt16.toNat_ofNat]
  omega

theorem isNameStart_of_ascii {extended : Bool} {u : CodeUnit} (ascii : u.isForeign = false) :
    u.isNameStart true = u.isNameStart extended := by
  rw [isNameStart_extended extended, ascii, Bool.or_false]

theorem isNamePart_of_ascii {extended : Bool} {u : CodeUnit} (ascii : u.isForeign = false) :
    u.isNamePart true = u.isNamePart extended := by
  rw [isNamePart, isNamePart, isNameStart_of_ascii ascii]

theorem isNamePart_of_plain {extended : Bool} {u : CodeUnit} (part : u.isNamePart extended = true) :
    u.isNamePart true = true := by
  rw [isNamePart, Bool.or_eq_true] at part ⊢
  rw [isNameStart_extended extended, Bool.or_eq_true]
  exact part.imp_left .inl

end CodeUnit

theorem Punctuator.isForeign_units (p : Punctuator) : ∀ u ∈ p.units, u.isForeign = false := by
  apply CodeUnit.forall_of_any
  cases p <;> decide

def Grammar.extended (g : Grammar) : Grammar :=
  { g with extendedIdentifiers := true }

namespace Lexeme

variable {g : Grammar} {u : CodeUnit} {rest input : List CodeUnit} {cut : Cut Lexeme}

theorem not_fits_of_isForeign {text : List CodeUnit} (foreign : u.isForeign = true) (nonempty : text ≠ [])
    (ascii : ∀ v ∈ text, v.isForeign = false) : ¬ text <+: u :: rest := by
  rintro ⟨tail, same⟩
  cases text with
  | nil => exact nonempty rfl
  | cons v text =>
      obtain ⟨rfl, -⟩ := List.cons.inj same
      rw [ascii v List.mem_cons_self] at foreign
      cases foreign

theorem readSymbol_of_isForeign (foreign : u.isForeign = true) :
    readSymbol g (u :: rest) = .failed ⟨.unexpectedSymbol, [], [u]⟩ := by
  have noDots : ¬ varargUnits <+: u :: rest :=
    not_fits_of_isForeign foreign (by decide) (CodeUnit.forall_of_any (by decide))
  have noSign : Punctuator.leading? g.features (u :: rest) = none := by
    rw [Punctuator.leading?, List.find?_eq_none]
    intro p _ fits
    simp only [Bool.and_eq_true, List.isPrefixOf_iff_prefix] at fits
    exact not_fits_of_isForeign foreign p.units_ne_nil p.isForeign_units fits.2
  rw [readSymbol, if_neg (by rwa [List.isPrefixOf_iff_prefix]), noSign]
  rfl

theorem read_of_isForeign (plain : g.extendedIdentifiers = false) (foreign : u.isForeign = true) :
    read g (u :: rest) = .failed ⟨.unexpectedSymbol, [], [u]⟩ := by
  have absent (units : List CodeUnit) (ascii : units.any CodeUnit.isForeign = false) : u ∉ units := by
    intro member
    rw [CodeUnit.forall_of_any ascii u member] at foreign
    cases foreign
  have unspaced : u.isSpace = false := by
    rw [← Bool.not_eq_true, CodeUnit.isSpace_iff]
    exact absent _ (by decide)
  have noDash : u ≠ .of '-' := by simpa using absent [.of '-'] (by decide)
  have noWord : u.isNameStart g.extendedIdentifiers = false := by
    rw [plain]
    exact CodeUnit.isNameStart_of_isForeign foreign
  have noQuote : u.isQuote = false := by
    rw [← Bool.not_eq_true, CodeUnit.isQuote_iff]
    simpa using absent [.of '"', .of '\''] (by decide)
  have noNumeral : beginsNumeral u rest = false := by
    rw [← Bool.not_eq_true, beginsNumeral_iff, CodeUnit.isDigit_iff]
    rintro (digit | ⟨point, -⟩)
    · exact absent _ (by decide) digit
    · exact absent [.of '.'] (by decide) (by simp [point])
  have noLongString : beginsLongString u rest = false := by
    rw [← Bool.not_eq_true, beginsLongString_iff]
    rintro ⟨bracket, -⟩
    exact absent [.of '['] (by decide) (by simp [bracket])
  rw [read_symbol unspaced (beginsComment_of_ne noDash) noWord noQuote noNumeral noLongString]
  exact readSymbol_of_isForeign foreign

theorem readWord_extended (ascii : Stops CodeUnit.isForeign (readWord g input).rest) :
    readWord g.extended input = readWord g input := by
  have part : ∀ u ∈ input.takeWhile (CodeUnit.isNamePart g.extendedIdentifiers), u.isNamePart true = true :=
    fun u member => CodeUnit.isNamePart_of_plain (List.mem_takeWhile_imp member)
  have stops : Stops (CodeUnit.isNamePart true)
      (input.dropWhile (CodeUnit.isNamePart g.extendedIdentifiers)) := by
    intro u next
    rw [CodeUnit.isNamePart_of_ascii (ascii u next)]
    exact stops_dropWhile input u next
  have taken := stops.takeWhile_append part
  have dropped := stops.dropWhile_append part
  rw [List.takeWhile_append_dropWhile] at taken dropped
  simp only [readWord, Cut.map, Cut.ofRun, Grammar.extended, taken, dropped]

/-- A lexeme is the same in the extended grammar, unless a unit outside ASCII comes next. -/
theorem read_extended (h : read g input = .read cut) (ascii : Stops CodeUnit.isForeign cut.rest) :
    read g.extended input = .read cut := by
  have found := form g input
  rw [h] at found
  generalize outcomeEq : Reading.read cut = outcome at found ⊢
  cases found with
  | finished => rfl
  | space rest space => exact read_space space
  | comment rest => exact read_comment
  | @word u rest first =>
      cases outcomeEq
      have first' : u.isNameStart true = true := by
        rw [CodeUnit.isNameStart_extended g.extendedIdentifiers, first, Bool.true_or]
      rw [read_word first', readWord_extended ascii]
  | quoted rest quote => exact read_quoted quote
  | numeral rest begins => exact read_numeral begins
  | longString rest begins => exact read_longString begins
  | @symbol u rest unspaced noComment noWord noQuote noNumeral noLongString =>
      have here : u.isForeign = false := by
        rw [← Bool.not_eq_true]
        intro foreign
        rw [readSymbol_of_isForeign foreign] at outcomeEq
        cases outcomeEq
      rw [← CodeUnit.isNameStart_of_ascii here] at noWord
      exact read_symbol unspaced noComment noWord noQuote noNumeral noLongString

end Lexeme

section Plain

variable {g : Grammar} {p : Position} {input : List CodeUnit}

theorem Trace.stops_of_clean (plain : g.extendedIdentifiers = false)
    (clean : (Trace.of g p input).misreading = none) : Stops CodeUnit.isForeign input := by
  intro u next
  cases input with
  | nil => cases next
  | cons v rest =>
      cases next
      rw [← Bool.not_eq_true]
      intro foreign
      rw [Trace.of_failed (Lexeme.read_of_isForeign plain foreign)] at clean
      cases clean

theorem Sweep.of_extended (chunk : Option String) (clean : (Trace.of g p input).misreading = none) :
    of g.extended chunk p input = of g chunk p input := by
  cases plain : g.extendedIdentifiers with
  | true => rw [Grammar.extended, ← plain]
  | false =>
      fun_induction of g chunk p input with
      | case1 p input finished =>
          obtain rfl := Lexeme.eq_nil_of_finished finished
          exact of_nil
      | case2 p input m failed =>
          rw [Trace.of_failed failed] at clean
          cases clean
      | case3 p input cut read stop space ih =>
          rw [Trace.of_read read] at clean
          rw [of_read (Lexeme.read_extended read (Trace.stops_of_clean plain clean)), space]
          exact ih clean
      | case4 p input cut read stop body comment ih =>
          rw [Trace.of_read read] at clean
          rw [of_read (Lexeme.read_extended read (Trace.stops_of_clean plain clean)), comment]
          change (of g.extended chunk stop cut.rest).behind [_] = _
          rw [ih clean]
          rfl
      | case5 p input cut read stop kind token =>
          rw [Trace.of_read read] at clean
          rw [of_read (Lexeme.read_extended read (Trace.stops_of_clean plain clean)), token]

end Plain

def Options.extended (o : Options) : Options :=
  { o with extendedIdentifiers := true }

namespace Session

def extended (s : Session) : Session :=
  { s with options := s.options.extended }

theorem clean_pull {s : Session} (clean : s.trace.misreading = none) : s.pull.2.trace.misreading = none := by
  have items := s.trace_pull.1
  have faultless : s.trace.failure s.options.chunk = none := Option.map_eq_none_iff.2 clean
  rw [← Trace.findSome?_failure?_items, items, List.findSome?_append, Option.or_eq_none_iff,
    Trace.findSome?_failure?_items] at faultless
  exact Option.map_eq_none_iff.1 faultless.2

/-- A session that will not fail, beside the same one with extended names. -/
structure Extends (s t : Session) : Prop where
  clean : s.trace.misreading = none
  same : t = s.extended

theorem Extends.pull {s t : Session} (h : Extends s t) : t.pull = (s.pull.1, s.pull.2.extended) := by
  have swept : s.extended.sweep = s.sweep := Sweep.of_extended _ h.clean
  rw [h.same, Session.pull, swept]
  rfl

theorem simulation_extends : Simulation id Extends where
  item h := by rw [h.pull, Option.map_id_fun]; rfl
  after h := ⟨clean_pull h.clean, by rw [h.pull]⟩
  taking h := ⟨h.clean, by rw [h.same]; rfl⟩

end Session

namespace Run

/-- Extended names are a conservative extension: a source that is read without failure yields
    the same tokens, comments and positions with them, all at once and pull by pull. -/
theorem ofUnits_extended (o : Options) (source : List CodeUnit)
    (finished : (ofUnits o source).failure = none) :
    ofUnits o.extended source = ofUnits o source
      ∧ ∀ count, (Session.start o.extended source).take count
          = (((Session.start o source).take count).1, ((Session.start o source).take count).2.extended) := by
  have start : Session.Extends (.start o source) (.start o.extended source) := by
    rw [ofUnits_eq] at finished
    exact ⟨Option.map_eq_none_iff.1 finished, rfl⟩
  constructor
  · obtain ⟨items, last⟩ := Session.simulation_extends.drain start
    rw [List.map_id] at items
    simp only [ofUnits, ofSession, items, last.same]
    rfl
  · intro count
    obtain ⟨items, last⟩ := Session.simulation_extends.take count start
    rw [List.map_id] at items
    exact Prod.ext items last.same

/-- Units outside ASCII in a string, in an escape, in a comment and in a long string. -/
theorem ofUnits_extended_foreign :
    let o : Options := { version := .lua51, comments := true }
    let source := Utf16.encode "a=1+\"é\\é🌙\"--é\n[[é]]"
    (ofUnits o source).failure = none ∧ ofUnits o.extended source = ofUnits o source := by
  intro o source
  have finished : (ofUnits o source).failure = none := by decide +kernel
  exact ⟨finished, (ofUnits_extended o source finished).1⟩

end Run

end LuaTokens
