import LuaTokens.Proofs.Scanner.Token

/-! # Symbols by longest match

The symbols are the punctuators and the three dots. Of the symbols that a dialect has, the one
with the longest spelling that fits is meant. A dispatch on at most three units finds it: where
the dialect lacks a longer spelling it falls back to a shorter one.
-/

namespace LuaTokens

/-- What is written with neither letters nor digits. -/
inductive Symbol where
  | vararg
  | punctuator (p : Punctuator)
  deriving Repr, DecidableEq

namespace Symbol

def spelling : Symbol → String
  | vararg => "..."
  | punctuator p => p.spelling

def units (w : Symbol) : List CodeUnit :=
  spellingUnits w.spelling

def kind : Symbol → Token.Kind
  | vararg => .vararg
  | punctuator p => .punctuator p

/-- A dialect has all symbols, but some of them only with a feature. -/
def Live (features : FeatureSet) (w : Symbol) : Prop :=
  (w.spelling ∈ ["&", "~", "<<", ">>"] → .bitwiseOperators ∈ features)
    ∧ (w.spelling = "//" → .integerDivision ∈ features)
    ∧ (w.spelling = "::" → .labels ∈ features)

/-- No live symbol that the input begins with is longer than this one. -/
structure Longest (features : FeatureSet) (input : List CodeUnit) (w : Symbol) : Prop where
  live : w.Live features
  fits : w.units <+: input
  length_le : ∀ v : Symbol, v.Live features → v.units <+: input → v.units.length ≤ w.units.length

/-- The punctuators of one unit that all dialects have and no longer symbol begins with. -/
def singles : List (Char × Punctuator) :=
  [('*', .star), ('^', .caret), ('%', .percent), (',', .comma), ('\x7b', .leftBrace),
    ('\x7d', .rightBrace), (']', .rightBracket), ('(', .leftParen), (')', .rightParen),
    (';', .semicolon), ('#', .hash), ('-', .minus), ('+', .plus), ('|', .pipe)]

/-- The punctuator that begins with the unit `u`, where `next?` is behind it. -/
def punctuator? (features : FeatureSet) (u : CodeUnit) (next? : Option CodeUnit) : Option Punctuator :=
  if u = .of '[' then some .leftBracket
  else if u = .of '=' then
    if next? = some (.of '=') then some .equal
    else if next? = some (.of '>') then some .fatArrow
    else some .assign
  else if u = .of '>' then
    if next? = some (.of '>') ∧ .bitwiseOperators ∈ features then some .shiftRight
    else if next? = some (.of '=') then some .greaterEqual
    else some .greater
  else if u = .of '<' then
    if next? = some (.of '<') ∧ .bitwiseOperators ∈ features then some .shiftLeft
    else if next? = some (.of '=') then some .lessEqual
    else some .less
  else if u = .of '~' then
    if next? = some (.of '=') then some .notEqual
    else if .bitwiseOperators ∈ features then some .tilde
    else none
  else if u = .of ':' then
    if next? = some (.of ':') ∧ .labels ∈ features then some .doubleColon
    else some .colon
  else if u = .of '/' then
    if next? = some (.of '/') ∧ .integerDivision ∈ features then some .doubleSlash
    else some .slash
  else if u = .of '&' ∧ .bitwiseOperators ∈ features then some .ampersand
  else (singles.find? fun entry => .of entry.1 == u).map Prod.snd

/-- The symbol that begins with the unit `u`, where `next?` and `third?` are behind it. -/
def dispatch (features : FeatureSet) (u : CodeUnit) (next? third? : Option CodeUnit) : Option Symbol :=
  if u = .of '.' then
    if next? = some (.of '.') then
      if third? = some (.of '.') then some .vararg
      else some (.punctuator .concat)
    else some (.punctuator .dot)
  else (punctuator? features u next?).map .punctuator

end Symbol

namespace Punctuator

/-- The punctuators that begin with the unit `u`, the longer ones first. -/
def opening (u : CodeUnit) : List Punctuator :=
  all.filter (·.units.head? == some u)

theorem ofUnits_eq_find? (features : FeatureSet) (u : CodeUnit) (next? : Option CodeUnit) :
    ofUnits features u next?
      = (opening u).find? fun p => p.isLive features && p.units.tail.all (next? == some ·) := by
  rw [opening, List.find?_filter, ofUnits]
  congr 1
  funext p
  simp only [Bool.decide_and, Bool.decide_eq_true]
  grind

theorem mem_opening {p : Punctuator} {u : CodeUnit} : p ∈ opening u ↔ p.units.head? = some u := by
  simp [opening, mem_all]

/-- Nothing longer begins like a single punctuator, and no dialect lacks it. -/
theorem opening_single (features : FeatureSet) :
    ∀ entry ∈ Symbol.singles, opening (.of entry.1) = [entry.2]
      ∧ (entry.2.isLive features && entry.2.units.tail.isEmpty) = true := by
  have alone : ∀ entry ∈ Symbol.singles, opening (.of entry.1) = [entry.2]
      ∧ entry.2.units.tail.isEmpty = true := by decide
  have live : ∀ entry ∈ Symbol.singles, entry.2.isLive features = true := by
    simp [Symbol.singles, isLive]
  intro entry member
  rw [live entry member]
  exact alone entry member

/-- The units that more than one punctuator begins with, or one that not all dialects have. -/
def forks : List Char :=
  ['.', '[', '=', '>', '<', '~', ':', '/', '&']

theorem opening_forks : forks.map (fun c => opening (.of c)) =
    [[concat, dot], [leftBracket], [equal, fatArrow, assign], [shiftRight, greaterEqual, greater],
      [shiftLeft, lessEqual, less], [notEqual, tilde], [doubleColon, colon], [doubleSlash, slash],
      [ampersand]] := by
  decide

theorem head?_units (p : Punctuator) :
    ∃ c ∈ forks ++ Symbol.singles.map Prod.fst, p.units.head? = some (.of c) := by
  have begins : (forks ++ Symbol.singles.map Prod.fst).any (fun c => p.units.head? == some (.of c)) = true := by
    cases p <;> decide
  obtain ⟨c, member, same⟩ := List.any_eq_true.1 begins
  exact ⟨c, member, eq_of_beq same⟩

end Punctuator

namespace Symbol

open Punctuator

section Dispatch

variable (features : FeatureSet) {u : CodeUnit} (next? : Option CodeUnit)

theorem punctuator?_fork {c : Char} (fork : c ∈ forks) (noDot : c ≠ '.') :
    punctuator? features (.of c) next? = ofUnits features (.of c) next? := by
  have openings := opening_forks
  simp only [forks, List.map_cons, List.map_nil, List.cons.injEq, and_true] at openings
  have noSingle : singles.find? (fun entry => .of entry.1 == CodeUnit.of '&') = none := by decide
  rw [ofUnits_eq_find?]
  simp only [forks, List.mem_cons, List.not_mem_nil, or_false] at fork
  rcases fork with rfl | rfl | rfl | rfl | rfl | rfl | rfl | rfl | rfl
  · exact absurd rfl noDot
  all_goals
    simp +decide [openings, noSingle, punctuator?, isLive, Punctuator.units, Punctuator.spelling,
      spellingUnits] <;> grind

theorem punctuator?_of_no_fork (noFork : ∀ c ∈ forks, u ≠ .of c) :
    punctuator? features u next? = (singles.find? fun entry => .of entry.1 == u).map Prod.snd := by
  simp only [forks, List.forall_mem_cons] at noFork
  obtain ⟨-, bracket, equals, greater, less, tilde, colon, slash, ampersand, -⟩ := noFork
  rw [punctuator?, if_neg bracket, if_neg equals, if_neg greater, if_neg less, if_neg tilde, if_neg colon,
    if_neg slash, if_neg fun both => ampersand both.1]

theorem ofUnits_of_no_fork (noFork : ∀ c ∈ forks, u ≠ .of c) :
    ofUnits features u next? = (singles.find? fun entry => .of entry.1 == u).map Prod.snd := by
  rw [ofUnits_eq_find?]
  cases found : singles.find? fun entry => .of entry.1 == u with
  | some entry =>
      obtain rfl : .of entry.1 = u := by simpa using List.find?_some found
      obtain ⟨alone, fits⟩ := opening_single features entry (List.mem_of_find?_eq_some found)
      rw [Bool.and_eq_true, List.isEmpty_iff] at fits
      simp [alone, fits]
  | none =>
      have missing : opening u = [] := by
        refine List.eq_nil_iff_forall_not_mem.2 fun p member => ?_
        obtain ⟨c, known, first⟩ := head?_units p
        obtain rfl : .of c = u := Option.some.inj (first.symm.trans (mem_opening.1 member))
        rcases List.mem_append.1 known with fork | single
        · exact noFork c fork rfl
        · obtain ⟨entry, listed, rfl⟩ := List.mem_map.1 single
          simpa using List.find?_eq_none.1 found entry listed
      rw [missing]
      rfl

theorem punctuator?_eq_ofUnits (noDot : u ≠ .of '.') :
    punctuator? features u next? = ofUnits features u next? := by
  by_cases fork : ∃ c ∈ forks, u = .of c
  · obtain ⟨c, member, rfl⟩ := fork
    exact punctuator?_fork features next? member fun dot => noDot (by rw [dot])
  · have noFork : ∀ c ∈ forks, u ≠ .of c := fun c member same => fork ⟨c, member, same⟩
    rw [punctuator?_of_no_fork features next? noFork, ofUnits_of_no_fork features next? noFork]

variable {features} {rest : List CodeUnit}

theorem ofUnits_dot : ofUnits features (.of '.') next?
    = if next? = some (.of '.') then some .concat else some .dot := by
  rw [ofUnits_eq_find?, show opening (.of '.') = [concat, dot] by decide]
  simp [isLive, Punctuator.units, Punctuator.spelling, spellingUnits]
  grind

theorem dispatch_eq : dispatch features u rest.head? rest[1]?
    = if Lexeme.varargUnits <+: u :: rest then some .vararg
      else (leading? features (u :: rest)).map .punctuator := by
  rw [Scan.leading?_cons, dispatch]
  by_cases dot : u = .of '.'
  · subst dot
    have dots : Lexeme.varargUnits <+: .of '.' :: rest
        ↔ rest.head? = some (.of '.') ∧ rest[1]? = some (.of '.') := by
      rw [← Scan.isVararg_iff]
      simp only [Bool.and_eq_true, decide_eq_true_eq, true_and]
    rw [if_pos rfl, ofUnits_dot]
    simp only [dots]
    grind
  · have noDots : ¬ Lexeme.varargUnits <+: u :: rest := by
      intro dots
      exact dot (List.cons_prefix_cons.1 dots).1.symm
    rw [if_neg dot, if_neg noDots, punctuator?_eq_ofUnits features _ dot]

end Dispatch

section Longest

variable {features : FeatureSet} {u : CodeUnit} {rest input : List CodeUnit} {w v : Symbol} {p : Punctuator}

theorem live_punctuator_iff : (punctuator p).Live features ↔ p.isLive features = true := by
  cases p <;> simp [Live, spelling, Punctuator.spelling, isLive]

theorem live_vararg : vararg.Live features := by
  simp [Live, spelling]

theorem length_units_le (w : Symbol) : w.units.length ≤ vararg.units.length := by
  cases w with
  | vararg => exact Nat.le_refl _
  | punctuator p => exact Nat.le_succ_of_le p.length_units.2

theorem eq_of_units (same : w.units = v.units) : w = v := by
  have found (w : Symbol) : (vararg :: all.map punctuator).find? (·.units == w.units) = some w := by
    rcases w with _ | p
    · decide
    · cases p <;> decide
  have other := found v
  rw [← same, found w] at other
  exact Option.some.inj other

theorem Longest.unique (h : Longest features input w) (other : Longest features input v) : v = w := by
  have le := h.length_le v other.live other.fits
  have ge := other.length_le w h.live h.fits
  exact eq_of_units ((List.prefix_of_prefix_length_le other.fits h.fits le).eq_of_length
    (Nat.le_antisymm le ge))

theorem longest_of_dispatch (found : dispatch features u rest.head? rest[1]? = some w) :
    Longest features (u :: rest) w := by
  rw [dispatch_eq] at found
  split at found
  next dots =>
    cases found
    exact ⟨live_vararg, dots, fun v _ _ => v.length_units_le⟩
  next noDots =>
    obtain ⟨p, leading, rfl⟩ := Option.map_eq_some_iff.1 found
    obtain ⟨live, fits⟩ := fits_of_leading? leading
    refine ⟨live_punctuator_iff.2 live, fits, fun v also inside => ?_⟩
    cases v with
    | vararg => exact absurd inside noDots
    | punctuator q => exact length_le_of_leading? leading (live_punctuator_iff.1 also) inside

theorem not_fits_of_dispatch (missing : dispatch features u rest.head? rest[1]? = none) (live : w.Live features) :
    ¬ w.units <+: u :: rest := by
  rw [dispatch_eq] at missing
  split at missing
  · cases missing
  next noDots =>
    intro fits
    cases w with
    | vararg => exact noDots fits
    | punctuator p =>
        have unfit := List.find?_eq_none.1 (Option.map_eq_none_iff.1 missing) p (mem_all p)
        exact unfit (Bool.and_eq_true_iff.2 ⟨live_punctuator_iff.1 live, List.isPrefixOf_iff_prefix.2 fits⟩)

theorem dispatch_eq_some_iff :
    dispatch features u rest.head? rest[1]? = some w ↔ Longest features (u :: rest) w := by
  refine ⟨longest_of_dispatch, fun longest => ?_⟩
  cases found : dispatch features u rest.head? rest[1]? with
  | some v => rw [longest.unique (longest_of_dispatch found)]
  | none => exact absurd longest.fits (not_fits_of_dispatch found longest.live)

end Longest

end Symbol

end LuaTokens
