import LuaTokens.Proofs.Lexeme.Withdrawal
import LuaTokens.Proofs.Part
import LuaTokens.Proofs.Rendering
import LuaTokens.Proofs.Transcoding

/-! # Spellings

A keyword, a punctuator, a boolean, nil and the three dots are written in one way only,
and that is what their range of the source holds. A word goes as far as it can, and its
bytes alone decide what it is: a keyword that the dialect reserves, a boolean, nil, or
else an identifier.
-/

namespace LuaTokens

/-- The words that a dialect with these features reserves. -/
inductive Keyword.Reserved (features : FeatureSet) : Keyword → Prop where
  | base {k : Keyword} (base : k.isBase = true) : Reserved features k
  | goto (labels : .labels ∈ features) (jumps : .contextualGoto ∉ features) : Reserved features .goto
  | const (has : .constKeyword ∈ features) : Reserved features .const
  | declare (has : .declareKeyword ∈ features) : Reserved features .declare

theorem Keyword.isLive_iff {features : FeatureSet} {k : Keyword} :
    k.isLive features = true ↔ k.Reserved features := by
  constructor
  · intro live
    cases k with
    | goto =>
        simp only [isLive, Bool.and_eq_true, decide_eq_true_eq] at live
        exact .goto live.1 live.2
    | const => exact .const (of_decide_eq_true live)
    | declare => exact .declare (of_decide_eq_true live)
    | _ => exact .base rfl
  · intro reserved
    cases reserved with
    | base base => cases k <;> first | rfl | cases base
    | goto labels jumps => simp [isLive, labels, jumps]
    | const has | declare has => exact decide_eq_true has

namespace Token.Kind

/-- The spelling of a token that is written in one way only. -/
def spelling? : Token.Kind → Option String
  | keyword word => some word.spelling
  | punctuator sign => some sign.spelling
  | boolean true => some "true"
  | boolean false => some "false"
  | nil => some "nil"
  | vararg => some "..."
  | string _ | identifier _ | number _ => none

theorem ascii_of_isWord {kind : Token.Kind} {spelling : String} (word : kind.isWord = true)
    (spelled : kind.spelling? = some spelling) : ∀ c ∈ spelling.toList, c.toNat ≤ 0x7E := by
  suffices all : (spelling.toList.all fun c => c.toNat ≤ 0x7E) = true by simpa using all
  cases kind with
  | keyword k =>
      cases spelled
      cases k <;> decide
  | boolean value => cases value <;> cases spelled <;> decide
  | nil =>
      cases spelled
      decide
  | identifier name => cases spelled
  | _ => cases word

end Token.Kind

namespace ByteString

theorem eq_spellingUnits_of_ofUnits {units : List CodeUnit} {spelling : String}
    (ascii : ∀ c ∈ spelling.toList, c.toNat ≤ 0x7E) (same : ofUnits units = ofString spelling) :
    units = spellingUnits spelling := by
  rw [← ofUnits_encode, Utf16.encode_of_ascii ascii] at same
  exact Function.LeftInverse.injective units_ofUnits same

end ByteString

theorem Cut.text_ofWidth {α : Type} {units input : List CodeUnit} {value : α} (front : units <+: input) :
    (Cut.ofWidth units.length input value).text = units :=
  (List.prefix_iff_eq_take.1 front).symm

namespace Lexeme

section Words

variable {features : FeatureSet} {name : ByteString} {kind : Token.Kind}

/-- What a word with these bytes is: a keyword if it spells one that the dialect reserves, or
    else a boolean or nil if it spells one of these, and an identifier otherwise. -/
inductive WordKind (features : FeatureSet) (name : ByteString) : Token.Kind → Prop where
  | keyword {k : Keyword} (reserved : k.Reserved features) (same : name = .ofString k.spelling) :
      WordKind features name (.keyword k)
  | boolTrue (same : name = .ofString "true") : WordKind features name (.boolean true)
  | boolFalse (same : name = .ofString "false") : WordKind features name (.boolean false)
  | nil (same : name = .ofString "nil") : WordKind features name .nil
  | identifier (unreserved : ∀ k : Keyword, k.Reserved features → name ≠ .ofString k.spelling)
      (noTrue : name ≠ .ofString "true") (noFalse : name ≠ .ofString "false")
      (noNil : name ≠ .ofString "nil") : WordKind features name (.identifier name)

theorem live?_eq_some {k : Keyword} :
    Keyword.live? features name = some k ↔ k.Reserved features ∧ name = .ofString k.spelling := by
  rw [Keyword.live?, Option.filter_eq_some_iff, Keyword.isLive_iff, and_comm]
  refine and_congr_right fun _ => ⟨bytes_of_ofBytes?, ?_⟩
  rintro rfl
  cases k <;> decide

theorem wordKind_classifyWord (features : FeatureSet) (name : ByteString) :
    WordKind features name (classifyWord features name) := by
  unfold classifyWord
  split
  next k found =>
    obtain ⟨reserved, same⟩ := live?_eq_some.1 found
    exact .keyword reserved same
  next missing =>
    split
    next same => exact .boolTrue same
    next noTrue =>
      split
      next same => exact .boolFalse same
      next noFalse =>
        split
        next same => exact .nil same
        next noNil =>
          refine .identifier (fun k reserved same => ?_) noTrue noFalse noNil
          rw [live?_eq_some.2 ⟨reserved, same⟩] at missing
          cases missing

theorem wordKind_iff : WordKind features name kind ↔ kind = classifyWord features name := by
  constructor
  · intro h
    cases h with
    | keyword reserved same => rw [classifyWord, live?_eq_some.2 ⟨reserved, same⟩]
    | boolTrue same | boolFalse same | nil same =>
        subst same
        rw [classifyWord_of_none (by decide)]
        rfl
    | identifier unreserved noTrue noFalse noNil =>
        have missing : Keyword.live? features name = none := by
          rw [Option.eq_none_iff_forall_ne_some]
          intro k found
          obtain ⟨reserved, same⟩ := live?_eq_some.1 found
          exact unreserved k reserved same
        simp only [classifyWord, missing, noTrue, noFalse, noNil, if_false]
  · rintro rfl
    exact wordKind_classifyWord features name

theorem WordKind.unique {other : Token.Kind} (h : WordKind features name kind) :
    WordKind features name other ↔ kind = other := by
  rw [wordKind_iff, ← wordKind_iff.1 h, eq_comm]

theorem WordKind.isWord (h : WordKind features name kind) : kind.isWord = true := by
  cases h <;> rfl

theorem WordKind.eq_spellingUnits {units : List CodeUnit} {spelling : String}
    (h : WordKind features (.ofUnits units) kind) (spelled : kind.spelling? = some spelling) :
    units = spellingUnits spelling := by
  apply ByteString.eq_spellingUnits_of_ofUnits (Token.Kind.ascii_of_isWord h.isWord spelled)
  cases h with
  | keyword _ same | boolTrue same | boolFalse same | nil same =>
      cases spelled
      exact same
  | identifier => cases spelled

theorem WordKind.eq_identifier {units : List CodeUnit} {u : CodeUnit}
    (h : WordKind features (.ofUnits units) kind) (member : u ∈ units) (high : 0x80 ≤ u) :
    kind = .identifier (.ofUnits units) := by
  cases spelled : kind.spelling? with
  | none =>
      cases h with
      | identifier => rfl
      | _ => cases spelled
  | some spelling =>
      rw [h.eq_spellingUnits spelled] at member
      obtain ⟨c, inSpelling, rfl⟩ := List.mem_map.1 member
      have ascii := Token.Kind.ascii_of_isWord h.isWord spelled c inSpelling
      rw [CodeUnit.of, UInt16.le_iff_toNat_le, UInt16.toNat_ofNat', Nat.mod_eq_of_lt (by omega)] at high
      exact absurd (Nat.le_trans high ascii) (by decide)

end Words

section Readings

variable {g : Grammar} {u : CodeUnit} {text rest : List CodeUnit} {kind : Token.Kind}

theorem word_of_read (first : u.isNameStart g.extendedIdentifiers = true)
    (h : read g (u :: text ++ rest) = .read ⟨.token kind, u :: text, rest⟩) :
    (∀ v ∈ u :: text, v.isNamePart g.extendedIdentifiers = true)
      ∧ Stops (CodeUnit.isNamePart g.extendedIdentifiers) rest
      ∧ WordKind g.features (.ofUnits (u :: text)) kind := by
  rw [List.cons_append, read_word first, ← List.cons_append] at h
  simp only [readWord, Cut.ofRun, Cut.map, Reading.read.injEq, Cut.mk.injEq, Lexeme.token.injEq] at h
  obtain ⟨same, taken, left⟩ := h
  refine ⟨?_, ?_, ?_⟩
  · intro v member
    rw [← taken] at member
    exact List.mem_takeWhile_imp member
  · rw [← left]
    exact stops_dropWhile _
  · rw [← taken, wordKind_iff, same]

theorem symbol_of_read (other : u.isNameStart g.extendedIdentifiers = false)
    (h : read g (u :: text ++ rest) = .read ⟨.token kind, u :: text, rest⟩) :
    kind.isWord = false ∧ ∀ spelling, kind.spelling? = some spelling → u :: text = spellingUnits spelling := by
  have found := form g (u :: text ++ rest)
  rw [h] at found
  generalize inputEq : u :: text ++ rest = input at found
  generalize outcomeEq : Reading.read ⟨.token kind, u :: text, rest⟩ = outcome at found
  cases found with
  | finished => cases inputEq
  | space => cases outcomeEq
  | comment line =>
      rcases cut_of_readComment outcomeEq.symm with ⟨_, -, same⟩ | ⟨-, same⟩ <;> cases same
  | word rest first =>
      cases inputEq
      rw [first] at other
      cases other
  | quoted rest quote =>
      obtain ⟨inner, -, same⟩ := Reading.exists_of_ofToken outcomeEq.symm
      cases congrArg Cut.value same
      exact ⟨rfl, nofun⟩
  | numeral rest begins =>
      obtain ⟨inner, -, same⟩ := Reading.exists_of_ofToken outcomeEq.symm
      cases congrArg Cut.value same
      exact ⟨rfl, nofun⟩
  | longString rest begins =>
      obtain ⟨inner, -, same⟩ := cut_of_readLongString outcomeEq.symm
      cases congrArg Cut.value same
      exact ⟨rfl, nofun⟩
  | symbol rest =>
      rcases cut_of_readSymbol outcomeEq.symm with ⟨front, same⟩ | ⟨sign, -, -, front, same⟩
      all_goals
        cases congrArg Cut.value same
        refine ⟨rfl, fun spelling found => ?_⟩
        cases found
        exact (congrArg Cut.text same).trans (Cut.text_ofWidth front)

end Readings

end Lexeme

namespace Run

/-- Every token of a run that is not a string or a number is spelled where it stands, and every
    word is as long as it can be and of the kind that its bytes alone decide. -/
theorem tokens_spelled (o : Options) (source : List CodeUnit) {t : Token}
    (member : t ∈ (ofUnits o source).tokens) :
    let text := (Part.token t).slice source
    (∀ spelling, t.kind.spelling? = some spelling → text = spellingUnits spelling)
      ∧ (∀ name, t.kind = .identifier name → name = .ofUnits text)
      ∧ (t.kind.isWord = true ↔ ∃ u ∈ text.head?, u.isNameStart o.extendedIdentifiers = true)
      ∧ (t.kind.isWord = true →
          (∀ u ∈ text, u.isNamePart o.extendedIdentifiers = true)
            ∧ (∀ u ∈ source[t.stop.offset]?, u.isNamePart o.extendedIdentifiers = false)
            ∧ (∀ kind, Lexeme.WordKind o.dialect.features (.ofUnits text) kind ↔ t.kind = kind)
            ∧ ((∃ u ∈ text, 0x80 ≤ u) → t.kind = .identifier (.ofUnits text))) := by
  intro text
  rw [ofUnits_eq] at member
  obtain ⟨⟨value, units, start⟩, inTrace, token⟩ := List.mem_filterMap.1 member
  obtain ⟨before, after, readAt⟩ := readAt_of_mem_trace inTrace
  cases value with
  | space | comment => cases token
  | token kind =>
      cases token
      have slice : text = units := readAt.slice_eq rfl
      have behind : source[(Piece.stop ⟨.token kind, units, start⟩).offset]? = after.head? := by
        rw [← List.head?_drop, readAt.stop.drop_eq]
      obtain ⟨u, tail, rfl⟩ := List.exists_cons_of_ne_nil readAt.text_ne_nil
      rw [slice, behind]
      simp only [List.head?_cons, Option.mem_some_iff, exists_eq_left']
      cases first : u.isNameStart o.extendedIdentifiers with
      | true =>
          obtain ⟨units, stops, word⟩ := Lexeme.word_of_read first readAt.read
          refine ⟨fun spelling => word.eq_spellingUnits, ?_, ⟨fun _ => rfl, fun _ => word.isWord⟩,
            fun _ => ⟨units, stops, fun other => word.unique, ?_⟩⟩
          · rintro name rfl
            cases word
            rfl
          · rintro ⟨v, inWord, high⟩
            exact word.eq_identifier inWord high
      | false =>
          obtain ⟨noWord, spelled⟩ := Lexeme.symbol_of_read first readAt.read
          refine ⟨spelled, ?_, ⟨fun word => ?_, fun start => by cases start⟩, fun word => ?_⟩
          · rintro name rfl
            cases noWord
          · exact noWord.symm.trans word
          · cases noWord.symm.trans word

/-- A keyword that not all dialects reserve, behind a name outside ASCII and a sign. -/
theorem tokens_spelled_goto :
    let o : Options := { version := .lua52, extendedIdentifiers := true }
    let source : List CodeUnit := 0xE9 :: spellingUnits "=goto"
    let t : Token := ⟨.keyword .goto, ⟨1, 0, 2⟩, ⟨1, 0, 6⟩⟩
    t ∈ (ofUnits o source).tokens ∧ (Part.token t).slice source = spellingUnits "goto"
      ∧ ∀ kind, Lexeme.WordKind o.dialect.features (.ofString "goto") kind ↔ .keyword .goto = kind := by
  intro o source t
  have member : t ∈ (ofUnits o source).tokens := by decide +kernel
  obtain ⟨spelled, -, -, word⟩ := tokens_spelled o source member
  have slice : (Part.token t).slice source = spellingUnits "goto" := spelled "goto" rfl
  obtain ⟨-, -, kinds, -⟩ := word rfl
  rw [slice] at kinds
  exact ⟨member, slice, kinds⟩

end Run

end LuaTokens
