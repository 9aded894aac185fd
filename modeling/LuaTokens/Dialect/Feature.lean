/-! # Lexical features

The features in which dialects differ, and sets of them. A set is a bit per
feature, in the order of the list of all features.
-/

namespace LuaTokens

/-- A lexical feature that a dialect may have. -/
inductive Feature where
  /-- The punctuator `::` and the keyword `goto`. -/
  | labels
  /-- The word `goto` stays a name even with labels. -/
  | contextualGoto
  /-- Escapes `\xXX`. -/
  | hexEscapes
  /-- The escape `\z`, which skips white space. -/
  | skipEscape
  /-- Unknown escapes are faults and do not stand for themselves. -/
  | strictEscapes
  /-- Escapes `\u` with a code point in braces. -/
  | codePointEscapes
  /-- The punctuators `&`, `~`, `<<` and `>>`. -/
  | bitwiseOperators
  /-- The punctuator `//`. -/
  | integerDivision
  /-- The keyword `const`. -/
  | constKeyword
  /-- The keyword `declare`. -/
  | declareKeyword
  deriving Repr, DecidableEq

namespace Feature

def all : List Feature :=
  [labels, contextualGoto, hexEscapes, skipEscape, strictEscapes, codePointEscapes,
    bitwiseOperators, integerDivision, constKeyword, declareKeyword]

/-- The place of a feature in the list of all features. -/
def index : Feature → Fin 10
  | labels => 0
  | contextualGoto => 1
  | hexEscapes => 2
  | skipEscape => 3
  | strictEscapes => 4
  | codePointEscapes => 5
  | bitwiseOperators => 6
  | integerDivision => 7
  | constKeyword => 8
  | declareKeyword => 9

end Feature

/-- A set of features. -/
structure FeatureSet where
  bits : BitVec 10
  deriving Repr, DecidableEq

namespace FeatureSet

def empty : FeatureSet := ⟨0#10⟩

instance : EmptyCollection FeatureSet := ⟨empty⟩

instance : Inhabited FeatureSet := ⟨empty⟩

def contains (s : FeatureSet) (f : Feature) : Bool :=
  s.bits.getLsb f.index

instance : Membership Feature FeatureSet := ⟨fun s f => s.contains f = true⟩

instance (f : Feature) (s : FeatureSet) : Decidable (f ∈ s) :=
  inferInstanceAs (Decidable (s.contains f = true))

def singleton (f : Feature) : FeatureSet :=
  ⟨BitVec.twoPow 10 f.index⟩

def union (s t : FeatureSet) : FeatureSet :=
  ⟨s.bits ||| t.bits⟩

instance : Union FeatureSet := ⟨union⟩

def diff (s t : FeatureSet) : FeatureSet :=
  ⟨s.bits &&& ~~~t.bits⟩

instance : SDiff FeatureSet := ⟨diff⟩

def ofList (features : List Feature) : FeatureSet :=
  features.foldl (fun s f => s ∪ singleton f) ∅

/-- The features of the set, in the order of all features. -/
def toList (s : FeatureSet) : List Feature :=
  Feature.all.filter s.contains

/-- Every feature of `t` is in `s`. -/
def includes (s t : FeatureSet) : Bool :=
  s.bits &&& t.bits == t.bits

theorem mem_iff_contains {f : Feature} {s : FeatureSet} : f ∈ s ↔ s.contains f = true :=
  Iff.rfl

@[simp] theorem not_mem_empty (f : Feature) : f ∉ (∅ : FeatureSet) := by
  cases f <;> decide

@[simp] theorem mem_union {f : Feature} {s t : FeatureSet} : f ∈ s ∪ t ↔ f ∈ s ∨ f ∈ t := by
  change (s.bits ||| t.bits).getLsb f.index = true ↔ _
  simp [mem_iff_contains, contains]

@[simp] theorem mem_diff {f : Feature} {s t : FeatureSet} : f ∈ s \ t ↔ f ∈ s ∧ f ∉ t := by
  change (s.bits &&& ~~~t.bits).getLsb f.index = true ↔ _
  simp [mem_iff_contains, contains]

theorem mem_singleton {f g : Feature} : f ∈ singleton g ↔ f = g := by
  cases f <;> cases g <;> decide

end FeatureSet

end LuaTokens
