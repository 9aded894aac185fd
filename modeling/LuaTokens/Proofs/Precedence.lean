import LuaTokens.Options
import Mathlib.Data.List.Induction

/-! # Precedence among changes

Of the changes that mention a feature the last one decides about it, and where none does the
last version decides. Between changes about features and all others the order does not matter.
-/

namespace LuaTokens

/-- No feature is both enabled and disabled. -/
def Adjustment.Consistent (a : Adjustment) : Prop :=
  ∀ f ∈ a.enable, f ∉ a.disable

theorem Adjustment.mem_apply_iff {a : Adjustment} {f : Feature} {base : FeatureSet} (consistent : a.Consistent) :
    f ∈ a.apply base ↔ f ∈ a.enable ∨ f ∈ base ∧ f ∉ a.disable := by
  rw [apply, FeatureSet.mem_diff, FeatureSet.mem_union]
  constructor
  · rintro ⟨default | enabled, kept⟩
    · exact .inr ⟨default, kept⟩
    · exact .inl enabled
  · rintro (enabled | ⟨default, kept⟩)
    · exact ⟨.inr enabled, consistent f enabled⟩
    · exact ⟨.inl default, kept⟩

namespace Options

namespace Change

/-- Whether the change enables or disables features. -/
def adjusts : Change → Bool
  | enable _ | disable _ => true
  | _ => false

/-- The change enables or disables the feature, with or without others. -/
def Mentions (f : Feature) : Change → Prop
  | enable features | disable features => f ∈ features
  | _ => False

def version? : Change → Option Version
  | version v => some v
  | _ => none

end Change

/-- The version set last, the first one if none is set. -/
def lastVersion (changes : List Change) : Version :=
  (changes.filterMap Change.version?).getLast?.getD .lua51

/-- Of the changes that mention the feature this is the last. -/
def LastMention (f : Feature) (changes : List Change) (c : Change) : Prop :=
  ∃ before after, changes = before ++ c :: after ∧ c.Mentions f ∧ ∀ later ∈ after, ¬ later.Mentions f

section Mentions

variable {f : Feature} {changes : List Change} {c last : Change}

theorem not_lastMention_nil : ¬ LastMention f [] c := by
  rintro ⟨before, after, divided, -⟩
  simp at divided

/-- One more change is the last mention if it is one at all, and leaves the last mention else. -/
theorem lastMention_concat : LastMention f (changes ++ [last]) c
    ↔ last.Mentions f ∧ c = last ∨ ¬ last.Mentions f ∧ LastMention f changes c := by
  constructor
  · rintro ⟨before, after, divided, mentions, silent⟩
    rcases List.eq_nil_or_concat after with rfl | ⟨after, other, rfl⟩
    · obtain ⟨-, same⟩ := List.append_inj' divided rfl
      obtain rfl := List.singleton_inj.1 same
      exact .inl ⟨mentions, rfl⟩
    · rw [List.concat_eq_append] at divided silent
      rw [← List.cons_append, ← List.append_assoc] at divided
      obtain ⟨front, same⟩ := List.append_inj' divided rfl
      obtain rfl := List.singleton_inj.1 same
      exact .inr ⟨silent last (by simp), before, after, front, mentions,
        fun later member => silent later (List.mem_append_left _ member)⟩
  · rintro (⟨mentions, rfl⟩ | ⟨silent, before, after, rfl, mentions, earlier⟩)
    · exact ⟨changes, [], rfl, mentions, by simp⟩
    · refine ⟨before, after ++ [last], by simp, mentions, fun later member => ?_⟩
      rcases List.mem_append.1 member with inside | new
      · exact earlier later inside
      · exact List.mem_singleton.1 new ▸ silent

theorem LastMention.unique {c' : Change} (h : LastMention f changes c) (h' : LastMention f changes c') : c = c' := by
  induction changes using List.reverseRecOn with
  | nil => exact absurd h not_lastMention_nil
  | append_singleton changes last ih =>
      rcases lastMention_concat.1 h with ⟨mentions, rfl⟩ | ⟨silent, earlier⟩
      · rcases lastMention_concat.1 h' with ⟨-, rfl⟩ | ⟨silent, -⟩
        · rfl
        · exact absurd mentions silent
      · rcases lastMention_concat.1 h' with ⟨mentions, -⟩ | ⟨-, earlier'⟩
        · exact absurd mentions silent
        · exact ih earlier earlier'

theorem unmentioned_iff : (∀ c ∈ changes, ¬ c.Mentions f) ↔ ∀ c, ¬ LastMention f changes c := by
  induction changes using List.reverseRecOn with
  | nil => simp [not_lastMention_nil]
  | append_singleton changes last ih =>
      by_cases mentions : last.Mentions f
      · refine iff_of_false (fun none => none last (by simp) mentions) fun none => ?_
        exact none last (lastMention_concat.2 (.inl ⟨mentions, rfl⟩))
      · simp [lastMention_concat, mentions, or_imp, forall_and, ih]

theorem LastMention.cases (h : LastMention f changes c) : (∃ s, c = .enable s) ∨ ∃ s, c = .disable s := by
  obtain ⟨-, -, -, mentions, -⟩ := h
  cases c with
  | enable s => exact .inl ⟨s, rfl⟩
  | disable s => exact .inr ⟨s, rfl⟩
  | _ => exact mentions.elim

end Mentions

theorem ofChanges_concat (changes : List Change) (c : Change) :
    ofChanges (changes ++ [c]) = (ofChanges changes).apply c := by
  rw [ofChanges, List.foldl_append]
  rfl

theorem lastVersion_concat (changes : List Change) (c : Change) :
    lastVersion (changes ++ [c]) = c.version?.getD (lastVersion changes) := by
  rw [lastVersion, List.filterMap_append]
  cases c <;> simp [Change.version?, lastVersion]

theorem version_ofChanges (changes : List Change) : (ofChanges changes).version = lastVersion changes := by
  induction changes using List.reverseRecOn with
  | nil => rfl
  | append_singleton changes c ih =>
      rw [ofChanges_concat, lastVersion_concat, ← ih]
      cases c <;> rfl

section Features

variable {f : Feature} {changes : List Change}

theorem mem_adjustment_iff :
    (f ∈ (ofChanges changes).adjustment.enable ↔ ∃ s, LastMention f changes (.enable s))
      ∧ (f ∈ (ofChanges changes).adjustment.disable ↔ ∃ s, LastMention f changes (.disable s)) := by
  induction changes using List.reverseRecOn with
  | nil => simp [ofChanges, not_lastMention_nil]
  | append_singleton changes c ih =>
      obtain ⟨enabled, disabled⟩ := ih
      rw [ofChanges_concat]
      cases c with
      | enable s =>
          by_cases mentions : f ∈ s <;>
            simp [apply, Adjustment.enabling, lastMention_concat, Change.Mentions, mentions, enabled, disabled]
      | disable s =>
          by_cases mentions : f ∈ s <;>
            simp [apply, Adjustment.disabling, lastMention_concat, Change.Mentions, mentions, enabled, disabled]
      | _ => simp [apply, lastMention_concat, Change.Mentions, enabled, disabled]

theorem consistent_ofChanges (changes : List Change) : (ofChanges changes).adjustment.Consistent := by
  intro f enabled disabled
  obtain ⟨s, enables⟩ := mem_adjustment_iff.1.1 enabled
  obtain ⟨t, disables⟩ := mem_adjustment_iff.2.1 disabled
  cases enables.unique disables

theorem mem_features_iff : f ∈ (ofChanges changes).dialect.features
    ↔ (∃ s, LastMention f changes (.enable s))
      ∨ (∀ c ∈ changes, ¬ c.Mentions f) ∧ f ∈ (lastVersion changes).defaults := by
  rw [show (ofChanges changes).dialect.features
      = (ofChanges changes).adjustment.apply (ofChanges changes).version.defaults from rfl,
    Adjustment.mem_apply_iff (consistent_ofChanges changes), version_ofChanges, mem_adjustment_iff.1,
    mem_adjustment_iff.2]
  refine or_congr_right' fun notEnabled => ?_
  rw [unmentioned_iff, and_comm, and_congr_left_iff]
  refine fun _ => ⟨fun notDisabled c last => ?_, fun none ⟨s, last⟩ => none _ last⟩
  rcases last.cases with ⟨s, rfl⟩ | ⟨s, rfl⟩
  · exact notEnabled ⟨s, last⟩
  · exact notDisabled ⟨s, last⟩

end Features

theorem ofChanges_eq (changes : List Change) : ofChanges changes
    = { ofChanges (changes.filter (!·.adjusts)) with
        adjustment := (ofChanges (changes.filter (·.adjusts))).adjustment } := by
  induction changes using List.reverseRecOn with
  | nil => rfl
  | append_singleton changes c ih =>
      rw [ofChanges_concat, ih]
      cases c <;> simp [Change.adjusts, ofChanges_concat, apply]

/-- The last mention of a feature wins. No state has a feature enabled and disabled at once, a
    feature is in force if the last change that mentions it enables it, or if none does and the
    last version has it, and changes about features may stand anywhere among the others. -/
theorem last_mention_wins (changes : List Change) :
    (∀ before, before <+: changes → (ofChanges before).adjustment.Consistent)
      ∧ (∀ f, f ∈ (ofChanges changes).dialect.features
          ↔ (∃ s, LastMention f changes (.enable s))
            ∨ (∀ c ∈ changes, ¬ c.Mentions f) ∧ f ∈ (lastVersion changes).defaults)
      ∧ ∀ others : List Change, others.filter (·.adjusts) = changes.filter (·.adjusts) →
          others.filter (!·.adjusts) = changes.filter (!·.adjusts) → ofChanges others = ofChanges changes := by
  refine ⟨fun before _ => consistent_ofChanges before, fun f => mem_features_iff, ?_⟩
  intro others adjusting plain
  rw [ofChanges_eq others, adjusting, plain, ← ofChanges_eq]

/-- Overlapping sets, with two versions among them or in front of them. -/
theorem last_mention_wins_overlapping :
    let first : FeatureSet := .ofList [.labels, .hexEscapes]
    let second : FeatureSet := .ofList [.hexEscapes, .integerDivision, .constKeyword]
    let changes := [.enable first, .version .lua53, .disable second, .comments true,
      .enable (.singleton .constKeyword), .version .lua52]
    let others := [.version .lua53, .comments true, .version .lua52, .enable first, .disable second,
      .enable (.singleton .constKeyword)]
    changes.take 3 <+: changes ∧ (ofChanges (changes.take 3)).adjustment.Consistent
      ∧ .constKeyword ∈ (ofChanges changes).dialect.features
      ∧ .hexEscapes ∉ (ofChanges changes).dialect.features
      ∧ others.filter (·.adjusts) = changes.filter (·.adjusts)
      ∧ others.filter (!·.adjusts) = changes.filter (!·.adjusts)
      ∧ ofChanges others = ofChanges changes := by
  intro first second changes others
  obtain ⟨consistent, mem, independent⟩ := last_mention_wins changes
  have front : changes.take 3 <+: changes := List.take_prefix 3 changes
  have adjusting : others.filter (·.adjusts) = changes.filter (·.adjusts) := by decide
  have plain : others.filter (!·.adjusts) = changes.filter (!·.adjusts) := by decide
  have enabled : ∃ s, LastMention .constKeyword changes (.enable s) :=
    ⟨.singleton .constKeyword, changes.take 4, [.version .lua52], rfl,
      FeatureSet.mem_singleton.2 rfl, by simp [Change.Mentions]⟩
  have refused : .hexEscapes ∉ (ofChanges changes).dialect.features := by decide
  exact ⟨front, consistent _ front, (mem _).2 (.inl enabled), refused, adjusting, plain,
    independent others adjusting plain⟩

end Options

end LuaTokens
