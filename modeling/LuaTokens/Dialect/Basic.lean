import LuaTokens.Dialect.Version
import LuaTokens.Token.Keyword

/-! # Dialects

A dialect is a version together with the features that result from its defaults
and from explicit adjustments.
-/

namespace LuaTokens

/-- Features to add to a version's defaults, and features to take away. -/
structure Adjustment where
  enable : FeatureSet := ∅
  disable : FeatureSet := ∅
  deriving Repr, DecidableEq, Inhabited

namespace Adjustment

/-- Add the enabled features, then take away the disabled ones. -/
def apply (a : Adjustment) (base : FeatureSet) : FeatureSet :=
  (base ∪ a.enable) \ a.disable

/-- Enable `features`, whatever was said of them before. -/
def enabling (a : Adjustment) (features : FeatureSet) : Adjustment :=
  ⟨a.enable ∪ features, a.disable \ features⟩

/-- Disable `features`, whatever was said of them before. -/
def disabling (a : Adjustment) (features : FeatureSet) : Adjustment :=
  ⟨a.enable \ features, a.disable ∪ features⟩

end Adjustment

/-- A version and the features in force. -/
structure Dialect where
  version : Version
  features : FeatureSet
  deriving Repr, DecidableEq, Inhabited

namespace Dialect

/-- The dialect of a version after an adjustment. -/
def resolve (version : Version) (adjustment : Adjustment) : Dialect :=
  ⟨version, adjustment.apply version.defaults⟩

/-- The words the dialect reserves, in the order of all keywords. -/
def keywords (d : Dialect) : List Keyword :=
  Keyword.all.filter (·.isLive d.features)

end Dialect

end LuaTokens
