import LuaTokens.Dialect.Feature

/-! # Versions

The four language versions, their names, and the features each has by default.
-/

namespace LuaTokens

/-- A language version. -/
inductive Version where
  | lua51
  | lua52
  | lua53
  | luaJit
  deriving Repr, DecidableEq, Inhabited

namespace Version

def name : Version → String
  | lua51 => "5.1"
  | lua52 => "5.2"
  | lua53 => "5.3"
  | luaJit => "JIT"

/-- A text that names no version. -/
structure Unknown where
  text : String
  deriving Repr, DecidableEq

/-- The wording of the refusal. -/
def Unknown.message (u : Unknown) : String :=
  "unknown Lua version '" ++ u.text ++ "', expected one of 5.1, 5.2, 5.3, JIT"

/-- Read a version. The numbered ones are read as written, the last one in any mix
    of ASCII cases and with or without the language's name before it. -/
def ofText (text : String) : Except Unknown Version :=
  let folded := text.toList.map Char.toLower
  if text = "5.1" then .ok lua51
  else if text = "5.2" then .ok lua52
  else if text = "5.3" then .ok lua53
  else if folded = "jit".toList || folded = "luajit".toList then .ok luaJit
  else .error ⟨text⟩

/-- The features that every version but the first has. -/
def commonFeatures : FeatureSet :=
  .ofList [.labels, .hexEscapes, .skipEscape, .strictEscapes]

/-- The features a version has by default. -/
def defaults : Version → FeatureSet
  | lua51 => ∅
  | lua52 => commonFeatures
  | lua53 => commonFeatures ∪ .ofList [.codePointEscapes, .bitwiseOperators, .integerDivision]
  | luaJit => commonFeatures ∪ .ofList [.contextualGoto, .codePointEscapes]

end Version

end LuaTokens
