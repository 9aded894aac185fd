import LuaTokens.Dialect.Basic

/-! # Options

What a session can be asked for. Options are built by a sequence of changes, of
which a later one overrides an earlier one about the same thing.
-/

namespace LuaTokens

/-- The options of a session. -/
structure Options where
  version : Version := .lua51
  adjustment : Adjustment := {}
  /-- Hold comments instead of dropping them. -/
  comments : Bool := false
  /-- Leave out a first line that begins with `#!`. -/
  ignoreShebang : Bool := true
  /-- Let names hold code units outside ASCII. -/
  extendedIdentifiers : Bool := false
  /-- The name put before the message of a diagnostic. -/
  chunk : Option String := none
  deriving Repr, DecidableEq, Inhabited

namespace Options

/-- One change to options. -/
inductive Change where
  | version (v : Version)
  | enable (features : FeatureSet)
  | disable (features : FeatureSet)
  | comments (hold : Bool)
  | ignoreShebang (ignore : Bool)
  | extendedIdentifiers (allow : Bool)
  | chunk (name : String)
  deriving Repr, DecidableEq

def apply (o : Options) : Change → Options
  | .version v => { o with version := v }
  | .enable features => { o with adjustment := o.adjustment.enabling features }
  | .disable features => { o with adjustment := o.adjustment.disabling features }
  | .comments hold => { o with comments := hold }
  | .ignoreShebang ignore => { o with ignoreShebang := ignore }
  | .extendedIdentifiers allow => { o with extendedIdentifiers := allow }
  | .chunk name => { o with chunk := some name }

/-- The default options after `changes`, in order. -/
def ofChanges (changes : List Change) : Options :=
  changes.foldl apply {}

def dialect (o : Options) : Dialect :=
  .resolve o.version o.adjustment

end Options

end LuaTokens
