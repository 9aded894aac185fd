import LuaTokens.Dialect.Feature
import LuaTokens.Text.ByteString

/-! # Keywords

The reserved words. Eighteen of them are reserved in every dialect; the other
three only with the features that ask for them.
-/

namespace LuaTokens

/-- A word that some dialect reserves. -/
inductive Keyword where
  | and_
  | break_
  | do_
  | else_
  | elseif
  | end_
  | for_
  | function
  | if_
  | in_
  | local_
  | not_
  | or_
  | repeat_
  | return_
  | then_
  | until_
  | while_
  | goto
  | const
  | declare
  deriving Repr, DecidableEq

namespace Keyword

def all : List Keyword :=
  [and_, break_, do_, else_, elseif, end_, for_, function, if_, in_, local_, not_, or_, repeat_,
    return_, then_, until_, while_, goto, const, declare]

def spelling : Keyword → String
  | and_ => "and"
  | break_ => "break"
  | do_ => "do"
  | else_ => "else"
  | elseif => "elseif"
  | end_ => "end"
  | for_ => "for"
  | function => "function"
  | if_ => "if"
  | in_ => "in"
  | local_ => "local"
  | not_ => "not"
  | or_ => "or"
  | repeat_ => "repeat"
  | return_ => "return"
  | then_ => "then"
  | until_ => "until"
  | while_ => "while"
  | goto => "goto"
  | const => "const"
  | declare => "declare"

/-- Whether every dialect reserves the word. -/
def isBase : Keyword → Bool
  | goto | const | declare => false
  | _ => true

/-- Whether a dialect with these features reserves the word. -/
def isLive (features : FeatureSet) : Keyword → Bool
  | goto => .labels ∈ features && .contextualGoto ∉ features
  | const => .constKeyword ∈ features
  | declare => .declareKeyword ∈ features
  | _ => true

/-- The bytes of the spelling. -/
def bytes (k : Keyword) : ByteString :=
  .ofString k.spelling

/-- The keyword spelled `word`, in whatever dialect. -/
def ofBytes? (word : ByteString) : Option Keyword :=
  all.find? (·.bytes == word)

/-- The keyword spelled `word` that a dialect with these features reserves. -/
def live? (features : FeatureSet) (word : ByteString) : Option Keyword :=
  (ofBytes? word).filter (·.isLive features)

end Keyword

end LuaTokens
