import LuaTokens.Number.Shortest
import LuaTokens.Position
import LuaTokens.Token.Keyword
import LuaTokens.Token.Punctuator

/-! # Tokens and comments

What a session delivers: tokens with their decoded values, and comments with the
text they were written in, both with their place in the source.
-/

namespace LuaTokens

/-- What a token is, with its value. -/
inductive Token.Kind where
  /-- The contents of a string, escapes decoded. -/
  | string (contents : ByteString)
  | keyword (word : Keyword)
  | identifier (name : ByteString)
  | number (value : Binary64)
  | punctuator (sign : Punctuator)
  | boolean (value : Bool)
  | nil
  /-- The three dots. -/
  | vararg
  deriving Repr, DecidableEq

namespace Token.Kind

/-- The name of the kind, without the value. -/
def name : Token.Kind → String
  | string _ => "string"
  | keyword _ => "keyword"
  | identifier _ => "identifier"
  | number _ => "number"
  | punctuator _ => "punctuator"
  | boolean _ => "boolean"
  | nil => "nil"
  | vararg => "vararg"

/-- The kind and the value in words. -/
def text : Token.Kind → String
  | string contents => "string " ++ contents.quoted
  | keyword word => "keyword '" ++ word.spelling ++ "'"
  | identifier name => "identifier '" ++ name.lossy ++ "'"
  | number value => "number " ++ value.text
  | punctuator sign => "punctuator '" ++ sign.spelling ++ "'"
  | boolean true => "boolean true"
  | boolean false => "boolean false"
  | nil => "nil"
  | vararg => "'...'"

def isString : Token.Kind → Bool
  | string _ => true
  | _ => false

end Token.Kind

/-- A token and the place of its lexeme. -/
structure Token where
  kind : Token.Kind
  start : Position
  /-- The position just past the lexeme. -/
  stop : Position
  deriving Repr, DecidableEq

namespace Token

/-- The position past the closing delimiter. Only strings have one, since only
    they can end on another line than they begin. -/
def closing? (t : Token) : Option Position :=
  if t.kind.isString then some t.stop else none

/-- The line on which the token ends. -/
def lastLine (t : Token) : Nat :=
  (t.closing?.getD t.start).line

/-- The offset at which that line begins. -/
def lastLineStart (t : Token) : Nat :=
  (t.closing?.getD t.start).lineStart

end Token

/-- A comment, from its dashes to its end. -/
structure Comment where
  /-- The bytes of the body, without dashes and brackets. -/
  body : ByteString
  /-- The comment as written, unpaired surrogates replaced. -/
  raw : String
  start : Position
  stop : Position
  deriving Repr, DecidableEq

end LuaTokens
