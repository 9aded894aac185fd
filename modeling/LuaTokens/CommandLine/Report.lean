import LuaTokens.CommandLine.Job
import LuaTokens.Run

/-! # Reports

What the program prints on one file: a line for each token, then one for each
comment held, and a verdict, which is the number of tokens or the diagnostic. A file
that cannot be read as text has a verdict only.
-/

namespace LuaTokens.CommandLine

/-- Why a file has no text. -/
inductive ReadFailure where
  | missing
  /-- The bytes are not well-formed. -/
  | notText
  /-- What the system says. -/
  | refused (message : String)
  deriving Repr, DecidableEq

def ReadFailure.text : ReadFailure → String
  | missing => "No such file or directory (os error 2)"
  | notText => "stream did not contain valid UTF-8"
  | refused message => message

/-- What is printed on one file. -/
structure Report where
  output : List String
  errors : List String
  failed : Bool
  deriving Repr, DecidableEq

namespace Report

/-- One line of output: a place, counted from one, and what is there. -/
def line (path : String) (position : Position) (what : String) : String :=
  path ++ ":" ++ toString position.line ++ ":" ++ toString (position.column + 1) ++ ": " ++ what

/-- Report on a file that cannot be read as text. -/
def ofFailure (path : String) (failure : ReadFailure) : Report :=
  ⟨[], [path ++ ": " ++ failure.text], true⟩

/-- Report on a run: its tokens, then its comments, and their number or the
    diagnostic. -/
def ofRun (path : String) (run : Run) : Report :=
  let tokens := run.tokens.map fun token => line path token.start token.kind.text
  let comments := run.comments.map fun comment =>
    line path comment.start ("comment " ++ comment.body.quoted)
  let verdict :=
    match run.failure with
    | none => path ++ ": " ++ toString run.tokens.length ++ " token(s)"
    | some diagnostic => diagnostic.message
  ⟨tokens ++ comments, [verdict], run.failure.isSome⟩

/-- Report on a file with these contents. -/
def ofContents (job : Job) (path : String) (contents : Except ReadFailure ByteString) : Report :=
  match contents with
  | .error failure => ofFailure path failure
  | .ok bytes =>
      match bytes.toString? with
      | none => ofFailure path .notText
      | some text => ofRun path (.ofText (job.options path) text)

end Report

end LuaTokens.CommandLine
