import LuaTokens.CommandLine.Report

/-! # The command line

The program reports on the files of its job one by one, in their order, and exits
with a code that tells whether all went well.
-/

namespace LuaTokens.CommandLine

/-- What the program leaves behind. -/
structure Outcome where
  output : String
  errors : String
  exitCode : UInt8
  deriving Repr, DecidableEq

namespace Outcome

def ofRefusal (refusal : Refusal) : Outcome :=
  ⟨"", refusal.text, 2⟩

/-- Each line with its line end. -/
def joinLines (lines : List String) : String :=
  String.join (lines.map (· ++ "\n"))

def ofReports (reports : List Report) : Outcome :=
  ⟨joinLines (reports.flatMap (·.output)), joinLines (reports.flatMap (·.errors)),
    if reports.any (·.failed) then 1 else 0⟩

end Outcome

/-- Run the program on its arguments, with `contents` to read a file. -/
def run {m : Type → Type} [Monad m] (contents : String → m (Except ReadFailure ByteString))
    (args : List String) : m Outcome :=
  match Job.ofArgs args with
  | .error refusal => pure (.ofRefusal refusal)
  | .ok job => do
      let reports ← job.paths.mapM fun path => do
        return Report.ofContents job path (← contents path)
      return .ofReports reports

end LuaTokens.CommandLine
