import LuaTokens.CommandLine.Basic

/-! # The program

Reads the files, prints what the command line says on them, and exits with its code.
-/

namespace LuaTokens.CommandLine

/-- What a failure of the system means for a file. -/
def ReadFailure.ofSystem : IO.Error → ReadFailure
  | .noFileOrDirectory .. => .missing
  | .permissionDenied _ code details | .inappropriateType _ code details =>
      .refused (details ++ " (os error " ++ toString code ++ ")")
  | failure => .refused failure.toString

/-- The bytes of a file. -/
def readFile (path : String) : IO (Except ReadFailure ByteString) := do
  try
    return .ok (← IO.FS.readBinFile path).toList
  catch failure =>
    return .error (.ofSystem failure)

end LuaTokens.CommandLine

def main (args : List String) : IO UInt32 := do
  let outcome ← LuaTokens.CommandLine.run LuaTokens.CommandLine.readFile args
  IO.print outcome.output
  IO.eprint outcome.errors
  return outcome.exitCode.toUInt32
