import LuaTokens.Options

/-! # Jobs

The arguments of the program are options, which hold for all files wherever they
stand, and paths. Arguments that make no job are refused, the first offence
deciding, before any file is read.
-/

namespace LuaTokens.CommandLine

/-- Why arguments make no job. -/
inductive Refusal where
  /-- No arguments, or a request for help. -/
  | usage
  | missingVersion
  | unknownVersion (version : Version.Unknown)
  | unknownOption (flag : String)
  | noFiles
  deriving Repr, DecidableEq

/-- What the program says on how to use it. -/
def usageText : String :=
  "Usage: lualex [options] <files...>\n" ++
  "\n" ++
  "Options:\n" ++
  "  --lua-version <V>        5.1 (default), 5.2, 5.3 or JIT\n" ++
  "  --comments               Print comments as well\n" ++
  "  --extended-identifiers   Allow non-ASCII identifiers\n" ++
  "  --keep-shebang           Lex a leading #! line\n" ++
  "  --const                  Enable the const keyword\n" ++
  "  --type-check             Enable the declare keyword\n" ++
  "\n" ++
  "Examples:\n" ++
  "  lualex script.lua\n" ++
  "  lualex --lua-version 5.3 --comments init.lua\n"

/-- The refusal in words, with its line end. -/
def Refusal.text : Refusal → String
  | usage => usageText
  | missingVersion => "Error: --lua-version needs a value\n"
  | unknownVersion version => "Error: " ++ version.message ++ "\n"
  | unknownOption flag => "Unknown option: " ++ flag ++ "\n"
  | noFiles => "Error: no files specified\n"

/-- What arguments ask for: options as a sequence of changes, and the paths. -/
structure Job where
  changes : List Options.Change
  paths : List String
  deriving Repr, DecidableEq

/-- The change that a flag without a value stands for. -/
def flag? (argument : String) : Option Options.Change :=
  if argument = "--comments" then some (.comments true)
  else if argument = "--extended-identifiers" then some (.extendedIdentifiers true)
  else if argument = "--keep-shebang" then some (.ignoreShebang false)
  else if argument = "--const" then some (.enable (.ofList [.constKeyword]))
  else if argument = "--type-check" then some (.enable (.ofList [.declareKeyword]))
  else none

/-- Whether the argument can only be meant as an option. -/
def looksLikeFlag (argument : String) : Bool :=
  ['-', '-'].isPrefixOf argument.toList

namespace Job

def addChange (change : Options.Change) (job : Job) : Job :=
  { job with changes := change :: job.changes }

def addPath (path : String) (job : Job) : Job :=
  { job with paths := path :: job.paths }

/-- Sort arguments into changes and paths. The first that is refused decides. -/
def sort : List String → Except Refusal Job
  | [] => .ok ⟨[], []⟩
  | "--lua-version" :: rest =>
      match rest with
      | [] => .error .missingVersion
      | value :: rest =>
          match Version.ofText value with
          | .ok version => (sort rest).map (addChange (.version version))
          | .error unknown => .error (.unknownVersion unknown)
  | argument :: rest =>
      match flag? argument with
      | some change => (sort rest).map (addChange change)
      | none =>
          if looksLikeFlag argument then .error (.unknownOption argument)
          else (sort rest).map (addPath argument)

/-- The job that arguments ask for. Help is given only if asked for first. -/
def ofArgs (args : List String) : Except Refusal Job :=
  if args.head?.all fun first => first = "--help" || first = "-h" then .error .usage
  else
    match sort args with
    | .error refusal => .error refusal
    | .ok job => if job.paths = [] then .error .noFiles else .ok job

/-- The options for one of the files, which is named in its diagnostics. -/
def options (job : Job) (path : String) : Options :=
  .ofChanges (job.changes ++ [.chunk path])

end Job

end LuaTokens.CommandLine
