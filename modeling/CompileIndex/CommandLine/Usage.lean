/-!
# Wrong usage

Why a command line is not carried out. Asking for help or for the version counts as a reason.
-/
namespace CompileIndex.CommandLine

inductive UsageError
  | help
  | version
  | nothingGiven
  | missingCommand
  | unknownCommand (word : String)
  | unexpected (word : String)
  /-- A value is missing, empty, or none of those allowed. -/
  | invalidValue (option : String)
  | invalidVariable (text : String)
  | repeated (option : String)
  | valueNotTaken (option : String)
  | missingPath
  deriving DecidableEq, Repr

namespace UsageError

def variableMessage (text : String) : String := "expected NAME=VALUE, got '" ++ text ++ "'"

def usage : String :=
  "Usage: compdb-meta [--root DIR] [--compile-commands FILE] [--var NAME=VALUE]... "
    ++ "[--log-level LEVEL] [--log-file FILE] (query [--field FIELD] PATH... | check | serve)"

def versionLine : String := "compdb-meta 0.1.0"

def message : UsageError → String
  | .help => usage
  | .version => versionLine
  | .nothingGiven => usage
  | .missingCommand => "error: a command is required: query, check or serve"
  | .unknownCommand word => "error: unrecognized command '" ++ word ++ "'"
  | .unexpected word => "error: unexpected argument '" ++ word ++ "'"
  | .invalidValue option => "error: missing or invalid value for '" ++ option ++ "'"
  | .invalidVariable text => "error: invalid value for '--var': " ++ variableMessage text
  | .repeated option => "error: '" ++ option ++ "' cannot be used more than once"
  | .valueNotTaken option => "error: '" ++ option ++ "' takes no value"
  | .missingPath => "error: query needs a path"

/-- What was asked for is written to standard output, and the program succeeds. -/
def isAnswer : UsageError → Bool
  | .help => true
  | .version => true
  | _ => false

end UsageError

end CompileIndex.CommandLine
