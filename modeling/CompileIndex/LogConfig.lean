import CompileIndex.Path.Basic

/-!
# Where the log goes

Level, file and form of the log, as the environment sets them and the command line overrides.
-/
namespace CompileIndex

structure LogConfig where
  level : String
  /-- The standard error stream when there is none. -/
  file : Option Path
  json : Bool
  deriving DecidableEq, Repr

namespace LogConfig

def default : LogConfig := ⟨"info", none, false⟩

def withProcessId (p : Path) (processId : String) : Path :=
  match p.stem? with
  | none => p
  | some stem =>
    let stem := Text.Utf8.lossy stem
    match p.extension?.getD "" with
    | "" => p.withFileName (stem ++ "." ++ processId)
    | extension => p.withFileName (stem ++ "." ++ processId ++ "." ++ extension)

def ofEnvironment (lookup : String → Option String) (processId : String) : LogConfig where
  level := (lookup "RUST_LOG").getD default.level
  file := (lookup "COMPDB_LOG_FILE").map fun text =>
    if lookup "COMPDB_LOG_UNIQUE" == some "true" then withProcessId ⟨text⟩ processId
    else ⟨text⟩
  json := lookup "COMPDB_LOG_JSON" == some "true"

def withOverrides (c : LogConfig) (level : Option String) (file : Option Path) : LogConfig :=
  { c with level := level.getD c.level, file := file.or c.file }

end LogConfig

end CompileIndex
