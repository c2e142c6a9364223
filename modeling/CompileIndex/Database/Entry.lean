import CompileIndex.Arguments
import CompileIndex.Database.Error
import CompileIndex.Language
import CompileIndex.Shell.Expansion

/-!
# Entries of a compilation database

An entry names a source file, the folder its compiler ran in, and the invocation, either as a
command for the shell or as a list of words. A field that is null is a field that is missing.
-/
namespace CompileIndex

structure Entry where
  file : Option String
  directory : Option String
  command : Option String
  arguments : Option (List String)
  deriving DecidableEq, Repr

namespace Entry

def text : Json.Value → Except EntryError String
  | .string s => .ok s
  | v => .error (.invalidField v .text)

def optionalText : Option Json.Value → Except EntryError (Option String)
  | none | some .null => .ok none
  | some v => (text v).map some

def optionalList : Option Json.Value → Except EntryError (Option (List String))
  | none | some .null => .ok none
  | some (.array items) => (items.mapM text).map some
  | some v => .error (.invalidField v .list)

/-- The fields of an object. Their types are checked in the order of their names. -/
def ofJson (v : Json.Value) : Except EntryError Entry :=
  match v with
  | .object _ => do
    let arguments ← optionalList (v.field? "arguments")
    let command ← optionalText (v.field? "command")
    let directory ← optionalText (v.field? "directory")
    let file ← optionalText (v.field? "file")
    return ⟨file, directory, command, arguments⟩
  | _ => .error .notAnObject

/-- The metadata of an invocation in its working folder. A command counts before a list. -/
def metadata (env : Shell.Environment) (fs : FileSystem) (workingFolder : Path) (e : Entry) :
    Except EntryError Metadata :=
  match e.command, e.arguments with
  | some command, _ =>
    match Shell.expandWords env fs workingFolder command with
    | .ok words => .ok (Arguments.classify workingFolder words)
    | .error error => .error (.tokenize error)
  | none, some arguments => .ok (Arguments.classify workingFolder arguments)
  | none, none => .error (.missingField .command)

def withLanguage (file : Path) (m : Metadata) : Metadata :=
  if m.language = "" then { m with language := languageOf file } else m

/-- The file and the metadata of an entry. Its folder starts at that of the database, and its
file at its folder. An error comes with the file as far as it is known. -/
def resolve (env : Shell.Environment) (fs : FileSystem) (databaseFolder : Path) (e : Entry) :
    Except (Option Path × EntryError) (Path × Metadata) :=
  match e.file, e.directory with
  | none, _ => .error (none, .missingField .file)
  | some file, none => .error (some ⟨file⟩, .missingField .directory)
  | some file, some directory =>
    let workingFolder := databaseFolder.resolve ⟨directory⟩
    let file := workingFolder.resolve ⟨file⟩
    match e.metadata env fs workingFolder with
    | .ok m => .ok (file, withLanguage file m)
    | .error error => .error (some file, error)

def askedNames (e : Entry) : List String :=
  match e.file, e.directory, e.command with
  | some _, some _, some command => Shell.askedNames command
  | _, _, _ => []

def askedPatterns (env : Shell.Environment) (databaseFolder : Path) (e : Entry) : List String :=
  match e.file, e.directory, e.command with
  | some _, some directory, some command =>
    Shell.askedPatterns env (databaseFolder.resolve ⟨directory⟩) command
  | _, _, _ => []

end Entry

end CompileIndex
