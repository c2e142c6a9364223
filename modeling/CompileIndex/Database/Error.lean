import CompileIndex.Json.Value
import CompileIndex.Path.Basic
import CompileIndex.Shell.Error

/-!
# What can be wrong with a compilation database

Failures concern the whole database; an entry that is at fault is only skipped.
-/
namespace CompileIndex

inductive Failure
  | missingSource (path : Path)
  | unreadable (path : Path) (reason : String)
  | malformed (reason : String)
  | cancelled
  | taskFailed
  deriving DecidableEq, Repr

def Failure.message : Failure → String
  | .missingSource path => "Compilation database file not found: " ++ path.text
  | .unreadable path reason =>
    "Failed to read compilation database file " ++ path.text ++ ": " ++ reason
  | .malformed reason => "Compilation database is not a JSON array of entries: " ++ reason
  | .cancelled => "Import was cancelled"
  | .taskFailed => "Import task failed"

inductive Field
  | file
  | directory
  | command
  deriving DecidableEq, Repr

def Field.name : Field → String
  | .file => "file"
  | .directory => "directory"
  | .command => "command"

inductive Shape
  | text
  | list
  deriving DecidableEq, Repr

def Shape.description : Shape → String
  | .text => "a string"
  | .list => "a sequence"

inductive EntryError
  | notAnObject
  | missingField (field : Field)
  | invalidField (found : Json.Value) (expected : Shape)
  | tokenize (error : Shell.Error)
  deriving Repr

def describe : Json.Value → String
  | .null => "null"
  | .bool b => "boolean \x60" ++ (if b then "true" else "false") ++ "\x60"
  | .number n =>
    (match n with
    | .integer _ => "integer \x60"
    | .double _ => "floating point \x60") ++ n.text ++ "\x60"
  | .string s => "string " ++ Text.quote s
  | .array _ => "sequence"
  | .object _ => "map"

def EntryError.message : EntryError → String
  | .notAnObject => "Entry is not a JSON object"
  | .missingField field => "Entry is missing required field '" ++ field.name ++ "'"
  | .invalidField found expected =>
    "Entry has an invalid field: invalid type: " ++ describe found ++ ", expected "
      ++ expected.description
  | .tokenize error => "Command could not be tokenized: " ++ error.message

end CompileIndex
