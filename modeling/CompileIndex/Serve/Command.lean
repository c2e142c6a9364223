import CompileIndex.Session.Query
import CompileIndex.Text.Blank

/-!
# Commands of the host

A line is a word that says what to do and, for most of them, a path that takes up the rest of
the line.
-/
namespace CompileIndex

inductive Command
  | query (path : Path)
  | field (field : MetadataField) (path : Path)
  /-- The database at a path has changed, or without a path that of every project. -/
  | changed (path : Option Path)
  | status
  | quit
  deriving DecidableEq, Repr

inductive CommandError
  | needsPath (verb : String)
  | unknown (verb : String)
  deriving DecidableEq, Repr

def CommandError.message : CommandError → String
  | .needsPath verb => verb ++ " needs a path"
  | .unknown verb => "unknown command '" ++ verb ++ "'"

namespace Command

def ofPath? (verb : String) : Option (Path → Command) :=
  if verb = "query" then some .query else (MetadataField.ofName? verb).map .field

def read (line : String) : Except CommandError Command :=
  let (verb, rest) := Text.firstWord line
  match ofPath? verb with
  | some command => if rest = "" then .error (.needsPath verb) else .ok (command ⟨rest⟩)
  | none =>
    match verb with
    | "changed" => .ok (.changed (if rest = "" then none else some ⟨rest⟩))
    | "status" => .ok .status
    | "quit" | "exit" => .ok .quit
    | _ => .error (.unknown verb)

end Command

end CompileIndex
