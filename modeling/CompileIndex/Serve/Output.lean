import CompileIndex.Answer
import CompileIndex.Serve.Command

/-!
# What the host is told

Replies to its commands, and events that come on their own.
-/
namespace CompileIndex

inductive Refusal
  | command (error : CommandError)
  | session (error : SessionError)
  deriving DecidableEq, Repr

def Refusal.message : Refusal → String
  | .command error => error.message
  | .session error => error.message

inductive Output
  | metadata (report : Report)
  | field (path : Path) (value : FieldValue)
  | status (projects : List Status)
  | rescheduled (projects : List ProjectId)
  | refused (cause : Refusal)
  | importFinished (finished : Finished)
  | reanalyze (project : ProjectId)

namespace Output

def isEvent : Output → Bool
  | .importFinished _ => true
  | .reanalyze _ => true
  | _ => false

def label : Output → String
  | .metadata _ => "metadata"
  | .field _ value => value.label
  | .status _ => "status"
  | .rescheduled _ => "rescheduled"
  | .refused _ => "error"
  | .importFinished _ => "import_finished"
  | .reanalyze _ => "reanalyze"

def fields : Output → List (String × Json.Value)
  | .metadata report => report.fields
  | .field path value => [("path", path.json), value.entry]
  | .status projects => [("projects", .array (projects.map Status.json))]
  | .rescheduled projects => [("projects", projectsJson projects)]
  | .refused cause => [("message", .string cause.message)]
  | .importFinished finished => finished.fields
  | .reanalyze project => [("project", project.json)]

def json (o : Output) : Json.Value := .object (("type", .string o.label) :: o.fields)

def paths : Output → List Path
  | .metadata report =>
    report.item.path :: report.metadata.includes ++ report.metadata.frameworkDirectories
  | .field path value => path :: value.paths
  | .status projects => projects.flatMap fun s => [s.layout.projectRoot, s.layout.commandsFile]
  | _ => []

/-- Writing fails at a path that is no text. -/
def isWritable (o : Output) : Bool := o.paths.all (·.isText)

end Output

end CompileIndex
