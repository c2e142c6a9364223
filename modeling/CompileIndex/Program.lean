import CompileIndex.CommandLine.Invocation
import CompileIndex.Database.Report
import CompileIndex.Json.Printer
import CompileIndex.LogConfig
import CompileIndex.Serve.Service

/-!
# The program

What a run of the program does with its command line and its surroundings.
-/
namespace CompileIndex

structure Surroundings where
  values : Shell.Variables
  workingFolder : Path
  processId : String

/-- How a run ends: its exit code and what it writes at the end. -/
structure Ending where
  code : Nat
  output : List String
  error : List String
  deriving DecidableEq, Repr

namespace Ending

/-- A request for help or for the version succeeds; wrong usage has a code of its own. -/
def ofUsage (e : CommandLine.UsageError) : Ending :=
  if e.isAnswer then ⟨0, [e.message], []⟩ else ⟨2, [], [e.message]⟩

def ofLog (reason : String) : Ending := ⟨1, [], ["Failed to initialize logging: " ++ reason]⟩

def ofInput (r : Text.Utf8.Refusal) : Ending :=
  let length := match r.length with
    | some n => "Some(" ++ toString n ++ ")"
    | none => "None"
  ⟨1, [], ["Error: Custom \x7b kind: InvalidData, error: Utf8Error \x7b valid_up_to: "
    ++ toString r.validUpTo ++ ", error_len: " ++ length ++ " \x7d \x7d"]⟩

def unwritable : Ending :=
  ⟨1, [], ["Error: Error(\"path contains invalid UTF-8 characters\", line: 0, column: 0)"]⟩

def ofReport (r : DatabaseReport) : Ending :=
  if r.isWritable then ⟨0, [r.json.text], []⟩ else unwritable

end Ending

namespace Invocation

def logConfig (i : Invocation) (s : Surroundings) : LogConfig :=
  (LogConfig.ofEnvironment s.values s.processId).withOverrides i.options.logLevel
    i.options.logFile

def root (i : Invocation) (s : Surroundings) : Path :=
  s.workingFolder.resolve (i.options.root.getD s.workingFolder)

def commandsFileVariable : String := "COMPDB_COMMANDS_FILE"

def layout (i : Invocation) (s : Surroundings) : Layout :=
  .ofOverrides (i.root s) i.options.commandsFile (s.values commandsFileVariable)

def environment (i : Invocation) (s : Surroundings) : Shell.Environment :=
  ⟨.overlay i.options.assignments.reverse s.values, s.processId⟩

def project : ProjectId := .nth 0

def requestCapacity : Nat := 64

def workspace (i : Invocation) (s : Surroundings) : Workspace :=
  let w := Workspace.empty requestCapacity
  { w with session := w.session.attach project (i.layout s) }

def check (i : Invocation) (s : Surroundings) (fs : FileSystem) : DatabaseReport :=
  let source := (i.layout s).commandsFile
  .ofImport source (Database.load (i.environment s) fs source)

def imported (i : Invocation) (s : Surroundings) (fs : FileSystem) : Session :=
  (((i.workspace s).settle (i.environment s) fs).handleAll).2.session

def answer (i : Invocation) (s : Surroundings) (fs : FileSystem) (session : Session)
    (field : Option MetadataField) (path : Path) : Except SessionError Output :=
  let item := Session.item fs (i.root s) path
  match field with
  | some field => do return .field item.path (← session.field fs project item field)
  | none => do return .metadata (← session.report fs project item)

/-- A full answer stands for itself, without the word that tells a host what it is. -/
def answerJson : Output → Json.Value
  | .metadata report => .object report.fields
  | o => o.json

def answers (i : Invocation) (s : Surroundings) (fs : FileSystem) (field : Option MetadataField)
    (paths : List Path) : Except SessionError (List Output) :=
  paths.mapM (i.answer s fs (i.imported s fs) field)

def query (i : Invocation) (s : Surroundings) (fs : FileSystem) (field : Option MetadataField)
    (paths : List Path) : Except SessionError (List Json.Value) :=
  (i.answers s fs field paths).map (·.map answerJson)

/-- The answers in front of the first that cannot be written. -/
def queryEnding : Except SessionError (List Output) → Ending
  | .error e => ⟨1, [], ["Error: " ++ e.message]⟩
  | .ok outputs =>
    let lines := (outputs.takeWhile (·.isWritable)).map fun o => (answerJson o).text
    if outputs.all (·.isWritable) then ⟨0, lines, []⟩
    else { Ending.unwritable with output := lines }

def service (i : Invocation) (s : Surroundings) : Service :=
  ⟨i.workspace s, project, i.root s, true⟩

end Invocation

end CompileIndex
