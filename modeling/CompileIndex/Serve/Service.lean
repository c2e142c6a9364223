import CompileIndex.Serve.Output
import CompileIndex.Session.Workspace

/-!
# Serving a host

The service takes its turns one at a time, in whatever order lines, completions and requests
come: it answers a line, reports an import whose completion it accepts, or passes a request for
re-analysis on. It ends with the command to quit, and it breaks off at a reply that cannot be
written.
-/
namespace CompileIndex

structure Service where
  workspace : Workspace
  project : ProjectId
  root : Path
  serving : Bool

inductive Turn
  | line (text : String)
  | job (job : Job)
  | completion
  | request

namespace Session

def item (fs : FileSystem) (root path : Path) : Item := .ofPath fs (root.resolve path)

def statuses (s : Session) : Except SessionError (List Status) := s.projectIds.mapM s.status

def reimportAll (s : Session) : Except SessionError Session := s.projectIds.foldlM reimport s

def askedPaths (root : Path) (s : Session) : Command → List Path
  | .query path => let p := root.resolve path; p :: p.above
  | .field _ path => let p := root.resolve path; p :: p.above
  | .changed (some path) =>
    (root.resolve path).clean :: s.projects.values.map (·.layout.commandsFile)
  | _ => []

/-- The reply to a command and the session after it; nothing for the command to quit. -/
def execute (fs : FileSystem) (project : ProjectId) (root : Path) (s : Session) :
    Command → Option (Except SessionError Output × Session)
  | .query path => some ((s.report fs project (item fs root path)).map .metadata, s)
  | .field field path =>
    let item := item fs root path
    some ((s.field fs project item field).map (.field item.path), s)
  | .changed (some path) =>
    let (projects, s) := s.sourceChanged fs (root.resolve path)
    some (.ok (.rescheduled projects), s)
  | .changed none =>
    match s.reimportAll with
    | .ok after => some (.ok (.rescheduled s.projectIds), after)
    | .error error => some (.error error, s)
  | .status => some (s.statuses.map .status, s)
  | .quit => none

end Session

namespace Service

def reply : Except SessionError Output → Output
  | .ok output => output
  | .error error => .refused (.session error)

def answer (fs : FileSystem) (s : Service) (line : String) : List Output × Service :=
  if Text.trimChars line.toList = [] then ([], s)
  else match Command.read line with
    | .error error => ([.refused (.command error)], s)
    | .ok command =>
      match s.workspace.session.execute fs s.project s.root command with
      | none => ([], { s with serving := false })
      | some (result, session) =>
        let output := reply result
        (if output.isWritable then [output] else [],
          { s with workspace := { s.workspace with session }, serving := output.isWritable })

/-- The reply to the line cannot be written, which ends the run with an error. -/
def breaksOff (fs : FileSystem) (s : Service) (line : String) : Bool :=
  match Command.read line with
  | .error _ => false
  | .ok command =>
    (s.workspace.session.execute fs s.project s.root command).any fun result =>
      !(reply result.1).isWritable

def turn (env : Shell.Environment) (fs : FileSystem) (s : Service) (t : Turn) :
    List Output × Service :=
  if !s.serving then ([], s)
  else match t with
    | .line text => s.answer fs text
    | .job job => ([], { s with workspace := s.workspace.finishJob env fs job })
    | .completion =>
      let (handled, workspace) := s.workspace.handleNext
      (((handled.bind (·.2)).map .importFinished).toList, { s with workspace })
    | .request =>
      let (project, workspace) := s.workspace.receive
      ((project.map .reanalyze).toList, { s with workspace })

def run (env : Shell.Environment) (fs : FileSystem) (s : Service) (turns : List Turn) :
    List Output × Service :=
  turns.foldl (fun (written, s) t =>
    let (now, s) := s.turn env fs t
    (written ++ now, s)) ([], s)

/-- The turns that leave no job running and no completion or request waiting. -/
def remaining (s : Service) : List Turn :=
  let jobs := s.workspace.session.running.mergeSort Job.before
  let completions := s.workspace.arrived.length + jobs.length
  let requests := s.workspace.requests.waiting.length + completions
  jobs.map .job ++ List.replicate completions .completion ++ List.replicate requests .request

def rest (env : Shell.Environment) (fs : FileSystem) (s : Service) : List Output × Service :=
  s.run env fs s.remaining

end Service

end CompileIndex
