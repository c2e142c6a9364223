import CompileIndex.Database.Import
import CompileIndex.Index
import CompileIndex.Layout
import CompileIndex.Reanalysis
import CompileIndex.Session.Event

/-!
# Sessions

A session owns the indexes of the attached projects and schedules their imports. Only the
latest import of a project counts: scheduling one calls off the one before, and completions of
any other generation are discarded.
-/
namespace CompileIndex

structure Project where
  layout : Layout
  index : Index
  /-- The generation of the import that is awaited. -/
  pending : Option Nat
  lastImport : Option Finished

structure Session where
  projects : ProjectMap Project
  nextGeneration : Nat
  /-- The jobs in flight that were not called off. -/
  running : List Job

/-- Who is told that a project has changed. A request may be refused. -/
abbrev Trigger (τ : Type) := ProjectId → τ → Except RequestError Unit × τ

namespace Session

def empty : Session := ⟨∅, 0, []⟩

def project? (s : Session) (id : ProjectId) : Option Project := s.projects[id]?

def projectIds (s : Session) : List ProjectId := s.projects.keys

def callOff (s : Session) (id : ProjectId) (p : Project) : List Job :=
  s.running.filter fun job => !(job.project == id && some job.generation == p.pending)

def schedule (s : Session) (id : ProjectId) : Session :=
  match s.project? id with
  | none => s
  | some p =>
    { projects := s.projects.insert id { p with pending := some s.nextGeneration }
      nextGeneration := s.nextGeneration + 1
      running := s.callOff id p ++ [⟨id, s.nextGeneration, p.layout.commandsFile⟩] }

def attach (s : Session) (id : ProjectId) (layout : Layout) : Session :=
  { s with projects := s.projects.insert id ⟨layout, .empty, none, none⟩ }.schedule id

def detach (s : Session) (id : ProjectId) : Bool × Session :=
  match s.project? id with
  | none => (false, s)
  | some p => (true, { s with projects := s.projects.erase id, running := s.callOff id p })

/-- A path that leads to the database of a project, if need be through links. -/
def reads (fs : FileSystem) (changed : Path) (p : Project) : Bool :=
  p.layout.commandsFile.same changed ||
    match fs.canonical? changed, fs.canonical? p.layout.commandsFile with
    | some a, some b => a.same b
    | _, _ => false

def affected (s : Session) (fs : FileSystem) (changed : Path) : List ProjectId :=
  (s.projects.toList.filter fun (_, p) => reads fs changed p).map (·.1)

def sourceChanged (s : Session) (fs : FileSystem) (path : Path) : List ProjectId × Session :=
  let ids := s.affected fs path.clean
  (ids, ids.foldl schedule s)

/-- Takes in a completion. It is discarded unless its project awaits that very import. -/
def accept (s : Session) (c : Completion) : Option Finished × Session :=
  match s.project? c.project with
  | none => (none, s)
  | some p =>
    if p.pending = some c.generation then
      let (result, index) := p.index.apply c.result
      let outcome := match result with
        | .ok changed => .merged changed
        | .error reason => .failed reason
      let finished : Finished := ⟨c.project, outcome, index.fileCount, c.skippedEntries⟩
      let p := { p with index, pending := none, lastImport := some finished }
      (some finished, { s with projects := s.projects.insert c.project p })
    else (none, s)

/-- Takes in a completion and requests the re-analysis of a project that it changes. A refused
request is let go; the merge stands. -/
def handle {τ : Type} (trigger : Trigger τ) (c : Completion) (s : Session) (t : τ) :
    Option Finished × Session × τ :=
  let (finished, s) := s.accept c
  if finished.any (·.changed) then (finished, s, (trigger c.project t).2) else (finished, s, t)

end Session

def Job.run (env : Shell.Environment) (fs : FileSystem) (job : Job) : Completion :=
  ⟨job.project, job.generation, Database.load env fs job.source⟩

def Job.before (a b : Job) : Bool :=
  match compare a.project b.project with
  | .lt => true
  | .gt => false
  | .eq => a.generation ≤ b.generation

end CompileIndex
