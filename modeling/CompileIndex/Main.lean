import CompileIndex.FileSystem.Survey
import CompileIndex.FileSystem.Tree
import CompileIndex.Json.Printer
import CompileIndex.Program
import CompileIndex.Serve.Input

/-!
# The command line tool

Asks the system what the program wants to know, runs it, and writes what it answers.
-/
namespace CompileIndex.Tool

/-! ## Asking the system -/

def canonical? (p : Path) : IO (Option Path) := do
  try return some ⟨(← IO.FS.realPath p.text).toString⟩
  catch _ => return none

def isFolder (p : Path) : IO Bool := do
  return p.text ≠ "" && (← canonical? ⟨p.text ++ "/."⟩).isSome

def names (p : Path) : IO (List (List UInt8)) := do
  try
    let folder ← IO.FS.realPath p.text
    return ((← folder.readDir).map fun entry => Text.Utf8.encode entry.fileName).toList
  catch _ => return []

/-- A link that leads nowhere shows in its folder only. -/
def occupied (p : Path) : IO Bool := do
  if (← canonical? p).isSome then return true
  match p.parent?, p.fileName? with
  | some folder, some name => return (← names folder).contains name
  | _, _ => return false

def browser : Glob.Browser IO := ⟨occupied, isFolder, names⟩

/-- Paths are no longer than this. -/
def depth : Nat := 4096

def refusal : IO.Error → String
  | .noFileOrDirectory .. => TreeError.notFound.message
  | .inappropriateType .. => TreeError.isAFolder.message
  | .permissionDenied .. => "Permission denied (os error 13)"
  | e => toString e

def readFile (p : Path) : IO ReadOutcome := do
  if ← isFolder p then return .failed TreeError.isAFolder.message
  try return .octets (← IO.FS.readBinFile p.text).toList
  catch e => return .failed (refusal e)

def look (p : Path) : IO (List (Path × Sight)) := do
  match ← canonical? p with
  | some q => return [(p, ⟨← isFolder p, q⟩)]
  | none => return []

def lookAt (ps : List Path) : IO Survey := do
  return ⟨(← ps.mapM look).flatten, [], []⟩

def valuesOf (names : List String) : IO Shell.Variables := do
  let pairs ← names.mapM fun name => do return (name, ← IO.getEnv name)
  return fun name => (pairs.lookup name).join

def surveyImport (i : Invocation) (s : Surroundings) (source : Path) :
    IO (Surroundings × Survey) := do
  let file : Survey := { ← lookAt [source] with contents := [(source, ← readFile source)] }
  let entries := (Database.readEntries file.fileSystem source).toOption.getD []
  let asked ← valuesOf (entries.flatMap Database.askedNames)
  let s := { s with values := fun name => (asked name).or (s.values name) }
  let patterns := Database.askedPatterns (i.environment s) source entries
  let found ← patterns.mapM fun p => do return (p, ← Glob.find browser depth p)
  return (s, { file with found })

/-! ## Running -/

def writeLines (lines : List String) : IO Unit := do
  let output ← IO.getStdout
  for line in lines do output.putStrLn line
  output.flush

def finish (e : Ending) : IO UInt32 := do
  writeLines e.output
  for line in e.error do IO.eprintln line
  return e.code.toUInt32

/-- Takes a turn with the answers that it needs, and tells whether the service breaks off. -/
def takeTurn (i : Invocation) (s : Surroundings) (service : Service) (t : Turn) :
    IO (Service × Bool) := do
  let (s, survey) ← match t with
    | .job job => surveyImport i s job.source
    | .line text =>
      match Command.read text with
      | .ok command =>
        let survey ← lookAt (service.workspace.session.askedPaths service.root command)
        pure (s, survey)
      | .error _ => pure (s, Survey.empty)
    | _ => pure (s, Survey.empty)
  let broken := match t with
    | .line text => service.breaksOff survey.fileSystem text
    | _ => false
  let (output, service) := service.turn (i.environment s) survey.fileSystem t
  writeLines (output.map fun o => o.json.text)
  return (service, broken)

def rest (i : Invocation) (s : Surroundings) (service : Service) : IO Service :=
  service.remaining.foldlM (fun service t => do return (← takeTurn i s service t).1) service

partial def readLine (input : IO.FS.Stream) (line : List UInt8) : IO (List UInt8) := do
  match (← input.read 1).toList with
  | [] => return line
  | b :: _ => if b = 0x0A then return b :: line else readLine input (b :: line)

partial def serve (i : Invocation) (s : Surroundings) (input : IO.FS.Stream)
    (service : Service) : IO Ending := do
  let service ← rest i s service
  match ← readLine input [] with
  | [] => return ⟨0, [], []⟩
  | line =>
    match Input.text line.reverse with
    | .error e => return .ofInput e
    | .ok text =>
      let (service, broken) ← takeTurn i s service (.line text)
      if broken then return .unwritable
      else if service.serving then serve i s input service
      else return ⟨0, [], []⟩

def runRequest (i : Invocation) (s : Surroundings) : IO Ending := do
  let source := (i.layout s).commandsFile
  match i.request with
  | .check =>
    let (s, survey) ← surveyImport i s source
    return .ofReport (i.check s survey.fileSystem)
  | .query field paths =>
    let (s, survey) ← surveyImport i s source
    let items ← lookAt (paths.flatMap fun p => let q := (i.root s).resolve p; q :: q.above)
    return Invocation.queryEnding (i.answers s (survey.append items).fileSystem field paths)
  | .serve => serve i s (← IO.getStdin) (i.service s)

def openLog (c : LogConfig) : IO (Option String) := do
  match c.file with
  | none => return none
  | some file =>
    try
      let _ ← IO.FS.Handle.mk file.text .append
      return none
    catch e => return some (refusal e)

def settings : List String :=
  ["RUST_LOG", "COMPDB_LOG_FILE", "COMPDB_LOG_UNIQUE", "COMPDB_LOG_JSON",
    Invocation.commandsFileVariable]

def surroundings : IO Surroundings := do
  let process := ((← canonical? ⟨"/proc/self"⟩).bind Path.fileName?).map Text.Utf8.lossy
  return ⟨← valuesOf settings, ⟨(← IO.currentDir).toString⟩, process.getD "0"⟩

def run (arguments : List String) : IO Ending := do
  match Invocation.read arguments with
  | .error e => return .ofUsage e
  | .ok i =>
    let s ← surroundings
    match ← openLog (i.logConfig s) with
    | some reason => return .ofLog reason
    | none => runRequest i s

end CompileIndex.Tool

def main (arguments : List String) : IO UInt32 := do
  CompileIndex.Tool.finish (← CompileIndex.Tool.run arguments)
