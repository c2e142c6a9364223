import CompileIndex.Database.Entry
import CompileIndex.Json.Reader
import CompileIndex.Snapshot

/-!
# Importing a compilation database

From the octets of a database to a snapshot. Each entry yields a file or is skipped; of the
entries for one file the last one counts. Between entries the import may be called off, and
then nothing of it remains.
-/
namespace CompileIndex.Database

def kindOf : Json.Value → String
  | .null => "null"
  | .bool _ => "a boolean"
  | .number _ => "a number"
  | .string _ => "a string"
  | .array _ => "an array"
  | .object _ => "an object"

def entriesOf (octets : List UInt8) : Except Failure (List Json.Value) :=
  match Json.read octets with
  | .error e => .error (.malformed e.message)
  | .ok (.array entries) => .ok entries
  | .ok v => .error (.malformed ("expected an array, found " ++ kindOf v))

def readEntries (fs : FileSystem) (path : Path) : Except Failure (List Json.Value) :=
  if fs.has path then
    match fs.read path with
    | .octets content => entriesOf content
    | .failed reason => .error (.unreadable path reason)
    | .crashed => .error .taskFailed
  else .error (.missingSource path)

def folderOf (path : Path) : Path := path.parent?.getD ⟨"/"⟩

/-- What one value of the list contributes: a file or a skipped entry. -/
abbrev Outcome := Except (Option Path × EntryError) (Path × Metadata)

def importEntry (env : Shell.Environment) (fs : FileSystem) (folder : Path) (v : Json.Value) :
    Outcome :=
  match Entry.ofJson v with
  | .ok entry => entry.resolve env fs folder
  | .error e => .error (none, e)

def filesOf (outcomes : List Outcome) : PathMap Metadata :=
  outcomes.foldl (fun t outcome =>
    match outcome with
    | .ok (file, m) => t.put file m
    | .error _ => t) ∅

def skippedFrom (index : Nat) : List Outcome → List SkippedEntry
  | [] => []
  | .ok _ :: rest => skippedFrom (index + 1) rest
  | .error (file, reason) :: rest => ⟨index, file, reason⟩ :: skippedFrom (index + 1) rest

def snapshotOf (outcomes : List Outcome) : Snapshot :=
  .ofFiles (filesOf outcomes) (skippedFrom 0 outcomes)

/-- Imports the database at a path. `stopped i` says that the import was called off before its
entry `i` was taken up. -/
def importUntil (stopped : Nat → Bool) (env : Shell.Environment) (fs : FileSystem) (path : Path) :
    Except Failure Snapshot := do
  let entries ← readEntries fs path
  if (List.range entries.length).any stopped then .error .cancelled
  else return snapshotOf (entries.map (importEntry env fs (folderOf path)))

def load (env : Shell.Environment) (fs : FileSystem) (path : Path) : Except Failure Snapshot :=
  importUntil (fun _ => false) env fs path

def askedNames (v : Json.Value) : List String :=
  match Entry.ofJson v with
  | .ok entry => entry.askedNames
  | .error _ => []

/-- The import is called off when the value of `name` is asked for. -/
def stoppedByName (name : String) (entries : List Json.Value) (i : Nat) : Bool :=
  (entries.take i).any fun v => (askedNames v).contains name

def importUntilAsked (name : String) (env : Shell.Environment) (fs : FileSystem) (path : Path) :
    Except Failure Snapshot := do
  importUntil (stoppedByName name (← readEntries fs path)) env fs path

def askedPatterns (env : Shell.Environment) (path : Path) (entries : List Json.Value) :
    List String :=
  entries.flatMap fun v =>
    match Entry.ofJson v with
    | .ok entry => entry.askedPatterns env (folderOf path)
    | .error _ => []

end CompileIndex.Database
