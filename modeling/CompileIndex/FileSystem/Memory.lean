import CompileIndex.FileSystem.Basic
import CompileIndex.Glob.Pattern

/-!
# A file system in memory

Tables of files, folders and links that imply nothing of each other: a folder is there only
when it is listed, and a link leads to its target in one step.
-/
namespace CompileIndex

structure Memory where
  files : List (Path × List UInt8)
  folders : List Path
  links : List (Path × Path)
  unreadable : List (Path × String)
  crashing : List Path
  deriving Inhabited

namespace Memory

def empty : Memory := ⟨[], [], [], [], []⟩

def find? {α : Type} (table : List (Path × α)) (p : Path) : Option α :=
  (table.find? fun entry => entry.1.same p).map (·.2)

def put {α : Type} (table : List (Path × α)) (p : Path) (v : α) : List (Path × α) :=
  match table with
  | [] => [(p, v)]
  | (q, w) :: rest => if q.same p then (q, v) :: rest else (q, w) :: put rest p v

def listed (paths : List Path) (p : Path) : Bool := paths.any (·.same p)

def enlist (paths : List Path) (p : Path) : List Path :=
  if listed paths p then paths else paths ++ [p]

def remove (m : Memory) (p : Path) : Memory where
  files := m.files.filter fun entry => !entry.1.same p
  folders := m.folders.filter fun q => !q.same p
  links := m.links.filter fun entry => !entry.1.same p
  unreadable := m.unreadable.filter fun entry => !entry.1.same p
  crashing := m.crashing.filter fun q => !q.same p

def addFile (m : Memory) (p : Path) (content : List UInt8) : Memory :=
  { m with files := put m.files p content }

def addFolder (m : Memory) (p : Path) : Memory := { m with folders := enlist m.folders p }

def addLink (m : Memory) (p target : Path) : Memory := { m with links := put m.links p target }

def addUnreadable (m : Memory) (p : Path) (reason : String) : Memory :=
  { m with unreadable := put m.unreadable p reason }

def addCrashing (m : Memory) (p : Path) : Memory := { m with crashing := enlist m.crashing p }

def has (m : Memory) (p : Path) : Bool :=
  (find? m.files p).isSome || listed m.folders p || (find? m.links p).isSome
    || (find? m.unreadable p).isSome || listed m.crashing p

def read (m : Memory) (p : Path) : ReadOutcome :=
  if listed m.crashing p then .crashed
  else match find? m.unreadable p, find? m.files p with
    | some reason, _ => .failed reason
    | none, some content => .octets content
    | none, none => .failed "File not found"

def canonical? (m : Memory) (p : Path) : Option Path :=
  match find? m.links p with
  | some target => some target
  | none => if (find? m.files p).isSome || listed m.folders p then some p else none

/-- Of neighbours that are the same path only the first stays. -/
def distinct : List Path → List Path
  | [] => []
  | p :: rest =>
    match distinct rest with
    | [] => [p]
    | q :: more => if p.same q then p :: more else p :: q :: more

/-- The spellings that match as a whole, in the order of the paths. Only a text can match. -/
def glob (m : Memory) (pattern : String) : List Path :=
  match Glob.parse? pattern with
  | none => []
  | some parsed =>
    let all := m.files.map (·.1) ++ m.folders ++ m.links.map (·.1)
    let found := all.filter fun p => p.text?.any (Glob.matchesText parsed)
    distinct (found.mergeSort fun p q => p.compare q != .gt)

def fileSystem (m : Memory) : FileSystem where
  has := m.has
  isFolder := listed m.folders
  read := m.read
  canonical? := m.canonical?
  glob := m.glob

end Memory

end CompileIndex
