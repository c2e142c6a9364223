import CompileIndex.FileSystem.Basic
import CompileIndex.Glob.Walk
import CompileIndex.Path.Clean

/-!
# A tree of files

Folders that hold files, other folders and symbolic links, as an operating system keeps them.
A path is followed from the root, through all links on its way.
-/
namespace CompileIndex

inductive Node
  | file (content : List UInt8)
  | folder
  | link (target : Path)
  deriving DecidableEq, Repr

inductive TreeError
  | notFound
  | notAFolder
  | isAFolder
  | tooManyLinks
  deriving DecidableEq, Repr

def TreeError.message : TreeError → String
  | .notFound => "No such file or directory (os error 2)"
  | .notAFolder => "Not a directory (os error 20)"
  | .isAFolder => "Is a directory (os error 21)"
  | .tooManyLinks => "Too many levels of symbolic links (os error 40)"

abbrev Place := List (List UInt8)

/-- The nodes by their places. The root is there without being listed. -/
structure Tree where
  nodes : List (Place × Node)

namespace Tree

def empty : Tree := ⟨[]⟩

def node? (t : Tree) (place : Place) : Option Node :=
  if place = [] then some .folder else t.nodes.lookup place

def put (t : Tree) (place : Place) (n : Node) : Tree :=
  ⟨t.nodes.filter (·.1 ≠ place) ++ [(place, n)]⟩

def namesOf (octets : List UInt8) : Place := (octets.splitOn slash).filter (· ≠ [])

def endsWithSlash (octets : List UInt8) : Bool := octets.getLast? == some slash

/-- The names that a path is followed by. A slash at the end asks for a folder, as a dot
does. -/
def steps (octets : List UInt8) : Place :=
  if endsWithSlash octets then namesOf octets ++ [[dot]] else namesOf octets

def linkLimit : Nat := 40

/-- Follows the names from a place on. With `final` a link at the end is followed too. -/
def follow (t : Tree) (final : Bool) (links : Nat) (place : Place) :
    List (List UInt8) → Except TreeError Place
  | [] => .ok place
  | name :: rest =>
    if t.node? place ≠ some .folder then .error .notAFolder
    else if name = [dot] then t.follow final links place rest
    else if name = [dot, dot] then t.follow final links place.dropLast rest
    else match t.node? (place ++ [name]) with
      | none => .error .notFound
      | some (.link target) =>
        if rest = [] ∧ ¬final then .ok (place ++ [name])
        else match links with
          | 0 => .error .tooManyLinks
          | links + 1 =>
            t.follow final links (if target.isAbsolute then [] else place)
              (steps target.octets ++ rest)
      | some _ => t.follow final links (place ++ [name]) rest
  termination_by names => (links, names.length)

def locate (t : Tree) (p : Path) : Except TreeError Place :=
  if p.octets = [] then .error .notFound else t.follow true linkLimit [] (steps p.octets)

def find (t : Tree) (p : Path) : Except TreeError Node := do
  let place ← t.locate p
  match t.node? place with
  | some n => .ok n
  | none => .error .notFound

def isFolder (t : Tree) (p : Path) : Bool :=
  match t.find p with
  | .ok .folder => true
  | _ => false

def read (t : Tree) (p : Path) : ReadOutcome :=
  match t.find p with
  | .ok (.file content) => .octets content
  | .ok _ => .failed TreeError.isAFolder.message
  | .error e => .failed e.message

def pathOf (place : Place) : Path := ⟨slash :: [slash].intercalate place⟩

def canonical? (t : Tree) (p : Path) : Option Path := (t.locate p).toOption.map pathOf

/-- There is something at the path, be it a link that leads nowhere. -/
def occupied (t : Tree) (p : Path) : Bool :=
  p.octets ≠ [] && (t.follow false linkLimit [] (steps p.octets)).toBool

def names (t : Tree) (p : Path) : List (List UInt8) :=
  match t.locate p with
  | .ok folder => (t.nodes.filter fun entry => entry.1.dropLast = folder).filterMap (·.1.getLast?)
  | .error _ => []

def browser (t : Tree) : Glob.Browser Id where
  occupied := t.occupied
  isFolder := t.isFolder
  names := t.names

/-- No path that can be followed is longer than this, except for dots. -/
def depth (t : Tree) : Nat := (linkLimit + 1) * (t.nodes.length + 1)

def fileSystem (t : Tree) : FileSystem where
  has p := (t.find p).toBool
  isFolder := t.isFolder
  read := t.read
  canonical? := t.canonical?
  glob pattern := (Glob.find t.browser t.depth pattern).run

/-- Opens a file for writing at its end, and makes it when there is none. A path that ends in a
slash or in dots cannot be a file. -/
def openFile (t : Tree) (links : Nat) (place : Place) (octets : List UInt8) :
    Except TreeError Tree :=
  match (namesOf octets).reverse with
  | [] => .error (if octets = [] then .notFound else .isAFolder)
  | last :: above => do
    let folder ← t.follow true links place above.reverse
    if t.node? folder ≠ some .folder then .error .notAFolder
    else if endsWithSlash octets ∨ last = [dot] ∨ last = [dot, dot] then .error .isAFolder
    else match t.node? (folder ++ [last]) with
      | none => .ok (t.put (folder ++ [last]) (.file []))
      | some (.file _) => .ok t
      | some .folder => .error .isAFolder
      | some (.link target) =>
        match links with
        | 0 => .error .tooManyLinks
        | links + 1 =>
          t.openFile links (if target.isAbsolute then [] else folder) target.octets

def withFolders (t : Tree) (place : Place) : Tree :=
  (List.range (place.length + 1)).foldl (fun t n =>
    let folder := place.take n
    if (t.node? folder).isNone then t.put folder .folder else t) t

def plant (t : Tree) (p : Path) (n : Node) : Tree :=
  let place := namesOf p.clean.octets
  (t.withFolders place.dropLast).put place n

def uproot (t : Tree) (p : Path) : Tree :=
  ⟨t.nodes.filter (·.1 ≠ namesOf p.clean.octets)⟩

end Tree

end CompileIndex
