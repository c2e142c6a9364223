import CompileIndex.FileSystem.Basic
import CompileIndex.Snapshot

/-!
# The index of a project

An index takes over the first valid snapshot and merges later ones into it. A file that it does
not know has the metadata of the nearest folder above that it knows.
-/
namespace CompileIndex

inductive ItemKind
  | file
  | folder
  deriving DecidableEq, Repr

structure Item where
  path : Path
  kind : ItemKind
  deriving DecidableEq, Repr

def Item.ofPath (fs : FileSystem) (p : Path) : Item :=
  ⟨p, if fs.isFolder p then .folder else .file⟩

structure Index where
  snapshot : Option Snapshot

namespace Index

def empty : Index := ⟨none⟩

def fileCount (i : Index) : Nat := (i.snapshot.map (·.files.size)).getD 0

def folderCount (i : Index) : Nat := (i.snapshot.map (·.folders.size)).getD 0

/-- Takes in the result of an import and tells whether that changes anything. A failure leaves
the index as it is. -/
def apply (i : Index) : Except Failure Snapshot → Except Failure Bool × Index
  | .error failure => (.error failure, i)
  | .ok incoming =>
    match i.snapshot with
    | none => (.ok true, ⟨some incoming⟩)
    | some known =>
      let (merged, changed) := known.merge incoming
      (.ok changed, ⟨some merged⟩)

/-- The canonical form of a path, when it is another path. -/
def alternative? (fs : FileSystem) (p : Path) : Option Path :=
  (fs.canonical? p).filter fun q => !q.same p

def eitherForm? {α : Type} (fs : FileSystem) (find? : Path → Option α) (p : Path) : Option α :=
  (find? p).or ((alternative? fs p).bind find?)

def search (s : Snapshot) (fs : FileSystem) (folders : List Path) : Option Metadata :=
  folders.findSome? (eitherForm? fs s.fileForFolder?)

/-- A file is looked up itself and then through the folders above it, a folder through itself
and the folders above it. -/
def lookup (i : Index) (fs : FileSystem) (item : Item) : Option Metadata :=
  i.snapshot.bind fun s =>
    match item.kind with
    | .file => (eitherForm? fs s.file? item.path).or (search s fs item.path.above)
    | .folder => search s fs (item.path :: item.path.above)

def resolve (i : Index) (fs : FileSystem) (item : Item) : Metadata :=
  (i.lookup fs item).getD .empty

def hasMetadata (i : Index) (fs : FileSystem) (item : Item) : Bool := (i.lookup fs item).isSome

end Index

end CompileIndex
