import CompileIndex.Database.Error
import CompileIndex.Metadata
import CompileIndex.Path.Map

/-!
# Snapshots

The files of a compilation database with their metadata. For folders a snapshot names one of
the files below, whose metadata stands for files that the database does not list.
-/
namespace CompileIndex

structure SkippedEntry where
  index : Nat
  file : Option Path
  reason : EntryError
  deriving Repr

structure Snapshot where
  files : PathMap Metadata
  folders : PathMap Path
  skipped : List SkippedEntry

namespace Snapshot

/-- Each folder that holds a file stands for itself with the first of its files. -/
def ownFolders (files : List Path) : PathMap Path :=
  files.foldl (fun t file =>
    match file.parent? with
    | some folder => t.insertIfNew folder file
    | none => t) ∅

/-- Gives `file` to the folders in turn, up to the first that has one. -/
def climb (file : Path) (t : PathMap Path) : List Path → PathMap Path
  | [] => t
  | folder :: above => if folder ∈ t then t else climb file (t.insert folder file) above

/-- The file that stands for each folder above a file: the first of its own files, and else
that of the first folder below whose way up reached it. -/
def representatives (files : List Path) : PathMap Path :=
  let own := ownFolders files
  own.toList.foldl (fun t (folder, file) => climb file t folder.above) own

def ofFiles (files : PathMap Metadata) (skipped : List SkippedEntry) : Snapshot :=
  ⟨files, representatives files.keys, skipped⟩

def file? (s : Snapshot) (p : Path) : Option Metadata := s.files[p]?

def fileForFolder? (s : Snapshot) (p : Path) : Option Metadata :=
  s.folders[p]?.bind s.file?

def mergeFile (files : PathMap Metadata) (p : Path) (m : Metadata) : PathMap Metadata × Bool :=
  match files[p]? with
  | some old => if old.same m then (files, false) else (files.put p m, true)
  | none => (files.put p m, true)

def mergeFiles (files : PathMap Metadata) (incoming : List (Path × Metadata)) :
    PathMap Metadata × Bool :=
  incoming.foldl (fun (t, changed) (p, m) =>
    let (t, now) := mergeFile t p m
    (t, changed || now)) (files, false)

/-- A newer snapshot adds its files and replaces those it lists; others are kept. The folders
are worked out again only when some file has changed. -/
def merge (s incoming : Snapshot) : Snapshot × Bool :=
  let (files, changed) := mergeFiles s.files incoming.files.toList
  let folders := if changed then representatives files.keys else s.folders
  (⟨files, folders, incoming.skipped⟩, changed)

end Snapshot

end CompileIndex
