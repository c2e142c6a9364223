import CompileIndex.Answer

/-!
# Reports on databases

What a single import finds in a compilation database.
-/
namespace CompileIndex

structure DatabaseReport where
  source : Path
  failure : Option Failure
  files : List Path
  folderCount : Nat
  skipped : List SkippedEntry

namespace DatabaseReport

def ofImport (source : Path) : Except Failure Snapshot → DatabaseReport
  | .ok s => ⟨source, none, s.files.keys, s.folders.size, s.skipped⟩
  | .error failure => ⟨source, some failure, [], 0, []⟩

def paths (r : DatabaseReport) : List Path := r.source :: r.files ++ r.skipped.filterMap (·.file)

def isWritable (r : DatabaseReport) : Bool := r.paths.all (·.isText)

def isValid (r : DatabaseReport) : Bool := r.failure.isNone

def skippedJson (e : SkippedEntry) : Json.Value :=
  .object
    [("index", .nat e.index), ("file", optionalJson Path.json e.file),
      ("reason", .string e.reason.message)]

/-- The failure is left out when there is none. -/
def json (r : DatabaseReport) : Json.Value :=
  .object
    ([("commands_file_path", r.source.json), ("valid", .bool r.isValid)]
      ++ (r.failure.map fun f => ("failure", Json.Value.string f.message)).toList
      ++ [("files", pathsJson r.files), ("folder_count", .nat r.folderCount),
        ("skipped", .array (r.skipped.map skippedJson))])

end DatabaseReport

end CompileIndex
