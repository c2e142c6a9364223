import CompileIndex.Json.Value
import CompileIndex.Session.Query

/-!
# Answers

How metadata, items, and the state of projects are written as JSON.
-/
namespace CompileIndex

/-- Only a path that is a text can be written. -/
def Path.json (p : Path) : Json.Value := .string p.text

def pathsJson (ps : List Path) : Json.Value := .array (ps.map Path.json)

def Defines.json (d : Defines) : Json.Value :=
  .object (d.toList.map fun (name, value) => (name, .string value))

def Metadata.json (m : Metadata) : Json.Value :=
  .object
    [("includes", pathsJson m.includes),
      ("framework_directories", pathsJson m.frameworkDirectories),
      ("defines", Defines.json m.defines),
      ("compile_flags", .string m.compileFlags),
      ("language", .string m.language)]

def ItemKind.name : ItemKind → String
  | .file => "file"
  | .folder => "folder"

def Item.fields (i : Item) : List (String × Json.Value) :=
  [("path", i.path.json), ("kind", .string i.kind.name)]

def Report.fields (r : Report) : List (String × Json.Value) :=
  r.item.fields ++ [("has_metadata", .bool r.hasMetadata), ("metadata", r.metadata.json)]

def ProjectId.json (p : ProjectId) : Json.Value := .string p.name

def projectsJson (ps : List ProjectId) : Json.Value := .array (ps.map ProjectId.json)

def Outcome.fields : Outcome → List (String × Json.Value)
  | .merged changed => [("status", .string "merged"), ("changed", .bool changed)]
  | .failed reason => [("status", .string "failed"), ("reason", .string reason.message)]

def Finished.fields (f : Finished) : List (String × Json.Value) :=
  ("project", f.project.json) :: f.outcome.fields ++
    [("file_count", .nat f.fileCount), ("skipped_entries", .nat f.skippedEntries)]

def optionalJson {α : Type} (json : α → Json.Value) (a : Option α) : Json.Value :=
  (a.map json).getD .null

def Status.json (s : Status) : Json.Value :=
  .object
    [("project", s.project.json),
      ("project_root_path", s.layout.projectRoot.json),
      ("commands_file_path", s.layout.commandsFile.json),
      ("file_count", .nat s.fileCount),
      ("folder_count", .nat s.folderCount),
      ("import_pending", .bool s.importPending),
      ("last_import", optionalJson (.object ∘ Finished.fields) s.lastImport)]

namespace FieldValue

def label : FieldValue → String
  | .includes _ => "includes"
  | .frameworks _ => "frameworks"
  | .defines _ => "defines"
  | .flags _ => "flags"

def paths : FieldValue → List Path
  | .includes folders => folders
  | .frameworks folders => folders
  | _ => []

def entry : FieldValue → String × Json.Value
  | .includes folders => ("includes", pathsJson folders)
  | .frameworks folders => ("framework_directories", pathsJson folders)
  | .defines d => ("defines", Defines.json d)
  | .flags text => ("compile_flags", .string text)

end FieldValue

end CompileIndex
