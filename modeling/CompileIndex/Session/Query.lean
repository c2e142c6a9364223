import CompileIndex.Session.Basic

/-!
# Asking a session

What is known of a file or folder of an attached project, and how the project stands.
-/
namespace CompileIndex

inductive SessionError
  | notAttached (project : ProjectId)
  deriving DecidableEq, Repr

def SessionError.message : SessionError → String
  | .notAttached project => "Project is not attached: " ++ project.name

inductive MetadataField
  | includes
  | frameworks
  | defines
  | flags
  deriving DecidableEq, Repr

def MetadataField.ofName? : String → Option MetadataField
  | "includes" => some .includes
  | "frameworks" => some .frameworks
  | "defines" => some .defines
  | "flags" => some .flags
  | _ => none

inductive FieldValue
  | includes (folders : List Path)
  | frameworks (folders : List Path)
  | defines (defines : Defines)
  | flags (flags : String)

def Metadata.field (m : Metadata) : MetadataField → FieldValue
  | .includes => .includes m.includes
  | .frameworks => .frameworks m.frameworkDirectories
  | .defines => .defines m.defines
  | .flags => .flags m.compileFlags

structure Report where
  item : Item
  hasMetadata : Bool
  metadata : Metadata

structure Status where
  project : ProjectId
  layout : Layout
  fileCount : Nat
  folderCount : Nat
  importPending : Bool
  lastImport : Option Finished
  deriving DecidableEq, Repr

def Project.status (id : ProjectId) (p : Project) : Status where
  project := id
  layout := p.layout
  fileCount := p.index.fileCount
  folderCount := p.index.folderCount
  importPending := p.pending.isSome
  lastImport := p.lastImport

namespace Session

def attached (s : Session) (id : ProjectId) : Except SessionError Project :=
  match s.project? id with
  | some p => .ok p
  | none => .error (.notAttached id)

def reimport (s : Session) (id : ProjectId) : Except SessionError Session := do
  let _ ← s.attached id
  return s.schedule id

def isPending (s : Session) (id : ProjectId) : Bool :=
  (s.project? id).any (·.pending.isSome)

def status (s : Session) (id : ProjectId) : Except SessionError Status := do
  return (← s.attached id).status id

def resolve (s : Session) (fs : FileSystem) (id : ProjectId) (item : Item) :
    Except SessionError Metadata := do
  return (← s.attached id).index.resolve fs item

def hasMetadata (s : Session) (fs : FileSystem) (id : ProjectId) (item : Item) :
    Except SessionError Bool := do
  return (← s.attached id).index.hasMetadata fs item

def field (s : Session) (fs : FileSystem) (id : ProjectId) (item : Item) (f : MetadataField) :
    Except SessionError FieldValue := do
  return (← s.resolve fs id item).field f

def report (s : Session) (fs : FileSystem) (id : ProjectId) (item : Item) :
    Except SessionError Report := do
  return ⟨item, ← s.hasMetadata fs id item, ← s.resolve fs id item⟩

end Session

end CompileIndex
