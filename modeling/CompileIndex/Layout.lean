import CompileIndex.Path.Clean

/-!
# Layout of a project

Where a project lives and where its compilation database is expected: by convention in the
folder `build` beside the project root.
-/
namespace CompileIndex

structure Layout where
  projectRoot : Path
  commandsFile : Path
  deriving DecidableEq, Repr, Inhabited

namespace Layout

/-- The database in the folder `build`, which shares its parent folder with the project root. -/
def conventional (root : Path) : Layout :=
  ⟨root, (((root.join ⟨".."⟩).join ⟨"build"⟩).join ⟨"compile_commands.json"⟩).clean⟩

def withCommandsFile (l : Layout) (file : Path) : Layout :=
  { l with commandsFile := l.projectRoot.resolve file }

/-- The path that replaces the convention: the one given with the command, or else one from the
environment that is not empty. -/
def override? (given : Option Path) (environment : Option String) : Option Path :=
  given.or ((environment.filter (· ≠ "")).map Path.mk)

def ofOverrides (root : Path) (given : Option Path) (environment : Option String) : Layout :=
  match override? given environment with
  | some file => (conventional root).withCommandsFile file
  | none => conventional root

end Layout

end CompileIndex
