import CompileIndex.Glob.Pattern
import CompileIndex.Path.Basic

/-!
# Finding files by pattern

A walk down the folders, one component of the pattern after the other. Components without
special characters are looked up, others are compared with the names in a folder. What can be
asked of the folders is given by a `Browser`, in any monad.
-/
namespace CompileIndex.Glob

/-- The questions a walk asks. `occupied` holds also of a link that leads nowhere. -/
structure Browser (m : Type → Type) where
  occupied : Path → m Bool
  isFolder : Path → m Bool
  names : Path → m (List (List UInt8))

def Pattern.plain? (p : Pattern) : Option String :=
  (p.mapM fun token =>
    match token with
    | Token.literal c => some c
    | _ => none).map String.ofList

/-- A name that is no text stands for nothing. -/
def matchesName (p : Pattern) (name : List UInt8) : Bool :=
  (Text.Utf8.text? name).any (matchesText p)

def Pattern.isRecursive (p : Pattern) : Bool := p.contains .folders

def components? (pattern : String) : Option (List Pattern × Bool) :=
  let onlyFolders := pattern.toList.getLast? == some '/'
  match pattern.toList.drop 1 with
  | [] => some ([[]], onlyFolders)
  | rest =>
    let pieces := rest.splitOn '/'
    let pieces := if onlyFolders then pieces.dropLast else pieces
    (pieces.mapM (parseFrom 0 none)).map (·, onlyFolders)

variable {m : Type → Type} [Monad m]

mutual

def search (b : Browser m) (onlyFolders : Bool) :
    Nat → List Pattern → Path → m (List Path)
  | 0, _, _ => pure []
  | _, [], _ => pure []
  | fuel + 1, pattern :: rest, folder => do
    let proceed (next : Path) : m (List Path) := do
      if rest.isEmpty then
        if !onlyFolders || (← b.isFolder next) then pure [next] else pure []
      else search b onlyFolders fuel rest next
    match pattern.plain? with
    | some name =>
      let next := folder.join ⟨name⟩
      let reached ← if name == "." || name == ".." then b.isFolder folder else b.occupied next
      if reached then proceed next else pure []
    | none =>
      if ← b.isFolder folder then
        let children ← (← b.names folder).mapM fun name =>
          visit b onlyFolders fuel (pattern :: rest) (folder.join ⟨name⟩) name
        let dots ← [".", ".."].mapM fun name =>
          if pattern.head? == some (.literal '.') && matchesText pattern name then
            proceed (folder.join ⟨name⟩)
          else pure []
        pure (children.flatten ++ dots.flatten)
      else pure []

def visit (b : Browser m) (onlyFolders : Bool) :
    Nat → List Pattern → Path → List UInt8 → m (List Path)
  | 0, _, _, _ => pure []
  | fuel + 1, patterns, child, name => do
    let compared (patterns : List Pattern) : m (List Path) := do
      match patterns with
      | [] => pure []
      | pattern :: rest =>
        if !matchesName pattern name then pure []
        else if rest.isEmpty then
          if !onlyFolders || (← b.isFolder child) then pure [child] else pure []
        else search b onlyFolders fuel rest child
    if (patterns.head?.map Pattern.isRecursive).getD false then
      let rest := patterns.dropWhile Pattern.isRecursive
      if ← b.isFolder child then
        let below ← search b onlyFolders fuel ([.folders] :: rest) child
        if rest.isEmpty then pure (child :: below)
        else return below ++ (← compared rest)
      else compared rest
    else compared patterns

end

/-- All paths that an absolute pattern finds, in the order of the paths. `depth` bounds the
folders and the components of the pattern on the way to each of them. -/
def find (b : Browser m) (depth : Nat) (pattern : String) : m (List Path) := do
  match parse? pattern, components? pattern with
  | some _, some (patterns, onlyFolders) =>
    let found ← search b onlyFolders (2 * depth + patterns.length + 1) patterns ⟨"/"⟩
    pure (found.mergeSort fun p q => p.compare q != .gt)
  | _, _ => pure []

end CompileIndex.Glob
