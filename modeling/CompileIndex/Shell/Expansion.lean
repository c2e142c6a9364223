import CompileIndex.FileSystem.Basic
import CompileIndex.Glob.Pattern
import CompileIndex.Shell.Substitution
import CompileIndex.Shell.Words

/-!
# Expanding commands

From a recorded command to the words of its invocation: references are replaced, the result is
split, and words that are patterns become the paths they find. A pattern that is invalid or
finds nothing stays as it is.
-/
namespace CompileIndex.Shell

def patternText (folder : Path) (word : String) : String :=
  if (Path.mk word).isAbsolute then word else Glob.escape folder.text ++ "/" ++ word

/-- How a path that was found is written: below the working folder when the word was relative. -/
def foundWord (folder : Path) (word : String) (p : Path) : String :=
  if (Path.mk word).isAbsolute then p.text else ((p.below? folder).getD p).text

def expandPattern (fs : FileSystem) (folder : Path) (word : String) : List String :=
  let pattern := patternText folder word
  if (Glob.parse? pattern).isNone then [word]
  else match fs.glob pattern with
    | [] => [word]
    | found => (found.map (foundWord folder word)).mergeSort fun a b => decide (a ≤ b)

def expandWord (fs : FileSystem) (folder : Path) (word : String) : List String :=
  if word.toList.any isGlobChar then expandPattern fs folder word else [word]

/-- The words of a command in front of pathname expansion, and whether there is any. -/
def commandWords (env : Environment) (command : String) : Except Error (List String × Bool) := do
  let substituted ← substitute env command
  match split? substituted.text with
  | none => .error .split
  | some words => .ok (words.map String.ofList, substituted.globbing)

def expandWords (env : Environment) (fs : FileSystem) (folder : Path) (command : String) :
    Except Error (List String) := do
  let (words, globbing) ← commandWords env command
  return if globbing then words.flatMap (expandWord fs folder) else words

def askedNames (command : String) : List String := (scan command).names

def askedPatterns (env : Environment) (folder : Path) (command : String) : List String :=
  match commandWords env command with
  | .ok (words, true) =>
    (words.filter (·.toList.any isGlobChar)).map (patternText folder)
  | _ => []

end CompileIndex.Shell
