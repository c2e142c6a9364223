import CompileIndex.Path.Basic

/-!
# Build metadata

What the command line of a source file says about it.
-/
namespace CompileIndex

abbrev Defines := Std.TreeMap String String

structure Metadata where
  /-- In the order of the command line, with repetitions. -/
  includes : List Path
  frameworkDirectories : List Path
  /-- A macro without a value has an empty one. -/
  defines : Defines
  compileFlags : String
  language : String
  deriving Inhabited

namespace Metadata

def empty : Metadata := ⟨[], [], ∅, "", ""⟩

/-- There is no information; the language does not count as such. -/
def isEmpty (m : Metadata) : Bool :=
  m.includes.isEmpty && m.frameworkDirectories.isEmpty && m.compileFlags.isEmpty
    && m.defines.isEmpty

def samePaths (ps qs : List Path) : Bool := ps.map (·.components) == qs.map (·.components)

/-- Equal in all five fields, whatever the spelling of the paths. -/
def same (a b : Metadata) : Bool :=
  samePaths a.includes b.includes && samePaths a.frameworkDirectories b.frameworkDirectories
    && a.defines.toList == b.defines.toList && a.compileFlags == b.compileFlags
    && a.language == b.language

end Metadata

end CompileIndex
