import CompileIndex.Path.Component
import CompileIndex.Text.Utf8

/-!
# Paths

A path is any octets. It keeps its spelling, but two paths are the same when their components are:
repeated and trailing slashes and every `.` but a leading one do not count. Where a text is wanted,
what is not UTF-8 in a path becomes U+FFFD.
-/
namespace CompileIndex

/-! Texts are written for their octets. -/

instance octetsOfText : Coe String (List UInt8) := ⟨Text.Utf8.encode⟩

instance octetsOfTexts : Coe (List String) (List (List UInt8)) :=
  ⟨fun texts => texts.map Text.Utf8.encode⟩

structure Path where
  ofOctets ::
  octets : List UInt8
  deriving DecidableEq, Repr, Inhabited

namespace Path

abbrev mk (text : String) : Path := ⟨text⟩

def text (p : Path) : String := Text.Utf8.lossy p.octets

def text? (p : Path) : Option String := Text.Utf8.text? p.octets

def isText (p : Path) : Bool := p.text?.isSome

/-- What stands between slashes with the component that it means, if any. -/
abbrev Part := List UInt8 × Option Component

def laterComponent? (s : List UInt8) : Option Component :=
  if s = [] ∨ s = [dot] then none
  else if s = [dot, dot] then some .up
  else some (.name s)

/-- An empty start before a slash is the root, and a dot that starts a path counts. -/
def firstComponent? (s : List UInt8) (more : Bool) : Option Component :=
  if s = [] then (if more then some .root else none)
  else if s = [dot] then some .here
  else laterComponent? s

def parts (p : Path) : List Part :=
  match p.octets.splitOn slash with
  | [] => []
  | first :: rest =>
    (first, firstComponent? first !rest.isEmpty) :: rest.map fun s => (s, laterComponent? s)

def components (p : Path) : List Component := p.parts.filterMap (·.2)

def spell : List Part → Path
  | [(_, some .root)] => ⟨"/"⟩
  | parts => ⟨[slash].intercalate (parts.map (·.1))⟩

def ofComponents (cs : List Component) : Path := spell (cs.map fun c => (c.segment, some c))

def compare : Path → Path → Ordering := compareOn components

instance : Std.TransCmp compare := inferInstanceAs (Std.TransCmp (compareOn components))

theorem compare_eq_iff {a b : Path} : compare a b = .eq ↔ a.components = b.components :=
  Std.LawfulEqOrd.compare_eq_iff_eq

def same (a b : Path) : Bool := a.components == b.components

def isAbsolute (p : Path) : Bool := p.octets.head? == some slash

/-- An absolute path replaces the base; another is written behind it. -/
def join (base p : Path) : Path :=
  if p.isAbsolute then p
  else if base.octets = [] ∨ base.octets.getLast? = some slash then ⟨base.octets ++ p.octets⟩
  else ⟨base.octets ++ slash :: p.octets⟩

/-- Without the parts at the end that stand for nothing. Both lists start at the end. -/
def trimEnd (parts : List Part) : List Part := parts.dropWhile (·.2.isNone)

def foldersAbove : List Part → List Path
  | [] => []
  | (_, none) :: rest => foldersAbove rest
  | (_, some .root) :: _ => []
  | (_, some _) :: rest => spell (trimEnd rest).reverse :: foldersAbove rest

/-- The folders above a path, the nearest first. They end with the root, or with the empty path
when the path is relative. -/
def above (p : Path) : List Path := foldersAbove p.parts.reverse

def parent? (p : Path) : Option Path := p.above.head?

def dropComponents : List Component → List Part → Option (List Part)
  | [], parts => some parts
  | _ :: _, [] => none
  | cs@(_ :: _), (_, none) :: rest => dropComponents cs rest
  | c :: cs, (_, some d) :: rest => if c = d then dropComponents cs rest else none

def below? (p base : Path) : Option Path :=
  let cs := base.components
  (dropComponents cs p.parts).map fun rest =>
    let rest := if cs = [] then rest else rest.dropWhile (·.2.isNone)
    spell (trimEnd rest.reverse).reverse

def fileName? (p : Path) : Option (List UInt8) :=
  match p.components.getLast? with
  | some (.name octets) => some octets
  | _ => none

/-- A file name up to its last dot and what follows it. A leading dot starts the stem. -/
def splitName (name : List UInt8) : List UInt8 × Option (List UInt8) :=
  let reversed := name.reverse
  let after := reversed.takeWhile (· ≠ dot)
  match reversed.drop (after.length + 1) with
  | [] => (name, none)
  | stem => (stem.reverse, some after.reverse)

def stem? (p : Path) : Option (List UInt8) := p.fileName?.map fun n => (splitName n).1

/-- The extension of the file name, when it is a text. -/
def extension? (p : Path) : Option String :=
  (p.fileName?.bind fun n => (splitName n).2).bind Text.Utf8.text?

def withFileName (p : Path) (name : String) : Path :=
  match p.fileName?, p.parent? with
  | some _, some folder => folder.join ⟨name⟩
  | _, _ => p.join ⟨name⟩

end Path

end CompileIndex
