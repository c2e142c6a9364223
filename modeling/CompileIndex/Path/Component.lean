import Std.Data.TreeMap

/-!
# Path components

What a path is made of, and their order: the root, the current folder, the folder above, and
then names in the order of their octets.
-/
namespace CompileIndex

abbrev slash : UInt8 := 0x2F

abbrev dot : UInt8 := 0x2E

inductive Component
  | root
  | here
  | up
  | name (octets : List UInt8)
  deriving DecidableEq, Repr

namespace Component

def rank : Component → Nat
  | .root => 0
  | .here => 1
  | .up => 2
  | .name _ => 3

def label : Component → List UInt8
  | .name octets => octets
  | _ => []

instance : Ord Component where
  compare := compareLex (compareOn rank) (compareOn label)

instance : Std.TransOrd Component :=
  inferInstanceAs (Std.TransCmp (compareLex (compareOn rank) (compareOn label)))

theorem eq_of_rank_label {a b : Component} (hr : a.rank = b.rank) (hl : a.label = b.label) :
    a = b := by
  cases a <;> cases b <;> simp_all [rank, label]

instance : Std.LawfulEqOrd Component where
  eq_of_compare {a b} h := by
    have h' := compareLex_eq_eq.1 h
    exact eq_of_rank_label (Std.LawfulEqOrd.eq_of_compare h'.1) (Std.LawfulEqOrd.eq_of_compare h'.2)

/-- How a component is written between two slashes; the root is what stands before one. -/
def segment : Component → List UInt8
  | .root => []
  | .here => [dot]
  | .up => [dot, dot]
  | .name octets => octets

end Component

end CompileIndex
