import Std.Data.TreeMap

/-!
# Project handles

Handles are told apart by their names. Their order puts short names first, so that numbered
names are in the order of their numbers.
-/
namespace CompileIndex

structure ProjectId where
  name : String
  deriving DecidableEq, Repr, Inhabited

namespace ProjectId

def width (p : ProjectId) : Nat := p.name.length

instance : Ord ProjectId where
  compare := compareLex (compareOn width) (compareOn name)

instance : Std.TransOrd ProjectId :=
  inferInstanceAs (Std.TransCmp (compareLex (compareOn width) (compareOn name)))

instance : Std.LawfulEqOrd ProjectId where
  eq_of_compare {a b} h := by
    have hn : a.name = b.name := Std.LawfulEqOrd.eq_of_compare (compareLex_eq_eq.1 h).2
    cases a
    cases b
    simpa using hn

/-- The handle of the project that was attached after `n` others. -/
def nth (n : Nat) : ProjectId := ⟨"p" ++ toString n⟩

end ProjectId

abbrev ProjectMap (α : Type) := Std.TreeMap ProjectId α

end CompileIndex
