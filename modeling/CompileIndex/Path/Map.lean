import CompileIndex.Path.Basic

/-!
# Tables keyed by paths

In the order of the paths. All spellings of a path are one key; the table shows the first one
it was given.
-/
namespace CompileIndex

abbrev PathMap (α : Type) := Std.TreeMap Path α Path.compare

namespace PathMap

variable {α : Type}

/-- Sets the value of a path and keeps the spelling that is there. -/
def put (t : PathMap α) (p : Path) (v : α) : PathMap α := t.insert (t.getKeyD p p) v

theorem compare_getKeyD (t : PathMap α) (p : Path) : Path.compare (t.getKeyD p p) p = .eq := by
  by_cases h : p ∈ t
  · rw [← Std.TreeMap.getKey_eq_getKeyD (h := h)]
    exact Std.TreeMap.compare_getKey_self h
  · rw [Std.TreeMap.getKeyD_eq_fallback h]
    exact Std.ReflCmp.compare_self

theorem getElem?_put (t : PathMap α) (p q : Path) (v : α) :
    (t.put p v)[q]? = if Path.compare p q = .eq then some v else t[q]? := by
  unfold put
  rw [Std.TreeMap.getElem?_insert, Std.TransCmp.congr_left (compare_getKeyD t p)]

end PathMap

end CompileIndex
