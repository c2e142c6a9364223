import CompileIndex.Snapshot

/-!
# Merging snapshots

The files of a merged snapshot path by path: a listed file has its new metadata, unless the old
one says the same, and other files are as before. A merge that reports no change makes none.
-/
namespace CompileIndex

theorem Metadata.same_refl (m : Metadata) : m.same m := by
  simp [same, samePaths]

namespace Snapshot

variable {t : PathMap Metadata} {l : List (Path × Metadata)}

/-- What is stored for a path that is listed with `m`. -/
def settle (old : Option Metadata) (m : Metadata) : Metadata :=
  match old with
  | some old => if old.same m then old else m
  | none => m

theorem settle_same (old : Option Metadata) (m : Metadata) : (settle old m).same m := by
  cases old with
  | none => exact m.same_refl
  | some old =>
    simp only [settle]
    split
    · next h => exact h
    · exact m.same_refl

theorem getElem?_mergeFile (t : PathMap Metadata) (p q : Path) (m : Metadata) :
    (mergeFile t p m).1[q]? =
      if Path.compare p q = .eq then some (settle t[q]? m) else t[q]? := by
  by_cases hc : Path.compare p q = .eq
  · have ht : t[p]? = t[q]? := Std.TreeMap.getElem?_congr hc
    cases hq : t[q]? with
    | none => simp [mergeFile, ht, hq, PathMap.getElem?_put, hc, settle]
    | some old =>
      by_cases hs : old.same m
      · simp [mergeFile, ht, hq, hs, hc, settle]
      · simp [mergeFile, ht, hq, hs, PathMap.getElem?_put, hc, settle]
  · rw [if_neg hc]
    simp only [mergeFile]
    split
    · split
      · rfl
      · rw [PathMap.getElem?_put, if_neg hc]
    · rw [PathMap.getElem?_put, if_neg hc]

def mergeStep (acc : PathMap Metadata × Bool) (e : Path × Metadata) : PathMap Metadata × Bool :=
  ((mergeFile acc.1 e.1 e.2).1, acc.2 || (mergeFile acc.1 e.1 e.2).2)

theorem mergeFiles_eq_foldl : mergeFiles t l = l.foldl mergeStep (t, false) := rfl

/-- Entries for other paths do not matter, so that in a list without repetitions the one entry for
a path decides. -/
theorem getElem?_foldl_mergeStep (acc : PathMap Metadata × Bool)
    (hd : l.Pairwise fun a b => ¬ Path.compare a.1 b.1 = .eq) (q : Path) :
    (l.foldl mergeStep acc).1[q]? =
      match l.find? (fun e => Path.compare e.1 q == .eq) with
      | some e => some (settle acc.1[q]? e.2)
      | none => acc.1[q]? := by
  induction l generalizing acc with
  | nil => rfl
  | cons e rest ih =>
    obtain ⟨he, hd⟩ := List.pairwise_cons.mp hd
    rw [List.foldl_cons, ih _ hd]
    simp only [mergeStep, getElem?_mergeFile, List.find?_cons]
    by_cases hq : Path.compare e.1 q = .eq
    · have hr : rest.find? (fun e => Path.compare e.1 q == .eq) = none := by
        rw [List.find?_eq_none]
        intro d hd hc
        exact he d hd (Std.TransCmp.eq_trans hq (Std.OrientedCmp.eq_symm (by simpa using hc)))
      simp [hq, hr]
    · have hb : (Path.compare e.1 q == .eq) = false := by simpa using hq
      simp [hq, hb]

theorem getElem?_mergeFiles_toList (t incoming : PathMap Metadata) (q : Path) :
    (mergeFiles t incoming.toList).1[q]? =
      match incoming[q]? with
      | some m => some (settle t[q]? m)
      | none => t[q]? := by
  rw [mergeFiles_eq_foldl, getElem?_foldl_mergeStep _ Std.TreeMap.distinct_keys_toList]
  cases hf : incoming.toList.find? (fun e => Path.compare e.1 q == .eq) with
  | none =>
    rw [Std.TreeMap.find?_toList_eq_none_iff_not_mem] at hf
    rw [Std.TreeMap.getElem?_eq_none hf]
  | some e =>
    rw [Std.TreeMap.find?_toList_eq_some_iff_getKey?_eq_some_and_getElem?_eq_some] at hf
    rw [hf.2]

theorem mergeFile_unchanged_iff {p : Path} {m : Metadata} :
    (mergeFile t p m).2 = false ↔ ∃ old, t[p]? = some old ∧ old.same m := by
  constructor
  · intro h
    simp only [mergeFile] at h
    split at h
    · next old ho =>
      by_cases hs : old.same m
      · exact ⟨old, ho, hs⟩
      · simp [hs] at h
    · cases h
  · rintro ⟨old, ho, hs⟩
    simp [mergeFile, ho, hs]

theorem mergeFile_unchanged {p : Path} {m : Metadata} (h : (mergeFile t p m).2 = false) :
    (mergeFile t p m).1 = t := by
  obtain ⟨old, ho, hs⟩ := mergeFile_unchanged_iff.mp h
  simp [mergeFile, ho, hs]

theorem changed_foldl_mergeStep (acc : PathMap Metadata × Bool) (h : acc.2 = true) :
    (l.foldl mergeStep acc).2 = true := by
  induction l generalizing acc with
  | nil => exact h
  | cons e rest ih => exact ih _ (by simp [mergeStep, h])

/-- The table stays as it is up to the first entry that changes it, so entries can be judged by the
table in front of all of them. -/
theorem mergeFiles_cases :
    (mergeFiles t l = (t, false) ∧ ∀ e ∈ l, (mergeFile t e.1 e.2).2 = false) ∨
    ((mergeFiles t l).2 = true ∧ ∃ e ∈ l, (mergeFile t e.1 e.2).2 = true) := by
  rw [mergeFiles_eq_foldl]
  induction l with
  | nil => exact .inl ⟨rfl, by simp⟩
  | cons e rest ih =>
    rw [List.foldl_cons]
    cases hc : (mergeFile t e.1 e.2).2 with
    | true =>
      have hb : (mergeStep (t, false) e).2 = true := by simp [mergeStep, hc]
      exact .inr ⟨changed_foldl_mergeStep _ hb, e, List.mem_cons_self, hc⟩
    | false =>
      have hs : mergeStep (t, false) e = (t, false) := Prod.ext (mergeFile_unchanged hc) hc
      rw [hs]
      rcases ih with ⟨hr, hall⟩ | ⟨hr, d, hd, hdc⟩
      · exact .inl ⟨hr, List.forall_mem_cons.mpr ⟨hc, hall⟩⟩
      · exact .inr ⟨hr, d, List.mem_cons_of_mem e hd, hdc⟩

theorem mergeFiles_unchanged (h : (mergeFiles t l).2 = false) : (mergeFiles t l).1 = t := by
  rcases mergeFiles_cases (t := t) (l := l) with ⟨hr, _⟩ | ⟨hr, _⟩
  · rw [hr]
  · rw [hr] at h
    cases h

theorem mergeFiles_unchanged_iff :
    (mergeFiles t l).2 = false ↔ ∀ e ∈ l, ∃ old, t[e.1]? = some old ∧ old.same e.2 := by
  simp only [← mergeFile_unchanged_iff]
  rcases mergeFiles_cases (t := t) (l := l) with ⟨hr, hall⟩ | ⟨hr, e, he, hc⟩
  · rw [hr]
    exact iff_of_true rfl hall
  · refine iff_of_false (by simp [hr]) fun hall => ?_
    rw [hall e he] at hc
    cases hc

end Snapshot

end CompileIndex
