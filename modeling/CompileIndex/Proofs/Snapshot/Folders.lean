import CompileIndex.Proofs.Snapshot.Representatives
import Mathlib.Data.List.Dedup

/-!
# The table of folders

The table that is worked out from the files has the folders above them, each once however it is
spelled, and gives to each the least of the files that may stand for it.
-/
namespace CompileIndex

namespace PathMap

variable {α : Type} {t : PathMap α} {p q : Path}

theorem nodup_components_keys (t : PathMap α) : (t.keys.map Path.components).Nodup := by
  refine List.pairwise_map.mpr (Std.TreeMap.distinct_keys.imp ?_)
  intro a b hne hc
  exact hne (Path.compare_eq_iff.mpr hc)

/-- A table shows one spelling of each of its paths. -/
theorem eq_of_mem_keys (hp : p ∈ t.keys) (hq : q ∈ t.keys) (h : p.components = q.components) :
    p = q :=
  List.inj_on_of_nodup_map (nodup_components_keys t) hp hq h

end PathMap

namespace Snapshot

open CompileIndex.Path (IsAbove Ancestor)

variable {α : Type} {files : List Path} {d f : Path}

/-- The folders above the files, each once. -/
def distinctAbove (files : List Path) : List (List Component) :=
  (files.flatMap fun f => f.above.map Path.components).dedup

theorem mem_distinctAbove_iff : d.components ∈ distinctAbove files ↔ ∃ f ∈ files, IsAbove d f := by
  simp only [distinctAbove, List.mem_dedup, List.mem_flatMap, Path.IsAbove]

theorem components_keys_perm (files : List Path) :
    ((representatives files).keys.map Path.components).Perm (distinctAbove files) := by
  refine (List.perm_ext_iff_of_nodup (PathMap.nodup_components_keys _) (List.nodup_dedup _)).mpr ?_
  intro cs
  constructor
  · intro h
    obtain ⟨d, hd, rfl⟩ := List.mem_map.mp h
    exact mem_distinctAbove_iff.mpr (mem_representatives_iff.mp (Std.TreeMap.mem_of_mem_keys hd))
  · intro h
    obtain ⟨f, hf, hcs⟩ := List.mem_flatMap.mp (List.mem_dedup.mp h)
    obtain ⟨d, hd, rfl⟩ := List.mem_map.mp hcs
    have hmem : d ∈ representatives files :=
      mem_representatives_iff.mpr ⟨f, hf, Path.isAbove_of_mem hd⟩
    obtain ⟨k, hk, hc⟩ := PathMap.mem_iff_exists_key.mp hmem
    exact List.mem_map.mpr ⟨k, hk, hc⟩

/-- There are as many entries as there are folders above the files. -/
theorem size_representatives (files : List Path) :
    (representatives files).size = (distinctAbove files).length := by
  rw [← Std.TreeMap.length_keys, ← List.length_map Path.components]
  exact (components_keys_perm files).length_eq

/-- A folder with files of its own has no other candidates. -/
theorem Candidate.liesIn (h : Candidate files d f) (hown : ∃ f' ∈ files, LiesIn f' d) :
    LiesIn f d := by
  rcases h.cases with hl | ⟨hnot, _⟩
  · exact hl
  · exact absurd (mem_ownFolders_iff.mpr hown) hnot

theorem representative_iff {files : PathMap α} :
    (representatives files.keys)[d]? = some f ↔
      Candidate files.keys d f ∧
        ∀ f', Candidate files.keys d f' → (Path.compare f f').isLE := by
  constructor
  · intro h
    exact ⟨candidate_of_representative h,
      fun f' hf' => representative_isLE Std.TreeMap.ordered_keys h hf'⟩
  · rintro ⟨hf, hleast⟩
    obtain ⟨g, hg⟩ := PathMap.exists_getElem?
      (mem_representatives_iff.mpr ⟨f, hf.listed, hf.below⟩)
    have hgc : Candidate files.keys d g := candidate_of_representative hg
    have hgf : (Path.compare g f).isLE := representative_isLE Std.TreeMap.ordered_keys hg hf
    have heq : Path.compare f g = .eq := Std.OrientedCmp.isLE_antisymm (hleast g hgc) hgf
    rw [hg, PathMap.eq_of_mem_keys hf.listed hgc.listed (Path.compare_eq_iff.mp heq)]

/-- The table for the files has exactly the folders that are come to by going up from one of them.
For each it has the least of the files that may stand for it, which are those below it that no
folder with files of its own hides, neither the folder itself nor one on the way down to the folder
of the file. So a folder with files of its own has the least of these. -/
theorem least_stands_for_folder (files : PathMap Metadata) :
    let t := representatives files.keys
    (∀ d, d ∈ t ↔ ∃ f ∈ files.keys, Ancestor d f) ∧
    (∀ d f : Path, t[d]? = some f ↔
      Candidate files.keys d f ∧
        ∀ f', Candidate files.keys d f' → (Path.compare f f').isLE) ∧
    ∀ d, (∃ f ∈ files.keys, LiesIn f d) →
      ∃ f ∈ files.keys, t[d]? = some f ∧ LiesIn f d ∧
        ∀ f' ∈ files.keys, LiesIn f' d → (Path.compare f f').isLE := by
  intro t
  refine ⟨fun d => ?_, fun d f => representative_iff, fun d hown => ?_⟩
  · simp only [Path.ancestor_iff_isAbove]
    exact mem_representatives_iff
  · obtain ⟨f', hf', hl⟩ := hown
    obtain ⟨f, hf⟩ := PathMap.exists_getElem?
      (mem_representatives_iff.mpr ⟨f', hf', hl.isAbove⟩)
    obtain ⟨hc, hleast⟩ := representative_iff.mp hf
    exact ⟨f, hc.listed, hf, hc.liesIn ⟨f', hf', hl⟩,
      fun g hg hgd => hleast g (candidate_of_liesIn hg hgd)⟩

end Snapshot

end CompileIndex
