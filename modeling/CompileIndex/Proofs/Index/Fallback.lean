import CompileIndex.Database.Import
import CompileIndex.Proofs.Index.Imports
import CompileIndex.Proofs.Snapshot.Representatives

/-!
# The fallback table of an index

The table of folders follows the files through all imports, although it is worked out again only
when a merge changes a file. It depends on nothing but the paths of the files.
-/
namespace CompileIndex

/-- Where the result of an import can come from: a list of files, a failure, or a database. A
failure is no snapshot, so that what an index holds is always valid. -/
inductive Origin
  | listed (files : PathMap Metadata) (skipped : List SkippedEntry)
  | refused (failure : Failure)
  | imported (stopped : Nat → Bool) (env : Shell.Environment) (fs : FileSystem) (path : Path)

def Origin.result : Origin → Except Failure Snapshot
  | .listed files skipped => .ok (.ofFiles files skipped)
  | .refused failure => .error failure
  | .imported stopped env fs path => Database.importUntil stopped env fs path

namespace Snapshot

/-- The folders are those that the files have now. -/
def Consistent (s : Snapshot) : Prop := s.folders = representatives s.files.keys

theorem consistent_ofFiles (files : PathMap Metadata) (skipped : List SkippedEntry) :
    (ofFiles files skipped).Consistent := rfl

theorem Consistent.merge {s : Snapshot} (h : s.Consistent) (incoming : Snapshot) :
    (s.merge incoming).1.Consistent := by
  simp only [Snapshot.merge, Consistent]
  split
  · rfl
  · next hc =>
    rw [mergeFiles_unchanged (by simpa using hc)]
    exact h

theorem consistent_of_importUntil {stopped : Nat → Bool} {env : Shell.Environment}
    {fs : FileSystem} {path : Path} {s : Snapshot}
    (h : Database.importUntil stopped env fs path = .ok s) : s.Consistent := by
  rw [Database.importUntil] at h
  cases hr : Database.readEntries fs path with
  | error failure => simp [hr, bind, Except.bind] at h
  | ok entries =>
    simp only [hr, bind, Except.bind] at h
    split at h
    · cases h
    · obtain rfl := Except.ok.inj h
      exact consistent_ofFiles _ _

theorem consistent_of_origin {o : Origin} {s : Snapshot} (h : o.result = .ok s) :
    s.Consistent := by
  cases o with
  | listed files skipped =>
    obtain rfl := Except.ok.inj h
    exact consistent_ofFiles files skipped
  | refused failure => cases h
  | imported stopped env fs path => exact consistent_of_importUntil h

variable {s s' : Snapshot} {d f : Path}

theorem Consistent.mem_folders_iff (h : s.Consistent) :
    d ∈ s.folders ↔ ∃ f ∈ s.files, d.IsAbove f := by
  rw [h, mem_representatives_iff]
  constructor
  · rintro ⟨f, hf, hd⟩
    exact ⟨f, Std.TreeMap.mem_of_mem_keys hf, hd⟩
  · rintro ⟨f, hf, hd⟩
    obtain ⟨k, hk, hc⟩ := PathMap.mem_iff_exists_key.mp hf
    exact ⟨k, hk, hd.congr_right hc.symm⟩

theorem Consistent.candidate (h : s.Consistent) (hf : s.folders[d]? = some f) :
    Candidate s.files.keys d f := by
  rw [h] at hf
  exact candidate_of_representative hf

theorem Consistent.exists_file (h : s.Consistent) (hf : s.folders[d]? = some f) :
    ∃ m, s.files[f]? = some m :=
  PathMap.exists_getElem? (Std.TreeMap.mem_of_mem_keys (h.candidate hf).listed)

theorem Consistent.fileForFolder?_isSome (h : s.Consistent) :
    (s.fileForFolder? d).isSome ↔ d ∈ s.folders := by
  rw [Std.TreeMap.mem_iff_isSome_getElem?]
  cases hf : s.folders[d]? with
  | none => simp [fileForFolder?, hf]
  | some f =>
    obtain ⟨m, hm⟩ := h.exists_file hf
    simp [fileForFolder?, hf, file?, hm]

/-- Of two snapshots with the same files, neither has an earlier file for a folder. -/
theorem Consistent.folder_isLE (h : s.Consistent) (h' : s'.Consistent)
    (hfiles : ∀ p, p ∈ s.files ↔ p ∈ s'.files) {f f' : Path} (hf : s.folders[d]? = some f)
    (hf' : s'.folders[d]? = some f') : (Path.compare f f').isLE := by
  have hc := h'.candidate hf'
  obtain ⟨k, hk, hkf⟩ := PathMap.mem_iff_exists_key.mp
    ((hfiles f').mpr (Std.TreeMap.mem_of_mem_keys hc.listed))
  have hck : Candidate s.files.keys d k := by
    refine hc.congr (fun p hp => ?_) hk hkf.symm
    exact PathMap.mem_iff_exists_key.mp ((hfiles p).mp (Std.TreeMap.mem_of_mem_keys hp))
  rw [h] at hf
  have hle := representative_isLE Std.TreeMap.ordered_keys hf hck
  rwa [Std.TransCmp.congr_right (Path.compare_eq_iff.mpr hkf)] at hle

theorem Consistent.folders_eq (h : s.Consistent) (h' : s'.Consistent)
    (hfiles : ∀ p, p ∈ s.files ↔ p ∈ s'.files) (d : Path) :
    s.folders[d]?.map Path.components = s'.folders[d]?.map Path.components := by
  have hm : d ∈ s.folders ↔ d ∈ s'.folders := by
    simp only [h.mem_folders_iff, h'.mem_folders_iff, hfiles]
  cases hf : s.folders[d]? with
  | none =>
    have hn : d ∉ s'.folders := fun hd => by
      rw [← hm, Std.TreeMap.mem_iff_isSome_getElem?, hf] at hd
      cases hd
    rw [Std.TreeMap.getElem?_eq_none hn]
  | some f =>
    obtain ⟨f', hf'⟩ := PathMap.exists_getElem? (hm.mp (PathMap.mem_of_getElem? hf))
    have hle := h.folder_isLE h' hfiles hf hf'
    have hge := h'.folder_isLE h (fun p => (hfiles p).symm) hf' hf
    have heq : Path.compare f f' = .eq := Std.OrientedCmp.isLE_antisymm hle hge
    simp [hf', Path.compare_eq_iff.mp heq]

end Snapshot

namespace Index

theorem consistent_apply {i : Index} (hi : ∀ s, i.snapshot = some s → s.Consistent) (o : Origin)
    {s : Snapshot} (h : (i.apply o.result).2.snapshot = some s) : s.Consistent := by
  cases ho : o.result with
  | error failure =>
    rw [ho] at h
    exact hi s h
  | ok incoming =>
    cases hs : i.snapshot with
    | none =>
      simp only [ho, apply, hs, Option.some.injEq] at h
      exact h ▸ Snapshot.consistent_of_origin ho
    | some known =>
      simp only [ho, apply, hs, Option.some.injEq] at h
      exact h ▸ (hi known hs).merge incoming

theorem consistent_afterAll (origins : List Origin) {s : Snapshot}
    (h : (afterAll (origins.map Origin.result)).snapshot = some s) : s.Consistent := by
  induction origins using List.reverseRecOn generalizing s with
  | nil => cases h
  | append_singleton origins o ih =>
    rw [List.map_append, List.map_singleton, afterAll_append] at h
    exact consistent_apply (fun _ hs => ih hs) o h

/-- After any imports the folders of an index are those that would be worked out from its files
now, and the file that stands for a folder is one of the files. Indexes that know the same paths
have the same folders, with the same files for them, however they came about. -/
theorem folders_follow_files (origins : List Origin) (s : Snapshot)
    (h : (afterAll (origins.map Origin.result)).snapshot = some s) :
    s.folders = Snapshot.representatives s.files.keys ∧
    (∀ d f : Path, s.folders[d]? = some f → f ∈ s.files) ∧
    (∀ d, (s.fileForFolder? d).isSome ↔ d ∈ s.folders) ∧
    ∀ (others : List Origin) (s' : Snapshot),
      (afterAll (others.map Origin.result)).snapshot = some s' →
      (∀ p, p ∈ s.files ↔ p ∈ s'.files) →
      ∀ d : Path, s.folders[d]?.map Path.components = s'.folders[d]?.map Path.components := by
  have hs := consistent_afterAll origins h
  refine ⟨hs, fun d f hf => ?_, fun d => hs.fileForFolder?_isSome, ?_⟩
  · exact Std.TreeMap.mem_of_mem_keys (hs.candidate hf).listed
  · intro others s' h' hfiles d
    exact hs.folders_eq (consistent_afterAll others h') hfiles d

/-- Of two imports that overlap with what is known, one changes nothing and leaves the folders as
they are, and in the other an earlier file of a folder takes its place. The folders are those that
one import of all the files gives. -/
theorem folders_follow_overlapping :
    let first : PathMap Metadata := (PathMap.put ∅ ⟨"/a/b.c"⟩ .empty).put ⟨"/c/d.c"⟩ .empty
    let known : PathMap Metadata := PathMap.put ∅ ⟨"/a/./b.c"⟩ .empty
    let more : PathMap Metadata :=
      (PathMap.put ∅ ⟨"/a/b.c"⟩ { Metadata.empty with language := "C" }).put ⟨"/a/a.c"⟩ .empty
    let i := afterAll ([.listed first [], .refused .cancelled].map Origin.result)
    let kept := i.apply (Origin.listed known []).result
    let renewed := kept.2.apply (Origin.listed more []).result
    let whole := Snapshot.ofFiles (first.put ⟨"/a/a.c"⟩ .empty) []
    kept.1 = .ok false ∧ renewed.1 = .ok true ∧
    ∃ s, renewed.2.snapshot = some s ∧ (s.fileForFolder? ⟨"/"⟩).isSome ∧
      s.folders[(⟨"/a"⟩ : Path)]? = some ⟨"/a/a.c"⟩ ∧
      ∀ d : Path, s.folders[d]?.map Path.components = whole.folders[d]?.map Path.components := by
  intro first known more i kept renewed whole
  obtain ⟨s, hs⟩ : ∃ s, renewed.2.snapshot = some s := ⟨_, rfl⟩
  have hfile : s.folders[(⟨"/a"⟩ : Path)]? = some ⟨"/a/a.c"⟩ := by
    obtain rfl := Option.some.inj hs
    decide +kernel
  have hroot : (s.folders[(⟨"/"⟩ : Path)]?).isSome := by
    obtain rfl := Option.some.inj hs
    decide +kernel
  have hkeys : s.files.keys = whole.files.keys := by
    obtain rfl := Option.some.inj hs
    decide +kernel
  obtain ⟨_, _, hfolders, hothers⟩ := folders_follow_files
    [.listed first [], .refused .cancelled, .listed known [], .listed more []] s hs
  refine ⟨by decide +kernel, by decide +kernel, s, hs, ?_, hfile, ?_⟩
  · exact (hfolders ⟨"/"⟩).mpr (Std.TreeMap.mem_iff_isSome_getElem?.mpr hroot)
  · refine hothers [.listed (first.put ⟨"/a/a.c"⟩ .empty) []] whole rfl fun p => ?_
    rw [PathMap.mem_iff_exists_key, PathMap.mem_iff_exists_key, hkeys]

end Index

end CompileIndex
