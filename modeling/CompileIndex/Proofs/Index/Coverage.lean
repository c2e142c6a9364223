import CompileIndex.Proofs.Index.Lookup
import CompileIndex.Proofs.Path.Absolute

/-!
# Items with metadata

One absolute file is enough for all absolute items: a file stands for the root, and every way up
ends there, whatever the file system says about links.
-/
namespace CompileIndex.Index

variable {α : Type} {s : Snapshot} {fs : FileSystem} {folders : List Path} {d p : Path}

theorem isSome_eitherForm? {find? : Path → Option α} (h : (find? p).isSome) :
    (eitherForm? fs find? p).isSome := by
  rw [eitherForm?, Option.isSome_or, h, Bool.true_or]

theorem isSome_search (hd : d ∈ folders) (h : (s.fileForFolder? d).isSome) :
    (search s fs folders).isSome := by
  rw [search, List.findSome?_isSome_iff]
  exact ⟨d, hd, isSome_eitherForm? h⟩

/-- A file stands for the root as soon as an absolute one is known. -/
theorem isSome_fileForFolder?_root (hs : s.Consistent) {f r : Path} (hf : f ∈ s.files)
    (h : f.isAbsolute) (hne : ¬ f.same ⟨"/"⟩) (hr : r.components = [.root]) :
    (s.fileForFolder? r).isSome := by
  rw [hs.fileForFolder?_isSome, hs.mem_folders_iff]
  exact ⟨f, hf, (Path.isAbove_root h hne).congr_left hr.symm⟩

theorem lookup_eq_none {i : Index} (h : ∀ s, i.snapshot = some s → s.files.isEmpty)
    (fs : FileSystem) (item : Item) : i.lookup fs item = none := by
  cases hi : i.snapshot with
  | none => simp [lookup, hi]
  | some s =>
    have hfile : s.file? = fun _ => none :=
      funext fun p => Std.TreeMap.getElem?_of_isEmpty (h s hi)
    have hfolder : s.fileForFolder? = fun _ => none := by
      funext d
      simp [Snapshot.fileForFolder?, hfile]
    have heither {β : Type} (p : Path) : eitherForm? fs (fun _ => (none : Option β)) p = none := by
      simp [eitherForm?]
    cases hk : item.kind <;> simp [lookup, hi, hk, search, hfile, hfolder, heither]

/-- When an absolute file other than the root is known, then every absolute folder has metadata, and
so has every absolute file other than the root. When no file is known, nothing has any. -/
theorem one_file_covers_all (origins : List Origin) (fs : FileSystem) :
    let i := afterAll (origins.map Origin.result)
    ((∃ f, (i.file? f).isSome ∧ f.isAbsolute ∧ ¬ f.same ⟨"/"⟩) →
      (∀ p : Path, p.isAbsolute → ¬ p.same ⟨"/"⟩ → i.hasMetadata fs ⟨p, .file⟩) ∧
      ∀ p : Path, p.isAbsolute → i.hasMetadata fs ⟨p, .folder⟩) ∧
    ((∀ s, i.snapshot = some s → s.files.isEmpty) →
      ∀ item, i.hasMetadata fs item = false ∧ i.resolve fs item = .empty) := by
  intro i
  refine ⟨?_, fun h item => ?_⟩
  · rintro ⟨f, hf, habsolute, hne⟩
    cases hs : i.snapshot with
    | none => simp [file?, hs] at hf
    | some s =>
      have hconsistent : s.Consistent := consistent_afterAll origins hs
      have hmem : f ∈ s.files := by
        rw [file?, hs] at hf
        exact Std.TreeMap.mem_iff_isSome_getElem?.mpr hf
      have hroot : ∀ r : Path, r.components = [.root] → (s.fileForFolder? r).isSome := fun r hr =>
        isSome_fileForFolder?_root hconsistent hmem habsolute hne hr
      refine ⟨fun p hp hpne => ?_, fun p hp => ?_⟩
      · obtain ⟨r, hr, hcomponents⟩ := Path.exists_root_above hp hpne
        have hsearch : (search s fs p.above).isSome := isSome_search hr (hroot r hcomponents)
        simp [hasMetadata, lookup, hs, hsearch]
      · obtain ⟨r, hr, hcomponents⟩ := Path.exists_root_from hp
        have hsearch : (search s fs (p :: p.above)).isSome := isSome_search hr (hroot r hcomponents)
        simp [hasMetadata, lookup, hs, hsearch]
  · rw [hasMetadata, resolve, lookup_eq_none h]
    exact ⟨rfl, rfl⟩

/-- The items are far from the file, and all links lead astray. -/
theorem one_file_covers_all_far :
    let fs : FileSystem :=
      ⟨fun _ => true, fun _ => false, fun _ => .failed "", fun _ => some ⟨"x"⟩, fun _ => []⟩
    let files : PathMap Metadata := PathMap.put ∅ ⟨"/a/b.c"⟩ .empty
    let i := afterAll ([.listed files []].map Origin.result)
    let none := afterAll ([.refused .cancelled].map Origin.result)
    (i.file? ⟨"/a/b.c"⟩).isSome ∧ i.hasMetadata fs ⟨⟨"/x/../y.c"⟩, .file⟩ ∧
      i.hasMetadata fs ⟨⟨"/"⟩, .folder⟩ ∧ none.hasMetadata fs ⟨⟨"/"⟩, .folder⟩ = false := by
  intro fs files i none
  have hfile : (i.file? ⟨"/a/b.c"⟩).isSome := by decide
  obtain ⟨hfiles, hfolders⟩ := (one_file_covers_all [.listed files []] fs).1
    ⟨⟨"/a/b.c"⟩, hfile, by decide, by decide⟩
  have hnone := (one_file_covers_all [.refused .cancelled] fs).2 (fun s hs => nomatch hs)
  exact ⟨hfile, hfiles ⟨"/x/../y.c"⟩ (by decide) (by decide), hfolders ⟨"/"⟩ (by decide),
    (hnone ⟨⟨"/"⟩, .folder⟩).1⟩

end CompileIndex.Index
