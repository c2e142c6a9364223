import CompileIndex.Proofs.Index.Fallback

/-!
# Nearest folders

The way up from a path meets its folders in the order of their depth, and a folder has a file that
stands for it just when it is above a file. So the first answer on the way is that of the deepest
folder that the path shares with a known file.
-/
namespace CompileIndex.Index

open CompileIndex.Path (IsAbove)

variable {i : Index} {s : Snapshot} {fs : FileSystem} {folders : List Path} {d f p : Path}

def representative? (i : Index) (d : Path) : Option Path := i.snapshot.bind (·.folders[d]?)

def HasFileBelow (i : Index) (d : Path) : Prop := ∃ f, (i.file? f).isSome ∧ IsAbove d f

structure Nearest (i : Index) (folders : List Path) (d : Path) : Prop where
  listed : d ∈ folders
  hasFileBelow : i.HasFileBelow d
  deepest : ∀ e ∈ folders, i.HasFileBelow e → e.depth ≤ d.depth

/-- The deepest of the folders that are above `f` is as deep as for any file that is known. -/
def Closest (i : Index) (folders : List Path) (f : Path) : Prop :=
  ∀ g, (i.file? g).isSome → ∀ e ∈ folders, IsAbove e g →
    ∃ d ∈ folders, IsAbove d f ∧ e.depth ≤ d.depth

/-- An answer that comes from the nearest of the folders, and is missing only without one. -/
structure Answers (i : Index) (folders : List Path) (answer : Option Metadata) : Prop where
  none_iff : answer = none ↔ ∀ d ∈ folders, ¬ i.HasFileBelow d
  of_some : ∀ m, answer = some m → ∃ d f, Nearest i folders d ∧ i.representative? d = some f ∧
    IsAbove d f ∧ i.file? f = some m ∧ Closest i folders f

theorem Nearest.closest (h : Nearest i folders d) (hf : IsAbove d f) : Closest i folders f := by
  intro g hg e he heg
  exact ⟨d, h.listed, hf, h.deepest e he ⟨g, hg, heg⟩⟩

theorem hasFileBelow_iff (hs : i.snapshot = some s) :
    i.HasFileBelow d ↔ ∃ f ∈ s.files, IsAbove d f := by
  simp only [HasFileBelow, file?, hs, Option.bind_some, Snapshot.file?,
    Std.TreeMap.mem_iff_isSome_getElem?]

theorem not_hasFileBelow (hs : i.snapshot = none) : ¬ i.HasFileBelow d := by
  rintro ⟨f, hf, _⟩
  simp [file?, hs] at hf

theorem fileForFolder?_eq_none_iff (hs : i.snapshot = some s) (h : s.Consistent) :
    s.fileForFolder? d = none ↔ ¬ i.HasFileBelow d := by
  rw [hasFileBelow_iff hs, ← h.mem_folders_iff, ← h.fileForFolder?_isSome]
  simp

theorem nearest_of_first (hs : i.snapshot = some s) (h : s.Consistent) {before after : List Path}
    (hp : (before ++ d :: after).Pairwise fun q d => IsAbove d q)
    (hd : (s.fileForFolder? d).isSome) (hbefore : ∀ e ∈ before, s.fileForFolder? e = none) :
    Nearest i (before ++ d :: after) d where
  listed := by simp
  hasFileBelow := by
    rwa [hasFileBelow_iff hs, ← h.mem_folders_iff, ← h.fileForFolder?_isSome]
  deepest := by
    intro e he hbelow
    -- Folders before the first answer have no files below, and those after it are above it.
    rcases List.mem_append.mp he with he | he
    · exact absurd hbelow ((fileForFolder?_eq_none_iff hs h).mp (hbefore e he))
    rcases List.mem_cons.mp he with rfl | he
    · exact Nat.le_refl _
    · have hed : IsAbove e d :=
        (List.pairwise_cons.mp (List.pairwise_append.mp hp).2.1).1 e he
      exact Nat.le_of_lt hed.depth_lt

theorem answers_findSome? (hs : i.snapshot = some s) (h : s.Consistent)
    (hp : folders.Pairwise fun q d => IsAbove d q) :
    Answers i folders (folders.findSome? s.fileForFolder?) where
  none_iff := by
    simp only [List.findSome?_eq_none_iff, fileForFolder?_eq_none_iff hs h]
  of_some := by
    intro m hm
    obtain ⟨before, d, after, rfl, hd, hbefore⟩ := List.findSome?_eq_some_iff.mp hm
    have hnear := nearest_of_first hs h hp (by simp [hd]) hbefore
    obtain ⟨f, hf, hfm⟩ := Option.bind_eq_some_iff.mp hd
    have hdf : IsAbove d f := (h.candidate hf).below
    refine ⟨d, f, hnear, ?_, hdf, ?_, hnear.closest hdf⟩
    · simp [representative?, hs, hf]
    · simp [file?, hs, hfm]

theorem answers_none (hs : i.snapshot = none) : Answers i folders none where
  none_iff := by simp [not_hasFileBelow hs]
  of_some := by
    intro m hm
    cases hm

/-- No path has a canonical form that is another path. -/
def Plain (fs : FileSystem) : Prop := ∀ p q, fs.canonical? p = some q → q.same p

theorem Plain.alternative? (h : Plain fs) (p : Path) : alternative? fs p = none := by
  rw [Index.alternative?, Option.filter_eq_none_iff]
  intro q hq
  simp [h p q hq]

theorem Plain.eitherForm? {α : Type} (h : Plain fs) (find? : Path → Option α) (p : Path) :
    eitherForm? fs find? p = find? p := by
  simp [Index.eitherForm?, h.alternative?]

theorem Plain.search (h : Plain fs) (s : Snapshot) (folders : List Path) :
    search s fs folders = folders.findSome? s.fileForFolder? := by
  rw [Index.search]
  exact congrArg (folders.findSome? ·) (funext (h.eitherForm? s.fileForFolder?))

/-- A file that is known is its own answer. Any other path is answered from the deepest folder
above it that has a known file below, with the file that stands for this folder, which is as close
as any file that is known. A folder counts as one of those above it. -/
theorem lookup_nearest (origins : List Origin) (fs : FileSystem) (hfs : Plain fs)
    (p : Path) :
    let i := afterAll (origins.map Origin.result)
    (∀ m, i.file? p = some m → i.lookup fs ⟨p, .file⟩ = some m) ∧
    (i.file? p = none → Answers i p.above (i.lookup fs ⟨p, .file⟩)) ∧
    Answers i (p :: p.above) (i.lookup fs ⟨p, .folder⟩) := by
  intro i
  cases hs : i.snapshot with
  | none =>
    have hnone (item : Item) : i.lookup fs item = none := by simp [lookup, hs]
    refine ⟨fun m hm => ?_, fun _ => ?_, ?_⟩
    · simp [file?, hs] at hm
    · rw [hnone]
      exact answers_none hs
    · rw [hnone]
      exact answers_none hs
  | some s =>
    have h : s.Consistent := consistent_afterAll origins hs
    have hfile : i.lookup fs ⟨p, .file⟩ =
        (i.file? p).or (p.above.findSome? s.fileForFolder?) := by
      simp [lookup, hs, file?, hfs.eitherForm?, hfs.search]
    have hfolder : i.lookup fs ⟨p, .folder⟩ =
        (p :: p.above).findSome? s.fileForFolder? := by
      simp [lookup, hs, hfs.search]
    refine ⟨fun m hm => ?_, fun hm => ?_, ?_⟩
    · simp [hfile, hm]
    · rw [hfile, hm, Option.none_or]
      exact answers_findSome? hs h (Path.above_pairwise p)
    · rw [hfolder]
      refine answers_findSome? hs h (List.pairwise_cons.mpr ⟨?_, Path.above_pairwise p⟩)
      exact fun d hd => Path.isAbove_of_mem hd

theorem lookup_nearest_beside :
    let fs : FileSystem := ⟨fun _ => true, fun _ => false, fun _ => .failed "", some, fun _ => []⟩
    let files : PathMap Metadata := PathMap.put ∅ ⟨"/a/b.c"⟩ .empty
    let i := afterAll ([.listed files []].map Origin.result)
    Plain fs ∧ i.file? ⟨"/a/x/y.c"⟩ = none ∧
      Answers i (Path.above ⟨"/a/x/y.c"⟩) (i.lookup fs ⟨⟨"/a/x/y.c"⟩, .file⟩) := by
  intro fs files i
  have hfs : Plain fs := by
    intro p q h
    cases h
    simp [Path.same]
  have hm : i.file? ⟨"/a/x/y.c"⟩ = none := by decide
  exact ⟨hfs, hm, (lookup_nearest [.listed files []] fs hfs ⟨"/a/x/y.c"⟩).2.1 hm⟩

end CompileIndex.Index
