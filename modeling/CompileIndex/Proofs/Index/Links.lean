import CompileIndex.Proofs.Index.Lookup
import CompileIndex.Proofs.Path.Absolute

/-!
# Folders behind links

A folder that is not known as it is spelled is looked for by its canonical form, and then so are the
folders above it, along the path by which it was opened. The folders above its canonical form are
not looked at.
-/
namespace CompileIndex.Index

open CompileIndex.Path (IsAbove)

variable {i : Index} {s : Snapshot} {fs : FileSystem} {c d p r : Path}

/-- A file stands for the folder. -/
def Maps (i : Index) (d : Path) : Prop := (i.representative? d).isSome

instance (i : Index) (d : Path) : Decidable (i.Maps d) := inferInstanceAs (Decidable (_ = true))

/-- The first folder for which a file stands among the canonical forms on the way up from `p`, and
then the root. -/
def landing? (i : Index) (fs : FileSystem) (p : Path) : Option Path :=
  (p.ascent.filterMap fs.canonical? ++ [(⟨"/"⟩ : Path)]).find? (i.Maps ·)

/-- On the way up from `c` nothing is known in front of `d`, neither as it is spelled nor in its
canonical form. -/
structure FirstOnWay (i : Index) (fs : FileSystem) (c d : Path) : Prop where
  onWay : d.components = c.components ∨ IsAbove d c
  unknown : ∀ e ∈ c :: c.above, IsAbove d e →
    ¬ i.Maps e ∧ ∀ e', fs.canonical? e = some e' → ¬ i.Maps e'

theorem Maps.congr (h : i.Maps d) (hc : d.components = c.components) : i.Maps c := by
  cases hs : i.snapshot with
  | none => simp [Maps, representative?, hs] at h
  | some s => simpa [Maps, representative?, hs, PathMap.getElem?_of_components_eq hc] using h

theorem isSome_fileForFolder?_iff (hs : i.snapshot = some s) (h : s.Consistent) :
    (s.fileForFolder? d).isSome ↔ i.Maps d := by
  rw [h.fileForFolder?_isSome, Std.TreeMap.mem_iff_isSome_getElem?, Maps, representative?, hs,
    Option.bind_some]

theorem fileForFolder?_of_not_maps (hs : i.snapshot = some s) (h : s.Consistent)
    (hd : ¬ i.Maps d) : s.fileForFolder? d = none := by
  rwa [← isSome_fileForFolder?_iff hs h, Option.not_isSome_iff_eq_none] at hd

theorem fileForFolder?_congr (s : Snapshot) (h : c.components = d.components) :
    s.fileForFolder? c = s.fileForFolder? d := by
  rw [Snapshot.fileForFolder?, Snapshot.fileForFolder?, PathMap.getElem?_of_components_eq h]

theorem lookup_folder (hs : i.snapshot = some s) (fs : FileSystem) (d : Path) :
    i.lookup fs ⟨d, .folder⟩ = search s fs (d :: d.above) := by
  simp [lookup, hs]

theorem lookup_of_maps (hs : i.snapshot = some s) (h : s.Consistent) (fs : FileSystem)
    (hd : i.Maps d) : i.lookup fs ⟨d, .folder⟩ = s.fileForFolder? d := by
  obtain ⟨m, hm⟩ := Option.isSome_iff_exists.mp ((isSome_fileForFolder?_iff hs h).mpr hd)
  rw [lookup_folder hs, search, List.findSome?_cons, eitherForm?, hm, Option.some_or]

theorem findSome?_fileForFolder? (hs : i.snapshot = some s) (h : s.Consistent)
    (folders : List Path) :
    folders.findSome? s.fileForFolder? = (folders.find? (i.Maps ·)).bind s.fileForFolder? := by
  induction folders with
  | nil => rfl
  | cons d rest ih =>
    rw [List.findSome?_cons, List.find?_cons]
    by_cases hd : i.Maps d
    · obtain ⟨m, hm⟩ := Option.isSome_iff_exists.mp ((isSome_fileForFolder?_iff hs h).mpr hd)
      simp [hd, hm]
    · simp [hd, fileForFolder?_of_not_maps hs h hd, ih]

/-- What is not known as it is spelled is known by its canonical form alone. -/
theorem eitherForm?_of_not_maps (hs : i.snapshot = some s) (h : s.Consistent) (hd : ¬ i.Maps d) :
    eitherForm? fs s.fileForFolder? d = (fs.canonical? d).bind s.fileForFolder? := by
  have hnone := fileForFolder?_of_not_maps hs h hd
  rw [eitherForm?, hnone, Option.none_or, alternative?]
  cases hc : fs.canonical? d with
  | none => rfl
  | some c =>
    by_cases hsame : c.same d
    · have hcd : s.fileForFolder? c = none :=
        (fileForFolder?_congr s (by simpa [Path.same] using hsame)).trans hnone
      simp [Option.filter, hsame, hcd]
    · simp [Option.filter, hsame]

theorem findSome?_eitherForm? (hs : i.snapshot = some s) (h : s.Consistent) (fs : FileSystem)
    {folders : List Path} (hown : ∀ d ∈ folders, ¬ i.Maps d) :
    folders.findSome? (eitherForm? fs s.fileForFolder?) =
      (folders.filterMap fs.canonical?).findSome? s.fileForFolder? := by
  induction folders with
  | nil => rfl
  | cons d rest ih =>
    have hrest := ih fun e he => hown e (List.mem_cons_of_mem d he)
    rw [List.findSome?_cons, eitherForm?_of_not_maps hs h (hown d List.mem_cons_self), hrest]
    cases hc : fs.canonical? d with
    | none => simp [hc]
    | some c =>
      rw [List.filterMap_cons_some hc, List.findSome?_cons]
      rfl

/-- The way up leads to the first canonical form that is known, and otherwise to the root, which is
looked for in both forms. -/
theorem lookup_ascent (hs : i.snapshot = some s) (h : s.Consistent) (fs : FileSystem)
    (hp : p.isAbsolute) (hown : ∀ d ∈ p.ascent, ¬ i.Maps d) :
    ∃ r, r.components = [.root] ∧ i.lookup fs ⟨p, .folder⟩ =
      ((i.landing? fs p).bind s.fileForFolder?).or
        ((alternative? fs r).bind s.fileForFolder?) := by
  obtain ⟨r, hr, hway⟩ := Path.exists_ascent hp
  refine ⟨r, hr, ?_⟩
  have hroot : s.fileForFolder? r = s.fileForFolder? ⟨"/"⟩ :=
    fileForFolder?_congr s (hr.trans Path.components_root.symm)
  rw [lookup_folder hs, hway, search, List.findSome?_append, findSome?_eitherForm? hs h fs hown,
    landing?, ← findSome?_fileForFolder? hs h, List.findSome?_append, Option.or_assoc]
  simp [eitherForm?, hroot]

theorem lookup_of_firstOnWay (hs : i.snapshot = some s) (h : s.Consistent) (hd : i.Maps d)
    (hway : FirstOnWay i fs c d) : i.lookup fs ⟨c, .folder⟩ = s.fileForFolder? d := by
  obtain ⟨e, he, hed⟩ : ∃ e ∈ c :: c.above, e.components = d.components := by
    rcases hway.onWay with hdc | hdc
    · exact ⟨c, List.mem_cons_self, hdc.symm⟩
    · obtain ⟨e, he, hed⟩ := hdc.exists_mem
      exact ⟨e, List.mem_cons_of_mem c he, hed⟩
  obtain ⟨before, after, hsplit⟩ := List.append_of_mem he
  have hpairwise := Path.ascent_pairwise c
  rw [hsplit] at hpairwise
  have hbefore : before.findSome? (eitherForm? fs s.fileForFolder?) = none := by
    rw [List.findSome?_eq_none_iff]
    intro b hb
    have hdb : IsAbove d b :=
      ((List.pairwise_append.mp hpairwise).2.2 b hb e List.mem_cons_self).congr_left hed
    have hmem : b ∈ c :: c.above := hsplit ▸ List.mem_append_left _ hb
    obtain ⟨hb, hcanonical⟩ := hway.unknown b hmem hdb
    rw [eitherForm?_of_not_maps hs h hb, Option.bind_eq_none_iff]
    exact fun b' hb' => fileForFolder?_of_not_maps hs h (hcanonical b' hb')
  obtain ⟨m, hm⟩ := Option.isSome_iff_exists.mp ((isSome_fileForFolder?_iff hs h).mpr hd)
  rw [lookup_folder hs, search, hsplit, List.findSome?_append, hbefore, Option.none_or,
    List.findSome?_cons, eitherForm?, fileForFolder?_congr s hed, hm, Option.some_or]

theorem maps_of_landing? (h : i.landing? fs p = some d) : i.Maps d := by
  simpa using List.find?_some h

theorem not_maps_root (h : i.landing? fs p = none) (hr : r.components = [.root]) :
    ¬ i.Maps r := by
  have hnone := List.find?_eq_none.mp h ⟨"/"⟩ (by simp)
  exact fun hmaps => hnone (by simpa using hmaps.congr (hr.trans Path.components_root.symm))

theorem landing?_of_maps (hne : ¬ p.same ⟨"/"⟩) (hc : fs.canonical? p = some c)
    (hmaps : i.Maps c) : i.landing? fs p = some c := by
  have hascent : p.ascent = p :: p.above.filter fun d => !d.same ⟨"/"⟩ := by
    simp [Path.ascent, hne]
  simp [landing?, hascent, hc, hmaps]

/-- A folder that is not known as it is spelled, nor is any folder above it in front of the root, is
answered like the first canonical form on its way up that is known, and like the root if there is
none. So it is answered like its own canonical form when this is known, and also when the known
one is the first on the way up from there. -/
theorem linked_folder_lands (origins : List Origin) (fs : FileSystem) (p c : Path)
    (hp : p.isAbsolute) (hc : fs.canonical? p = some c)
    (hown : ∀ d ∈ p.ascent, ¬ (afterAll (origins.map Origin.result)).Maps d) :
    let i := afterAll (origins.map Origin.result)
    let answer (d : Path) := i.lookup fs ⟨d, .folder⟩
    (∀ d, i.landing? fs p = some d →
      answer p = answer d ∧ (FirstOnWay i fs c d → answer p = answer c)) ∧
    (i.landing? fs p = none → ∃ r : Path, r.same ⟨"/"⟩ ∧ answer p = answer r) ∧
    (¬ p.same ⟨"/"⟩ → i.Maps c → answer p = answer c) := by
  intro i answer
  cases hs : i.snapshot with
  | none =>
    have hsame : ∀ d e, answer d = answer e := fun d e => by simp [answer, lookup, hs]
    exact ⟨fun d _ => ⟨hsame p d, fun _ => hsame p c⟩,
      fun _ => ⟨⟨"/"⟩, Path.same_refl _, hsame p _⟩, fun _ _ => hsame p c⟩
  | some s =>
    have h : s.Consistent := consistent_afterAll origins hs
    obtain ⟨r, hr, hanswer⟩ := lookup_ascent hs h fs hp hown
    have hlands : ∀ d, i.landing? fs p = some d → answer p = s.fileForFolder? d := by
      intro d hd
      obtain ⟨m, hm⟩ := Option.isSome_iff_exists.mp
        ((isSome_fileForFolder?_iff hs h).mpr (maps_of_landing? hd))
      rw [hd, Option.bind_some, hm, Option.some_or] at hanswer
      exact hanswer.trans hm.symm
    refine ⟨fun d hd => ⟨?_, fun hway => ?_⟩, fun hnone => ⟨r, ?_, ?_⟩, fun hne hmaps => ?_⟩
    · exact (hlands d hd).trans (lookup_of_maps hs h fs (maps_of_landing? hd)).symm
    · exact (hlands d hd).trans (lookup_of_firstOnWay hs h (maps_of_landing? hd) hway).symm
    · simp [Path.same, hr, Path.components_root]
    · have hroot := fileForFolder?_of_not_maps hs h (not_maps_root hnone hr)
      have hr' : answer r = (alternative? fs r).bind s.fileForFolder? := by
        simp [answer, lookup_folder hs, Path.above_of_root hr, search, eitherForm?, hroot]
      rw [hr']
      simpa [hnone] using hanswer
    · exact (hlands c (landing?_of_maps hne hc hmaps)).trans
        (lookup_of_maps hs h fs hmaps).symm

/-- A folder that is not there yet is opened through a link to its parent. -/
theorem linked_folder_lands_above :
    let fs : FileSystem := {
      has := fun _ => true
      isFolder := fun _ => false
      read := fun _ => .failed ""
      canonical? := fun p =>
        if p.same ⟨"/l/new"⟩ then some ⟨"/real/new"⟩
        else if p.same ⟨"/l"⟩ then some ⟨"/real"⟩ else some p
      glob := fun _ => [] }
    let files : PathMap Metadata :=
      (PathMap.put ∅ ⟨"/aaa/z.c"⟩ .empty).put ⟨"/real/a.c"⟩ { Metadata.empty with language := "C" }
    let i := afterAll ([.listed files []].map Origin.result)
    (∀ d ∈ Path.ascent ⟨"/l/new"⟩, ¬ i.Maps d) ∧ ¬ i.Maps ⟨"/real/new"⟩ ∧
      i.lookup fs ⟨⟨"/l/new"⟩, .folder⟩ = i.lookup fs ⟨⟨"/real/new"⟩, .folder⟩ ∧
      (i.lookup fs ⟨⟨"/l/new"⟩, .folder⟩).map (·.language) = some "C" := by
  intro fs files i
  have hown : ∀ d ∈ Path.ascent ⟨"/l/new"⟩, ¬ i.Maps d := by decide +kernel
  have hlanding : i.landing? fs ⟨"/l/new"⟩ = some ⟨"/real"⟩ := by decide +kernel
  have hunknown : ¬ i.Maps ⟨"/real/new"⟩ := by decide +kernel
  have hway : FirstOnWay i fs ⟨"/real/new"⟩ ⟨"/real"⟩ := by
    refine ⟨.inr (by decide +kernel), fun e he hde => ?_⟩
    have honly : ∀ e ∈ (⟨"/real/new"⟩ : Path) :: Path.above ⟨"/real/new"⟩,
        IsAbove ⟨"/real"⟩ e → e = ⟨"/real/new"⟩ := by decide +kernel
    obtain rfl := honly e he hde
    have hcanonical : fs.canonical? ⟨"/real/new"⟩ = some ⟨"/real/new"⟩ := by decide +kernel
    refine ⟨hunknown, fun e' he' => ?_⟩
    obtain rfl := Option.some.inj (hcanonical.symm.trans he')
    exact hunknown
  obtain ⟨hlands, -, -⟩ := linked_folder_lands [.listed files []] fs ⟨"/l/new"⟩ ⟨"/real/new"⟩
    (by decide) (by decide +kernel) hown
  exact ⟨hown, hunknown, (hlands ⟨"/real"⟩ hlanding).2 hway, by decide +kernel⟩

/-- The real location of a link lies below a folder that is known, and nothing on the way up from
the link leads there. -/
theorem linked_folder_strays :
    let fs : FileSystem := {
      has := fun _ => true
      isFolder := fun _ => false
      read := fun _ => .failed ""
      canonical? := fun p => if p.same ⟨"/l"⟩ then some ⟨"/real/deep"⟩ else none
      glob := fun _ => [] }
    let files : PathMap Metadata :=
      (PathMap.put ∅ ⟨"/aaa/z.c"⟩ { Metadata.empty with language := "C" }).put ⟨"/real/a.cpp"⟩
        { Metadata.empty with language := "C++" }
    let i := afterAll ([.listed files []].map Origin.result)
    fs.canonical? ⟨"/l"⟩ = some ⟨"/real/deep"⟩ ∧ ¬ Path.same ⟨"/real/deep"⟩ ⟨"/l"⟩ ∧
      (∀ d ∈ Path.ascent ⟨"/l"⟩, ¬ i.Maps d) ∧
      i.lookup fs ⟨⟨"/l"⟩, .folder⟩ ≠ i.lookup fs ⟨⟨"/real/deep"⟩, .folder⟩ := by
  intro fs files i
  refine ⟨by decide +kernel, by decide +kernel, by decide +kernel, fun heq => ?_⟩
  have hlink : (i.lookup fs ⟨⟨"/l"⟩, .folder⟩).map (·.language) = some "C" := by decide +kernel
  have hreal : (i.lookup fs ⟨⟨"/real/deep"⟩, .folder⟩).map (·.language) = some "C++" := by
    decide +kernel
  rw [heq, hreal] at hlink
  revert hlink
  decide

end CompileIndex.Index
