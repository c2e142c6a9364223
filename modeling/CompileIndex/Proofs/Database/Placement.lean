import CompileIndex.Proofs.Arguments.Folders
import CompileIndex.Proofs.Database.CallingOff
import CompileIndex.Proofs.Snapshot.Representatives

/-!
# Where an import places its paths

The folder of an entry starts at that of the database, its file at its folder, and so do the folders
of its invocation. When the database is at an absolute path, then no path is left to start anywhere
else, and what has been resolved has no dots in it.
-/
namespace CompileIndex

namespace PathMap

variable {α : Type} {t : PathMap α} {k : Path}

theorem getKey?_put (t : PathMap α) (p q : Path) (v : α) :
    (t.put p v).getKey? q =
      if Path.compare p q = .eq then some (t.getKeyD p p) else t.getKey? q := by
  rw [put, Std.TreeMap.getKey?_insert, Std.TransCmp.congr_left (compare_getKeyD t p)]

theorem mem_keys_of_mem_toList {v : α} (h : (k, v) ∈ t.toList) : k ∈ t.keys := by
  rw [← Std.TreeMap.map_fst_toList_eq_keys]
  exact List.mem_map_of_mem h

theorem getKey?_of_mem_keys (h : k ∈ t.keys) : t.getKey? k = some k := by
  rw [← Std.TreeMap.map_fst_toList_eq_keys] at h
  obtain ⟨⟨k, v⟩, hkv, rfl⟩ := List.mem_map.mp h
  exact (Std.TreeMap.mem_toList_iff_getKey?_eq_some_and_getElem?_eq_some.mp hkv).1

end PathMap

namespace Database

open Arguments (Denotes FolderList)
open Json (Value)

variable {env : Shell.Environment} {fs : FileSystem} {folder path p k : Path} {v : Value}
  {entries : List Value} {outcomes : List Outcome} {m : Metadata}

/-- What an entry yields stems from its own texts and the folder of the database. -/
inductive Placed (env : Shell.Environment) (fs : FileSystem) (folder : Path) (v : Value) :
    Path → Metadata → Prop
  | entry (file directory : String) (words : List String) (m : Metadata)
    (hlocated : Located v file directory)
    (hinvoked : InvokedWith env fs folder v directory words)
    (hworking : (workingFolder folder directory).Normal)
    (hfile : (sourceFile folder directory file).Normal)
    (hfolders : ∀ list : FolderList,
      List.Forall₂ (Denotes (workingFolder folder directory)) (list.texts words) (list.of m)) :
    Placed env fs folder v (sourceFile folder directory file) m

/-- The files of a snapshot are those that the last entries for them yield, spelled in the one way
that all their entries agree on. -/
structure Places (env : Shell.Environment) (fs : FileSystem) (folder : Path)
    (entries : List Value) (s : Snapshot) : Prop where
  key_normal : ∀ k ∈ s.files.keys, k.Normal
  stored_iff : ∀ k m, (k, m) ∈ s.files.toList ↔ ∃ v, LastFor env fs folder entries v k m
  yielded : ∀ v ∈ entries, ∀ k m, Yields env fs folder v k m → Placed env fs folder v k m

theorem isAbsolute_folderOf (h : path.isAbsolute) : (folderOf path).isAbsolute := by
  rw [folderOf]
  cases hp : path.parent? with
  | none => rfl
  | some q => exact Path.isAbsolute_parent h hp

theorem Placed.normal (h : Placed env fs folder v k m) : k.Normal := by
  cases h with
  | entry file directory words m hlocated hinvoked hworking hfile hfolders => exact hfile

theorem of_withLanguage (list : FolderList) (file : Path) (m : Metadata) :
    list.of (Entry.withLanguage file m) = list.of m := by
  rw [Entry.withLanguage]
  split
  · cases list <;> rfl
  · rfl

theorem placed_of_yields (hfolder : folder.isAbsolute) (h : Yields env fs folder v k m) :
    Placed env fs folder v k m := by
  obtain ⟨file, directory, words, hlocated, hinvoked⟩ := h
  have hworking : (workingFolder folder directory).Normal := Path.normal_resolve hfolder _
  refine .entry file directory words _ hlocated hinvoked hworking
    (Path.normal_resolve hworking.isAbsolute _) fun list => ?_
  rw [of_withLanguage]
  exact Arguments.folders_classify hworking.isAbsolute list words

theorem exists_outcome_of_key (h : (filesOf outcomes).getKey? p = some k) :
    ∃ m, .ok (k, m) ∈ outcomes := by
  induction outcomes using List.reverseRecOn generalizing p with
  | nil => simp [filesOf] at h
  | append_singleton outcomes outcome ih =>
    have hearlier : ∀ {q}, (filesOf outcomes).getKey? q = some k →
        ∃ m, .ok (k, m) ∈ outcomes ++ [outcome] := by
      intro q hq
      obtain ⟨m, hm⟩ := ih hq
      exact ⟨m, List.mem_append_left _ hm⟩
    cases outcome with
    | error reason =>
      have hfold : filesOf (outcomes ++ [.error reason]) = filesOf outcomes := by simp [filesOf]
      rw [hfold] at h
      exact hearlier h
    | ok entry =>
      obtain ⟨file, m⟩ := entry
      have hfold : filesOf (outcomes ++ [.ok (file, m)]) = (filesOf outcomes).put file m := by
        simp [filesOf]
      rw [hfold, PathMap.getKey?_put] at h
      split at h
      · -- The table keeps the spelling that it has, if any.
        rw [Std.TreeMap.getKeyD_eq_getD_getKey?] at h
        cases hfile : (filesOf outcomes).getKey? file with
        | none =>
          rw [hfile] at h
          cases h
          exact ⟨m, List.mem_append_right _ List.mem_cons_self⟩
        | some q =>
          rw [hfile] at h
          cases h
          exact hearlier hfile
      · exact hearlier h

theorem exists_yields_of_key
    (h : k ∈ (filesOf (entries.map (importEntry env fs folder))).keys) :
    ∃ v ∈ entries, ∃ m, Yields env fs folder v k m := by
  obtain ⟨m, hm⟩ := exists_outcome_of_key (PathMap.getKey?_of_mem_keys h)
  obtain ⟨v, hv, hyields⟩ := List.mem_map.mp hm
  exact ⟨v, hv, m, importEntry_eq_ok_iff.mp hyields⟩

theorem Yields.exists_clean (h : Yields env fs folder v k m) : ∃ p : Path, k = p.clean := by
  cases h with
  | entry file directory words hlocated hinvoked => exact ⟨_, rfl⟩

theorem Yields.eq_key (h : Yields env fs folder v k m)
    (hp : p ∈ (filesOf (entries.map (importEntry env fs folder))).keys) (hsame : k.same p) :
    k = p := by
  obtain ⟨w, -, m', hyields⟩ := exists_yields_of_key hp
  obtain ⟨a, rfl⟩ := h.exists_clean
  obtain ⟨b, rfl⟩ := hyields.exists_clean
  exact Path.clean_eq_of_same hsame

theorem LastFor.yields (h : LastFor env fs folder entries v k m) : Yields env fs folder v k m := by
  obtain ⟨before, after, -, hyields, -⟩ := h
  exact hyields

/-- The table holds the last entry for each file, under the spelling of that entry. -/
theorem mem_toList_filesOf_iff :
    (k, m) ∈ (filesOf (entries.map (importEntry env fs folder))).toList ↔
      ∃ v, LastFor env fs folder entries v k m := by
  constructor
  · intro hkm
    obtain ⟨v, q, hq, hlast⟩ := getElem?_filesOf_iff.mp (PathMap.getElem?_of_mem_toList hkm)
    rw [hlast.yields.eq_key (PathMap.mem_keys_of_mem_toList hkm) hq] at hlast
    exact ⟨v, hlast⟩
  · rintro ⟨v, hlast⟩
    obtain ⟨p, hcompare, hpm⟩ :=
      Std.TreeMap.getElem?_eq_some_iff_exists_compare_eq_eq_and_mem_toList.mp
        (getElem?_filesOf_iff.mpr ⟨v, k, Path.same_refl k, hlast⟩)
    have hsame : k.same p := by simpa [Path.same] using Path.compare_eq_iff.mp hcompare
    rw [hlast.yields.eq_key (PathMap.mem_keys_of_mem_toList hpm) hsame]
    exact hpm

theorem places_snapshotOf (hfolder : folder.isAbsolute) (env : Shell.Environment) (fs : FileSystem)
    (entries : List Value) :
    Places env fs folder entries (snapshotOf (entries.map (importEntry env fs folder))) where
  key_normal := by
    intro k hk
    obtain ⟨v, -, m, hyields⟩ := exists_yields_of_key hk
    exact (placed_of_yields hfolder hyields).normal
  stored_iff := fun _ _ => mem_toList_filesOf_iff
  yielded := fun _ _ _ _ hyields => placed_of_yields hfolder hyields

/-- The files of a database at an absolute path are absolute and have no dots in them, and so are
the folders in their metadata, apart from absolute texts, which stay as they are written. All of
them stem from the texts of one entry and the folder of the database, also when the import could
have been called off. -/
theorem load_places (env : Shell.Environment) (hpath : path.isAbsolute)
    (hlists : Lists fs path entries) :
    ∃ s, load env fs path = .ok s ∧ Places env fs (folderOf path) entries s ∧
      ∀ stopped s', importUntil stopped env fs path = .ok s' → s' = s := by
  refine ⟨_, load_of_lists hlists, places_snapshotOf (isAbsolute_folderOf hpath) env fs entries, ?_⟩
  intro stopped s' h
  rw [importUntil_of_lists stopped hlists] at h
  split at h
  · cases h
  · exact (Except.ok.inj h).symm

/-- The path of the database has dots in it, and so have the folder and the file of its entry. -/
theorem load_places_dots :
    let env : Shell.Environment := ⟨fun _ => none, "1"⟩
    let text := "[\x7b\"file\":\"../a.c\",\"directory\":\"sub/./x\"," ++
      "\"arguments\":[\"cc\",\"-I../../inc\",\"-F\",\"/f/../g\"]\x7d]"
    let fs : FileSystem :=
      { has := fun _ => true
        isFolder := fun _ => false
        read := fun _ => .octets (text.toList.map fun c => .ofNat c.toNat)
        canonical? := fun _ => none
        glob := fun _ => [] }
    ∃ s v m, load env fs ⟨"/w/../db.json"⟩ = .ok s ∧ (∀ k ∈ s.files.keys, k.Normal) ∧
      Placed env fs ⟨"/w/.."⟩ v ⟨"/sub/a.c"⟩ m ∧ m.includes = [⟨"/inc"⟩] ∧
      m.frameworkDirectories = [⟨"/f/../g"⟩] := by
  intro env text fs
  let words := ["cc", "-I../../inc", "-F", "/f/../g"]
  let entry : Value := .object [("file", .string "../a.c"), ("directory", .string "sub/./x"),
    ("arguments", .array (words.map .string))]
  have hlists : Lists fs ⟨"/w/../db.json"⟩ [entry] := by
    subst text entry
    exact ⟨rfl, _, rfl, rfl⟩
  have htyped : WellTyped entry :=
    ⟨⟨_, rfl⟩, .inr ⟨words, rfl⟩, .inl (.inl rfl), .inr ⟨_, rfl⟩, .inr ⟨_, rfl⟩⟩
  have hinvoked : InvokedWith env fs ⟨"/w/.."⟩ entry "sub/./x" words :=
    .arguments _ (.inl rfl) rfl
  have hyields := Yields.entry "../a.c" "sub/./x" _ ⟨htyped, rfl, rfl⟩ hinvoked
  have hworking : workingFolder ⟨"/w/.."⟩ "sub/./x" = ⟨"/sub/x"⟩ := by decide +kernel
  have hfile : sourceFile ⟨"/w/.."⟩ "sub/./x" "../a.c" = ⟨"/sub/a.c"⟩ := by decide +kernel
  rw [hworking, hfile] at hyields
  have hfolder : folderOf ⟨"/w/../db.json"⟩ = ⟨"/w/.."⟩ := by decide +kernel
  obtain ⟨s, hload, hplaces, -⟩ := load_places env (by decide) hlists
  rw [hfolder] at hplaces
  exact ⟨s, entry, _, hload, hplaces.key_normal,
    hplaces.yielded entry List.mem_cons_self _ _ hyields, by decide +kernel, by decide +kernel⟩

end Database

end CompileIndex
