import CompileIndex.Database.Report
import CompileIndex.Proofs.Database.Skipping
import CompileIndex.Proofs.Path.Clean
import Mathlib.Data.List.Induction

/-!
# What an import makes of a list

Of the values that a database lists, each is skipped or yields a file. The skipped ones are
recorded in their order, and a file has the metadata of the last entry that resolves to it.
-/
namespace CompileIndex.Database

open Json (Value)

variable {env : Shell.Environment} {fs fs' : FileSystem} {folder path p : Path} {v : Value}
  {entries : List Value} {outcomes : List Outcome} {m : Metadata}

/-- The database at a path can be read, and its document lists these values. -/
def Lists (fs : FileSystem) (path : Path) (entries : List Value) : Prop :=
  fs.has path ∧ ∃ octets, fs.read path = .octets octets ∧
    Json.read octets = .ok (.array entries)

theorem entriesOf_eq_ok_iff {octets : List UInt8} :
    entriesOf octets = .ok entries ↔ Json.read octets = .ok (.array entries) := by
  rw [entriesOf]
  cases Json.read octets with
  | error e => simp
  | ok document => cases document <;> simp

theorem readEntries_eq_ok_iff : readEntries fs path = .ok entries ↔ Lists fs path entries := by
  rw [readEntries, Lists]
  by_cases hf : fs.has path = true
  · rw [if_pos hf]
    cases hr : fs.read path with
    | octets content => simp [hf, entriesOf_eq_ok_iff]
    | failed reason => simp
    | crashed => simp
  · simp [hf]

theorem load_of_lists (h : Lists fs path entries) :
    load env fs path =
      .ok (snapshotOf (entries.map (importEntry env fs (folderOf path)))) := by
  rw [load, importUntil, readEntries_eq_ok_iff.mpr h]
  simp [bind, Except.bind, pure, Except.pure]

theorem load_of_not_lists (env : Shell.Environment) (h : ¬ ∃ entries, Lists fs path entries) :
    ∃ failure, load env fs path = .error failure := by
  cases hr : readEntries fs path with
  | ok entries => exact absurd ⟨entries, readEntries_eq_ok_iff.mp hr⟩ h
  | error failure =>
    refine ⟨failure, ?_⟩
    rw [load, importUntil, hr]
    rfl

theorem mem_skippedFrom_iff {n : Nat} {e : SkippedEntry} :
    e ∈ skippedFrom n outcomes ↔
      ∃ i, e.index = n + i ∧ outcomes[i]? = some (.error (e.file, e.reason)) := by
  induction outcomes generalizing n with
  | nil => simp [skippedFrom]
  | cons outcome rest ih =>
    -- The first value has position 0, and the others one position more than in the rest.
    have hcases : (∃ i, e.index = n + i ∧
        (outcome :: rest)[i]? = some (.error (e.file, e.reason))) ↔
        (e.index = n ∧ outcome = .error (e.file, e.reason)) ∨
          ∃ i, e.index = n + 1 + i ∧ rest[i]? = some (.error (e.file, e.reason)) := by
      constructor
      · rintro ⟨i, hi, ho⟩
        cases i with
        | zero => exact .inl ⟨hi, by simpa using ho⟩
        | succ i => exact .inr ⟨i, by omega, by simpa using ho⟩
      · rintro (⟨hi, ho⟩ | ⟨i, hi, ho⟩)
        · exact ⟨0, hi, by simpa using ho⟩
        · exact ⟨i + 1, by omega, by simpa using ho⟩
    rw [hcases]
    cases outcome with
    | ok entry => simp [skippedFrom, ih]
    | error reason =>
      obtain ⟨file, reason⟩ := reason
      rw [skippedFrom, List.mem_cons, ih]
      refine or_congr_left ?_
      constructor
      · rintro rfl
        exact ⟨rfl, rfl⟩
      · rintro ⟨hi, he⟩
        cases he
        cases e
        cases hi
        rfl

theorem skippedFrom_increasing (n : Nat) (outcomes : List Outcome) :
    (skippedFrom n outcomes).Pairwise (·.index < ·.index) := by
  induction outcomes generalizing n with
  | nil => exact .nil
  | cons outcome rest ih =>
    cases outcome with
    | ok entry => exact ih (n + 1)
    | error reason =>
      refine .cons (fun e he => ?_) (ih (n + 1))
      obtain ⟨i, hi, _⟩ := mem_skippedFrom_iff.mp he
      change n < e.index
      omega

def givenTo (p : Path) : Outcome → Option Metadata
  | .ok (k, m) => if k.same p then some m else none
  | .error _ => none

theorem getElem?_filesOf (outcomes : List Outcome) (p : Path) :
    (filesOf outcomes)[p]? = outcomes.reverse.findSome? (givenTo p) := by
  induction outcomes using List.reverseRecOn with
  | nil => simp [filesOf]
  | append_singleton outcomes outcome ih =>
    rw [List.reverse_append, List.reverse_singleton, List.singleton_append, List.findSome?_cons]
    cases outcome with
    | error reason =>
      have hfold : filesOf (outcomes ++ [.error reason]) = filesOf outcomes := by simp [filesOf]
      rw [hfold, ih]
      rfl
    | ok entry =>
      obtain ⟨k, m⟩ := entry
      have hfold : filesOf (outcomes ++ [.ok (k, m)]) = (filesOf outcomes).put k m := by
        simp [filesOf]
      have hsame : Path.compare k p = .eq ↔ k.same p = true := by
        simp [Path.compare_eq_iff, Path.same]
      rw [hfold, PathMap.getElem?_put, givenTo, ih]
      by_cases hk : k.same p = true
      · rw [if_pos (hsame.mpr hk), if_pos hk]
      · rw [if_neg fun h => hk (hsame.mp h), if_neg hk]

theorem givenTo_eq_some_iff :
    givenTo p (importEntry env fs folder v) = some m ↔
      ∃ k, Yields env fs folder v k m ∧ k.same p := by
  simp only [← importEntry_eq_ok_iff]
  cases importEntry env fs folder v with
  | error reason => simp [givenTo]
  | ok entry =>
    simp only [givenTo, Except.ok.injEq]
    constructor
    · intro h
      split at h
      · next hk =>
        cases h
        exact ⟨entry.1, rfl, hk⟩
      · cases h
    · rintro ⟨k, rfl, hk⟩
      exact if_pos hk

theorem givenTo_eq_none_iff :
    givenTo p (importEntry env fs folder v) = none ↔
      ∀ k m, Yields env fs folder v k m → ¬ k.same p := by
  rw [Option.eq_none_iff_forall_ne_some]
  simp only [ne_eq, givenTo_eq_some_iff, not_exists, not_and]
  exact ⟨fun h k m hy => h m k hy, fun h m k hy => h k m hy⟩

/-- Of the entries that resolve to `k`, the last one is `v`, with the metadata `m`. -/
def LastFor (env : Shell.Environment) (fs : FileSystem) (folder : Path) (entries : List Value)
    (v : Value) (k : Path) (m : Metadata) : Prop :=
  ∃ before after, entries = before ++ v :: after ∧ Yields env fs folder v k m ∧
    ∀ w ∈ after, ∀ q m', Yields env fs folder w q m' → ¬ q.same k

theorem getElem?_filesOf_iff :
    (filesOf (entries.map (importEntry env fs folder)))[p]? = some m ↔
      ∃ v k, k.same p ∧ LastFor env fs folder entries v k m := by
  rw [getElem?_filesOf, ← List.map_reverse, List.findSome?_map, List.findSome?_eq_some_iff]
  constructor
  · rintro ⟨after, v, before, hsplit, hv, hafter⟩
    obtain ⟨k, hy, hk⟩ := givenTo_eq_some_iff.mp hv
    refine ⟨v, k, hk, before.reverse, after.reverse, ?_, hy, fun w hw q m' hyw hq => ?_⟩
    · rw [← List.reverse_reverse entries, hsplit]
      simp
    · rw [Path.same_congr hk] at hq
      exact givenTo_eq_none_iff.mp (hafter w (List.mem_reverse.mp hw)) q m' hyw hq
  · rintro ⟨v, k, hk, before, after, rfl, hy, hafter⟩
    refine ⟨after.reverse, v, before.reverse, by simp, givenTo_eq_some_iff.mpr ⟨k, hy, hk⟩, ?_⟩
    intro w hw
    refine givenTo_eq_none_iff.mpr fun q m' hyw hq => ?_
    rw [← Path.same_congr hk] at hq
    exact hafter w (List.mem_reverse.mp hw) q m' hyw hq

theorem filesOf_filter (outcomes : List Outcome) :
    filesOf (outcomes.filter (·.toBool)) = filesOf outcomes := by
  induction outcomes using List.reverseRecOn with
  | nil => rfl
  | append_singleton outcomes outcome ih =>
    simp only [filesOf] at ih ⊢
    rw [List.filter_append, List.foldl_append, List.foldl_append, ih]
    cases outcome <;> rfl

theorem filesOf_unskipped (env : Shell.Environment) (fs : FileSystem) (folder : Path)
    (entries : List Value) :
    filesOf ((entries.filter (¬ Skipped env fs folder ·)).map (importEntry env fs folder)) =
      filesOf (entries.map (importEntry env fs folder)) := by
  rw [← filesOf_filter (entries.map _), List.filter_map]
  congr 2
  refine List.filter_congr fun v _ => ?_
  simp [skipped_iff]

theorem expandWords_congr (h : fs'.glob = fs.glob) (command : String) :
    Shell.expandWords env fs' folder command = Shell.expandWords env fs folder command := by
  have hw : Shell.expandWord fs' folder = Shell.expandWord fs folder := by
    funext word
    simp only [Shell.expandWord, Shell.expandPattern, h]
  simp only [Shell.expandWords, hw]

/-- Of the file system, only pathname expansion matters for an entry. -/
theorem importEntry_congr (h : fs'.glob = fs.glob) (v : Value) :
    importEntry env fs' folder v = importEntry env fs folder v := by
  simp only [importEntry, Entry.resolve, Entry.metadata, expandWords_congr h]

/-- What an import records of the entries. -/
structure Records (env : Shell.Environment) (fs : FileSystem) (folder : Path)
    (entries : List Value) (s : Snapshot) : Prop where
  increasing : s.skipped.Pairwise (·.index < ·.index)
  mem_skipped_iff : ∀ e, e ∈ s.skipped ↔
    ∃ v, entries[e.index]? = some v ∧ SkippedFor env fs folder v e.file e.reason
  skipped_or_yields : ∀ i v, entries[i]? = some v →
    (∃! e, e ∈ s.skipped ∧ e.index = i) ∧ (¬ ∃ k m, Yields env fs folder v k m) ∨
    (¬ ∃ e ∈ s.skipped, e.index = i) ∧
      ∃! yielded : Path × Metadata, Yields env fs folder v yielded.1 yielded.2
  file_iff : ∀ p m, s.file? p = some m ↔
    ∃ v k, k.same p ∧ LastFor env fs folder entries v k m

theorem mem_skipped_snapshotOf_iff {e : SkippedEntry} :
    e ∈ (snapshotOf (entries.map (importEntry env fs folder))).skipped ↔
      ∃ v, entries[e.index]? = some v ∧ SkippedFor env fs folder v e.file e.reason := by
  simp only [snapshotOf, Snapshot.ofFiles, mem_skippedFrom_iff, List.getElem?_map,
    Option.map_eq_some_iff, importEntry_eq_error_iff, Nat.zero_add, exists_eq_left']

theorem records_snapshotOf (env : Shell.Environment) (fs : FileSystem) (folder : Path)
    (entries : List Value) :
    Records env fs folder entries (snapshotOf (entries.map (importEntry env fs folder))) where
  increasing := skippedFrom_increasing 0 _
  mem_skipped_iff := fun e => mem_skipped_snapshotOf_iff
  skipped_or_yields := by
    intro i v hv
    rcases skipped_or_yields env fs folder v with ⟨file, reason, hs⟩ | ⟨k, m, hy⟩
    · refine .inl ⟨⟨⟨i, file, reason⟩, ⟨mem_skipped_snapshotOf_iff.mpr ⟨v, hv, hs⟩, rfl⟩, ?_⟩, ?_⟩
      · rintro e ⟨he, rfl⟩
        obtain ⟨w, hw, hs'⟩ := mem_skipped_snapshotOf_iff.mp he
        obtain rfl := Option.some.inj (hv.symm.trans hw)
        have heq := (importEntry_of_skippedFor hs').symm.trans (importEntry_of_skippedFor hs)
        cases e
        cases heq
        rfl
      · rintro ⟨k, m, hy⟩
        have heq := (importEntry_of_skippedFor hs).symm.trans (importEntry_of_yields hy)
        cases heq
    · refine .inr ⟨?_, (k, m), hy, ?_⟩
      · rintro ⟨e, he, rfl⟩
        obtain ⟨w, hw, hs⟩ := mem_skipped_snapshotOf_iff.mp he
        obtain rfl := Option.some.inj (hv.symm.trans hw)
        have heq := (importEntry_of_skippedFor hs).symm.trans (importEntry_of_yields hy)
        cases heq
      · intro yielded hy'
        have heq := (importEntry_of_yields hy').symm.trans (importEntry_of_yields hy)
        exact Except.ok.inj heq
  file_iff := fun p m => getElem?_filesOf_iff

/-- An import that is not called off takes in every list of values. It records each value either as
skipped, in the order of the list and for the first reason that applies, or by the file that it
yields, and a file has the metadata of the last entry for it. Skipped values, wherever they stand,
change no file. Without such a list nothing is imported. -/
theorem load_records (env : Shell.Environment) (fs : FileSystem) (path : Path) :
    (∀ entries, Lists fs path entries →
      ∃ s, load env fs path = .ok s ∧ Records env fs (folderOf path) entries s ∧
        ∀ fs' entries', fs'.glob = fs.glob → Lists fs' path entries' →
          entries'.filter (¬ Skipped env fs (folderOf path) ·) =
            entries.filter (¬ Skipped env fs (folderOf path) ·) →
          ∃ s', load env fs' path = .ok s' ∧ s'.files = s.files ∧ s'.folders = s.folders) ∧
    ((¬ ∃ entries, Lists fs path entries) →
      (∃ failure, load env fs path = .error failure) ∧
        let report := DatabaseReport.ofImport path (load env fs path)
        report.isValid = false ∧ report.files = [] ∧ report.folderCount = 0 ∧
          report.skipped = []) := by
  refine ⟨fun entries h => ⟨_, load_of_lists h, records_snapshotOf env fs _ entries, ?_⟩,
    fun h => ?_⟩
  · intro fs' entries' hglob h' heq
    have himport : importEntry env fs' (folderOf path) = importEntry env fs (folderOf path) :=
      funext (importEntry_congr hglob)
    have hfiles : filesOf (entries'.map (importEntry env fs (folderOf path))) =
        filesOf (entries.map (importEntry env fs (folderOf path))) := by
      rw [← filesOf_unskipped env fs _ entries', heq, filesOf_unskipped]
    refine ⟨_, load_of_lists h', ?_, ?_⟩
    · rw [himport]
      exact hfiles
    · rw [himport]
      simp only [snapshotOf, Snapshot.ofFiles, hfiles]
  · obtain ⟨failure, hload⟩ := load_of_not_lists env h
    refine ⟨⟨failure, hload⟩, ?_⟩
    simp [hload, DatabaseReport.ofImport, DatabaseReport.isValid]

/-- A number among the entries is skipped, and the entry behind it is taken in. -/
theorem load_records_mixed :
    let env : Shell.Environment := ⟨fun _ => none, "1"⟩
    let text := "[5,\x7b\"file\":\"a.c\",\"directory\":\"/w\",\"arguments\":[\"cc\"]\x7d]"
    let fs : FileSystem :=
      { has := fun _ => true
        isFolder := fun _ => false
        read := fun _ => .octets (text.toList.map fun c => .ofNat c.toNat)
        canonical? := fun _ => none
        glob := fun _ => [] }
    ∃ s, load env fs ⟨"/w/db.json"⟩ = .ok s ∧ ⟨0, none, .notAnObject⟩ ∈ s.skipped ∧
      s.file? ⟨"/w/a.c"⟩ =
        some (Entry.withLanguage ⟨"/w/a.c"⟩ (Arguments.classify ⟨"/w"⟩ ["cc"])) := by
  intro env text fs
  let entry : Value := .object [("file", .string "a.c"), ("directory", .string "/w"),
    ("arguments", .array [.string "cc"])]
  have hlists : Lists fs ⟨"/w/db.json"⟩ [.number (.integer 5), entry] := by
    subst text entry
    exact ⟨rfl, _, rfl, rfl⟩
  have htyped : WellTyped entry :=
    ⟨⟨_, rfl⟩, .inr ⟨["cc"], rfl⟩, .inl (.inl rfl), .inr ⟨_, rfl⟩, .inr ⟨_, rfl⟩⟩
  have hlocated : Located entry "a.c" "/w" := ⟨htyped, rfl, rfl⟩
  have hinvoked : InvokedWith env fs ⟨"/w"⟩ entry "/w" ["cc"] := .arguments _ (.inl rfl) rfl
  have hyields := Yields.entry "a.c" "/w" _ hlocated hinvoked
  have hworking : workingFolder ⟨"/w"⟩ "/w" = ⟨"/w"⟩ := by decide +kernel
  have hfile : sourceFile ⟨"/w"⟩ "/w" "a.c" = ⟨"/w/a.c"⟩ := by decide +kernel
  rw [hworking, hfile] at hyields
  have hfolder : folderOf ⟨"/w/db.json"⟩ = ⟨"/w"⟩ := by decide +kernel
  obtain ⟨s, hload, hrecords, -⟩ := (load_records env fs ⟨"/w/db.json"⟩).1 _ hlists
  rw [hfolder] at hrecords
  refine ⟨s, hload, (hrecords.mem_skipped_iff _).mpr ⟨_, rfl, .notAnObject ?_⟩,
    (hrecords.file_iff _ _).mpr ⟨entry, _, Path.same_refl _, [.number (.integer 5)], [], rfl,
      hyields, by simp⟩⟩
  rintro ⟨fields, h⟩
  cases h

end CompileIndex.Database
