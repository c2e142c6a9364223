import CompileIndex.Proofs.Database.Listing
import CompileIndex.Proofs.Session.Indexes
import CompileIndex.Serve.Service

/-!
# Answers about listed files

A file that the database lists is answered with the metadata of its last entry, however the host
spells its path: importing and answering resolve paths alike.
-/
namespace CompileIndex

open Database (Lists LastFor Located folderOf workingFolder sourceFile)

variable {env : Shell.Environment} {fs : FileSystem} {i : Index} {p k : Path} {m : Metadata}
  {v : Json.Value}

theorem Index.lookup_of_file {s : Snapshot} (hi : i.snapshot = some s) (hp : s.file? p = some m)
    (fs : FileSystem) : i.lookup fs ⟨p, .file⟩ = some m := by
  simp [lookup, hi, eitherForm?, hp]

theorem Database.LastFor.eq_sourceFile {folder : Path} {entries : List Json.Value}
    (h : LastFor env fs folder entries v k m) :
    ∃ file directory, Located v file directory ∧ k = sourceFile folder directory file := by
  obtain ⟨_, _, _, hy, _⟩ := h
  obtain ⟨file, directory, words, hl, _⟩ := hy
  exact ⟨file, directory, hl, rfl⟩

namespace Session

variable {τ : Type} {s : Session} {a : ProjectId} {h : History τ} {c : Completion}

theorem report_of_lookup {item : Item} (ha : s.index? a = some i)
    (hl : i.lookup fs item = some m) : s.report fs a item = .ok ⟨item, true, m⟩ := by
  obtain ⟨p, hp, rfl⟩ := Option.map_eq_some_iff.mp ha
  simp [report, hasMetadata, resolve, attached, hp, Index.hasMetadata, Index.resolve, hl, bind,
    Except.bind, pure, Except.pure]

theorem execute_query_of_file {snapshot : Snapshot} (ha : s.index? a = some ⟨some snapshot⟩)
    (hk : snapshot.file? k = some m) {root query : Path} (hq : root.resolve query = k)
    (hfolder : fs.isFolder k = false) :
    s.execute fs a root (.query query) = some (.ok (.metadata ⟨⟨k, .file⟩, true, m⟩), s) := by
  have hitem : item fs root query = ⟨k, .file⟩ := by
    rw [item, Item.ofPath, hq, hfolder]
    rfl
  have hreport : s.report fs a ⟨k, .file⟩ = .ok ⟨⟨k, .file⟩, true, m⟩ :=
    report_of_lookup ha (Index.lookup_of_file rfl hk fs)
  rw [execute, hitem, hreport]
  rfl

/-- The first snapshot that is accepted for a project becomes its index. -/
theorem index?_of_first (trigger : Trigger τ) (hs : Sourced h) {snapshot : Snapshot}
    (hc : h.session.Awaits c) (hresult : c.result = .ok snapshot)
    (hfirst : ∀ d ∈ h.accepted, d.project = c.project → ¬ d.isValid) :
    (h.step trigger (.event (.completion c))).session.index? c.project =
      some ⟨some snapshot⟩ := by
  obtain ⟨p, hp, hg⟩ := hc
  have hindex : h.session.index? c.project = some p.index := by simp [index?, hp]
  have hnone : p.index.snapshot = none := by
    by_contra hsome
    obtain ⟨d, hd, hproject, hvalid⟩ :=
      hs c.project p.index hindex (Option.isSome_iff_ne_none.mpr hsome)
    exact hfirst d hd hproject hvalid
  change (h.session.next trigger h.queue (.completion c)).2.1.index? c.project = _
  rw [index?_next, Event.effect, if_pos rfl, hp, Option.map_some, if_pos hg, Option.map_some]
  simp [Project.settle, hresult, Index.apply, hnone]

/-- When the first import of a database is accepted, and until something else happens to the
project, every query that comes down to the path of a listed file is answered with the metadata of
the last entry for that path. The text of the entry itself, taken in the folder of the entry, is
such a query. -/
theorem answers_last_entry (trigger : Trigger τ) (queue : τ) (moves later : List (Move τ))
    (job : Job) (env : Shell.Environment) (read : FileSystem) (entries : List Json.Value)
    (v : Json.Value) (k : Path) (m : Metadata)
    (hlists : Lists read job.source entries)
    (hlast : LastFor env read (folderOf job.source) entries v k m)
    (hawaits : (History.after trigger queue moves).session.Awaits (job.run env read))
    (hfirst : ∀ c ∈ (History.after trigger queue moves).accepted,
      c.project = job.project → ¬ c.isValid)
    (hlater : ∀ move ∈ later, move.Spares job.project) :
    let s := (History.after trigger queue
      (moves ++ .event (.completion (job.run env read)) :: later)).session
    (∀ fs root query, (root.resolve query).same k → fs.isFolder k = false →
      s.execute fs job.project root (.query query) =
        some (.ok (.metadata ⟨⟨k, .file⟩, true, m⟩), s)) ∧
    ∃ file directory, v.field? "file" = some (.string file) ∧
      v.field? "directory" = some (.string directory) ∧
      ∀ fs, fs.isFolder k = false →
        s.execute fs job.project (workingFolder (folderOf job.source) directory)
            (.query ⟨file⟩) = some (.ok (.metadata ⟨⟨k, .file⟩, true, m⟩), s) := by
  intro s
  obtain ⟨file, directory, hl, hk⟩ := hlast.eq_sourceFile
  set snapshot := Database.snapshotOf
    (entries.map (Database.importEntry env read (folderOf job.source)))
  have hload : (job.run env read).result = .ok snapshot := Database.load_of_lists hlists
  have hfile : snapshot.file? k = some m :=
    ((Database.records_snapshotOf env read _ entries).file_iff k m).mpr
      ⟨v, k, Path.same_refl k, hlast⟩
  have hindex : s.index? job.project = some ⟨some snapshot⟩ := by
    have hafter : s = (later.foldl (History.step trigger)
        ((History.after trigger queue moves).step trigger
          (.event (.completion (job.run env read))))).session := by
      simp only [s, History.after, List.foldl_append, List.foldl_cons]
    rw [hafter, index?_foldl_of_spares trigger _ hlater]
    exact index?_of_first trigger (sourced_after trigger queue moves) hawaits hload hfirst
  have hquery : ∀ fs root query, (root.resolve query).same k → fs.isFolder k = false →
      s.execute fs job.project root (.query query) =
        some (.ok (.metadata ⟨⟨k, .file⟩, true, m⟩), s) := by
    intro fs root query hsame hfolder
    have heq : root.resolve query = k := by
      subst hk
      exact Path.clean_eq_of_same hsame
    exact execute_query_of_file hindex hfile heq hfolder
  refine ⟨hquery, file, directory, hl.has_file, hl.has_directory, fun fs hfolder => ?_⟩
  refine hquery fs _ ⟨file⟩ ?_ hfolder
  rw [hk]
  exact Path.same_refl _

set_option maxRecDepth 4000 in
/-- Two entries are about one file. The query spells its path in yet another way, and links lead
elsewhere. -/
theorem answers_last_entry_respelled :
    let env : Shell.Environment := ⟨fun _ => none, "1"⟩
    let opening := "[\x7b\"file\":\"a.c\",\"directory\":\"/w\",\"arguments\":[]\x7d,"
    let ending :=
      "\x7b\"file\":\"./a.c\",\"directory\":\"../w\",\"arguments\":[\"c\",\"-DY\"]\x7d]"
    let fs : FileSystem :=
      { has := fun _ => true
        isFolder := fun _ => false
        read := fun _ => .octets ((opening.toList ++ ending.toList).map fun c => .ofNat c.toNat)
        canonical? := fun _ => some ⟨"/elsewhere"⟩
        glob := fun _ => [] }
    let a : ProjectId := ⟨"p0"⟩
    let job : Job := ⟨a, 0, ⟨"/w/db.json"⟩⟩
    let s := (History.after (fun _ t => (.ok (), t)) ()
      [.event (.attach a ⟨⟨"/w"⟩, job.source⟩), .event (.completion (job.run env fs)),
        .event (.reimport a)]).session
    s.execute fs a ⟨"/v"⟩ (.query ⟨"../w/x/../a.c"⟩) = some (.ok (.metadata
      ⟨⟨⟨"/w/a.c"⟩, .file⟩, true,
        Entry.withLanguage ⟨"/w/a.c"⟩ (Arguments.classify ⟨"/w"⟩ ["c", "-DY"])⟩), s) := by
  intro env opening ending fs a job s
  let first : Json.Value := .object [("file", .string "a.c"), ("directory", .string "/w"),
    ("arguments", .array [])]
  let last : Json.Value := .object [("file", .string "./a.c"), ("directory", .string "../w"),
    ("arguments", .array [.string "c", .string "-DY"])]
  have hlists : Lists fs job.source [first, last] := by
    subst opening ending first last
    exact ⟨rfl, _, rfl, rfl⟩
  have htyped : Database.WellTyped last :=
    ⟨⟨_, rfl⟩, .inr ⟨["c", "-DY"], rfl⟩, .inl (.inl rfl), .inr ⟨_, rfl⟩, .inr ⟨_, rfl⟩⟩
  have hlocated : Located last "./a.c" "../w" := ⟨htyped, rfl, rfl⟩
  have hinvoked : Database.InvokedWith env fs (folderOf job.source) last "../w" ["c", "-DY"] :=
    .arguments _ (.inl rfl) rfl
  have hyields := Database.Yields.entry "./a.c" "../w" _ hlocated hinvoked
  have hfolder : workingFolder (folderOf job.source) "../w" = ⟨"/w"⟩ := by decide +kernel
  have hfile : sourceFile (folderOf job.source) "../w" "./a.c" = ⟨"/w/a.c"⟩ := by decide +kernel
  rw [hfolder, hfile] at hyields
  have hlast : LastFor env fs (folderOf job.source) [first, last] last
      ⟨"/w/a.c"⟩ _ := ⟨[first], [], rfl, hyields, by simp⟩
  exact (answers_last_entry _ () [.event (.attach a ⟨⟨"/w"⟩, job.source⟩)] [.event (.reimport a)]
    job env fs _ last _ _ hlists hlast
    ⟨_, (project?_attach .empty a a ⟨⟨"/w"⟩, job.source⟩).trans (if_pos rfl), rfl⟩
    (fun c hc => nomatch hc) (by simp [Move.Spares, Event.Spares])).1 fs ⟨"/v"⟩
    ⟨"../w/x/../a.c"⟩ (by decide +kernel) rfl

end Session

end CompileIndex
