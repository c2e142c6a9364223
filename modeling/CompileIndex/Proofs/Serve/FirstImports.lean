import CompileIndex.Database.Report
import CompileIndex.Proofs.Serve.Listed
import CompileIndex.Proofs.Session.ChangedSources
import CompileIndex.Proofs.Session.Statuses

/-!
# First imports and reports on databases

A database can be looked at without a session. The first import of a project finds in it what such a
look finds: it is merged or fails alike, with the same counts or for the same reason. The files that
it finds are known from then on, as long as the project is kept.
-/
namespace CompileIndex

open Json (Value)

/-! ## What is reported -/

def Outcome.failure? : Outcome → Option Failure
  | .merged _ => none
  | .failed failure => some failure

theorem Finished.field?_reason (f : Finished) :
    (Value.object f.fields).field? "reason" =
      f.outcome.failure?.map fun failure => .string failure.message := by
  obtain ⟨project, outcome, fileCount, skippedEntries⟩ := f
  cases outcome <;> simp [fields, Outcome.fields, Outcome.failure?, Value.field?]

theorem DatabaseReport.field?_failure (r : DatabaseReport) :
    r.json.field? "failure" = r.failure.map fun failure => .string failure.message := by
  cases hr : r.failure <;> simp [json, Value.field?, hr]

/-- The report on an import, and how its project stands then, say what the report on a database
says. -/
structure Finished.Agrees (f : Finished) (status : Status) (r : DatabaseReport) : Prop where
  succeeded : f.succeeded = r.isValid
  failure : f.outcome.failure? = r.failure
  /-- What is written down as the reason is what is written down as the failure. -/
  reason : (Value.object f.fields).field? "reason" = r.json.field? "failure"
  fileCount : f.fileCount = r.files.length
  skippedEntries : f.skippedEntries = r.skipped.length
  lastImport : status.lastImport = some f
  statusFileCount : status.fileCount = r.files.length
  folderCount : status.folderCount = r.folderCount
  counts : ¬ r.isValid → f.fileCount = 0 ∧ f.skippedEntries = 0 ∧ status.folderCount = 0

namespace Completion

variable {c : Completion} {p : Project} {s : Snapshot} {failure : Failure}

theorem report_empty_of_ok (hr : c.result = .ok s) :
    c.report .empty = ⟨c.project, .merged true, s.files.size, s.skipped.length⟩ := by
  simp only [report, skippedEntries, hr]
  rfl

theorem report_empty_of_error (hr : c.result = .error failure) :
    c.report .empty = ⟨c.project, .failed failure, 0, 0⟩ := by
  simp only [report, skippedEntries, hr]
  rfl

theorem index_settle_of_ok (hp : p.index = .empty) (hr : c.result = .ok s) (f : Finished) :
    (p.settle c f).index = ⟨some s⟩ := by
  rw [Project.settle, hp, hr]
  rfl

theorem index_settle_of_error (hr : c.result = .error failure) (f : Finished) :
    (p.settle c f).index = p.index := by
  rw [Project.settle, hr]
  rfl

theorem agrees_first (hp : p.index = .empty) (a : ProjectId) (source : Path) :
    (c.report .empty).Agrees ((p.settle c (c.report .empty)).status a)
      (.ofImport source c.result) := by
  have hlast : ((p.settle c (c.report .empty)).status a).lastImport = some (c.report .empty) := rfl
  cases hr : c.result with
  | ok s =>
    have hfiles : (p.settle c (c.report .empty)).index.fileCount = s.files.keys.length := by
      rw [index_settle_of_ok hp hr, Std.TreeMap.length_keys]
      rfl
    have hfolders : (p.settle c (c.report .empty)).index.folderCount = s.folders.size := by
      rw [index_settle_of_ok hp hr]
      rfl
    rw [report_empty_of_ok hr] at hlast hfiles hfolders ⊢
    exact {
      succeeded := rfl
      failure := rfl
      reason := by rw [Finished.field?_reason, DatabaseReport.field?_failure]; rfl
      fileCount := Std.TreeMap.length_keys.symm
      skippedEntries := rfl
      lastImport := hlast
      statusFileCount := hfiles
      folderCount := hfolders
      counts := fun hinvalid => absurd rfl hinvalid }
  | error failure =>
    have hindex : (p.settle c (c.report .empty)).index = .empty :=
      (index_settle_of_error hr _).trans hp
    have hfiles : (p.settle c (c.report .empty)).index.fileCount = 0 := by rw [hindex]; rfl
    have hfolders : (p.settle c (c.report .empty)).index.folderCount = 0 := by rw [hindex]; rfl
    rw [report_empty_of_error hr] at hlast hfiles hfolders ⊢
    exact {
      succeeded := rfl
      failure := rfl
      reason := by rw [Finished.field?_reason, DatabaseReport.field?_failure]; rfl
      fileCount := rfl
      skippedEntries := rfl
      lastImport := hlast
      statusFileCount := hfiles
      folderCount := hfolders
      counts := fun _ => ⟨rfl, rfl, hfolders⟩ }

theorem isSome_file?_settle {source file : Path} (hp : p.index = .empty)
    (hfile : file ∈ (DatabaseReport.ofImport source c.result).files) (f : Finished) :
    ((p.settle c f).index.file? file).isSome := by
  cases hr : c.result with
  | error failure =>
    rw [hr] at hfile
    cases hfile
  | ok s =>
    rw [hr] at hfile
    rw [index_settle_of_ok hp hr]
    exact Std.TreeMap.isSome_getElem?_iff_mem.mpr (Std.TreeMap.mem_of_mem_keys hfile)

end Completion

/-! ## What stays known -/

theorem Index.isSome_file?_apply {i : Index} {file : Path} (h : (i.file? file).isSome)
    (result : Except Failure Snapshot) : ((i.apply result).2.file? file).isSome := by
  cases result with
  | error failure => exact h
  | ok s =>
    rw [file?_apply_ok]
    cases s.file? file with
    | none => exact h
    | some m => rfl

namespace Session

variable {τ : Type} {h : History τ} {s : Session} {a : ProjectId} {p : Project} {layout : Layout}
  {job : Job} {file : Path} {c : Completion}

/-- The project is attached and knows the file. -/
def Knows (s : Session) (a : ProjectId) (file : Path) : Prop :=
  ∃ p, s.project? a = some p ∧ (p.index.file? file).isSome

theorem isSome_effect_of_keeps {e : Event} (he : e.Keeps a) (g : Nat) (before : Option Project) :
    (e.effect a g before).isSome = before.isSome := by
  have hmap := Event.map_effect (f := fun _ => ()) (fun _ _ => rfl) he (fun _ _ _ _ => rfl) g before
  simpa using congrArg Option.isSome hmap

theorem Knows.step (trigger : Trigger τ) (hk : h.session.Knows a file) {m : Move τ}
    (hm : m.Keeps a) : (h.step trigger m).session.Knows a file := by
  cases m with
  | listener f => exact hk
  | event e =>
    obtain ⟨q, hq, hfile⟩ := hk
    have hnext := project?_next trigger h.session h.queue e a
    rw [hq] at hnext
    obtain ⟨p, hp⟩ := Option.isSome_iff_exists.mp
      ((isSome_effect_of_keeps hm (e.generation h.session a) (some q)).trans rfl)
    refine ⟨p, hnext.trans hp, ?_⟩
    rcases Event.effect_cases hp with
      ⟨layout, rfl, -⟩ | ⟨r, pending, hr, rfl⟩ | ⟨r, c, hr, rfl, -, -, rfl⟩
    · exact absurd rfl hm
    · obtain rfl := Option.some.inj hr
      exact hfile
    · obtain rfl := Option.some.inj hr
      exact Index.isSome_file?_apply hfile c.result

theorem Knows.steps (trigger : Trigger τ) (hk : h.session.Knows a file) {moves : List (Move τ)}
    (hm : ∀ m ∈ moves, m.Keeps a) :
    (moves.foldl (History.step trigger) h).session.Knows a file :=
  List.foldlRecOn (motive := fun h : History τ => h.session.Knows a file) moves _ hk
    fun _ hk m hmem => Knows.step trigger hk (hm m hmem)

theorem Knows.report (hk : s.Knows a file) (fs : FileSystem) :
    ∃ m, s.report fs a ⟨file, .file⟩ = .ok ⟨⟨file, .file⟩, true, m⟩ := by
  obtain ⟨p, hp, hfile⟩ := hk
  obtain ⟨m, hm⟩ := Option.isSome_iff_exists.mp hfile
  obtain ⟨snapshot, hsnapshot, hm⟩ := Option.bind_eq_some_iff.mp hm
  refine ⟨m, report_of_lookup (i := p.index) ?_ (Index.lookup_of_file hsnapshot hm fs)⟩
  rw [index?, hp, Option.map_some]

/-! ## The import that a new project awaits -/

/-- The project was attached with this layout and has taken in no import yet. It awaits the import of
a job that was started for it. -/
structure AwaitsFirst (h : History τ) (a : ProjectId) (layout : Layout) (job : Job) : Prop where
  started : job ∈ h.started
  project : job.project = a
  source : job.source = layout.commandsFile
  awaited : h.session.project? a = some ⟨layout, .empty, some job.generation, none⟩

theorem awaitsFirst_attach (trigger : Trigger τ) (hh : Accounted h) (a : ProjectId)
    (layout : Layout) :
    AwaitsFirst (h.step trigger (.event (.attach a layout))) a layout
      ⟨a, h.session.nextGeneration, layout.commandsFile⟩ where
  started := by
    have hnew : newJobs h.session (h.session.attach a layout) =
        jobsFrom (fun _ => layout.commandsFile) h.session.nextGeneration [a] :=
      hh.newJobs_eq (fun _ => id) (running_attach h.session a layout)
    rw [History.step_schedules trigger rfl, hnew]
    exact List.mem_append_right _ List.mem_cons_self
  project := rfl
  source := rfl
  awaited := (project?_attach h.session a a layout).trans (if_pos rfl)

/-- Of the projects whose imports are scheduled anew, one that awaited its first import awaits it
still, from another job. -/
theorem AwaitsFirst.reimports (hf : AwaitsFirst h a layout job) {ids : List ProjectId} {s' : Session}
    (hr : Reimports h ids s') :
    ∃ job, AwaitsFirst { h with session := s', started := h.started ++ newJobs h.session s' } a
      layout job := by
  by_cases hmem : a ∈ ids
  · obtain ⟨p, hp, new, hnew, hproject, hsource, hafter⟩ := hr.awaited a hmem
    obtain rfl := Option.some.inj (hf.awaited.symm.trans hp)
    exact ⟨new, List.mem_append_right _ hnew, hproject, hsource, hafter⟩
  · exact ⟨job, List.mem_append_left _ hf.started, hf.project, hf.source,
      (hr.others a hmem).1.trans hf.awaited⟩

theorem AwaitsFirst.step (trigger : Trigger τ) (hh : Accounted h)
    (hf : AwaitsFirst h a layout job) {m : Move τ} (hm : m.Spares a) :
    ∃ job, AwaitsFirst (h.step trigger m) a layout job := by
  cases m with
  | listener f => exact ⟨job, hf.started, hf.project, hf.source, hf.awaited⟩
  | event e =>
    -- What is neither scheduled for the project nor delivered to it passes it by.
    have hpasses (he : e.effect a (e.generation h.session a) (h.session.project? a) =
        h.session.project? a) : ∃ job, AwaitsFirst (h.step trigger (.event e)) a layout job :=
      ⟨job, List.mem_append_left _ hf.started, hf.project, hf.source,
        (project?_next trigger h.session h.queue e a).trans (he.trans hf.awaited)⟩
    cases e with
    | attach b layout => exact hpasses (if_neg hm)
    | detach b => exact hpasses (if_neg hm)
    | jobEnded job => exact hpasses rfl
    | completion c => exact hpasses (if_neg hm)
    | sourceChanged fs path =>
      rw [History.step_schedules trigger rfl]
      exact hf.reimports (reimports_all hh (affected_nodup h.session fs path.clean)
        fun _ => attached_of_affected)
    | reimport b =>
      by_cases hb : b = a
      · subst hb
        have hattached : ∀ d ∈ [b], (h.session.project? d).isSome := by simp [hf.awaited]
        rw [History.step_schedules trigger (by rw [next, reimport_getD])]
        exact hf.reimports (reimports_all hh (List.nodup_singleton b) hattached)
      · exact hpasses (if_neg hb)

theorem AwaitsFirst.steps (trigger : Trigger τ) (hh : Accounted h)
    (hf : AwaitsFirst h a layout job) {moves : List (Move τ)} (hm : ∀ m ∈ moves, m.Spares a) :
    ∃ job, AwaitsFirst (moves.foldl (History.step trigger) h) a layout job := by
  induction moves generalizing h job with
  | nil => exact ⟨job, hf⟩
  | cons m rest ih =>
    obtain ⟨hfirst, hrest⟩ := List.forall_mem_cons.mp hm
    obtain ⟨next, hnext⟩ := hf.step trigger hh hfirst
    exact ih (hh.step trigger m) hnext hrest

theorem awaitsFirst_after (trigger : Trigger τ) (queue : τ) (moves between : List (Move τ))
    (a : ProjectId) (layout : Layout) (hbetween : ∀ m ∈ between, m.Spares a) :
    ∃ job, AwaitsFirst
      (History.after trigger queue (moves ++ .event (.attach a layout) :: between)) a layout job := by
  have hh : Accounted (History.after trigger queue moves) := accounted_after trigger queue moves
  rw [History.after, List.foldl_append, List.foldl_cons]
  exact (awaitsFirst_attach trigger hh a layout).steps trigger (hh.step trigger _) hbetween

theorem AwaitsFirst.awaits_iff (hf : AwaitsFirst h a layout job) (hc : c.project = a) :
    h.session.Awaits c ↔ c.generation = job.generation := by
  subst hc
  constructor
  · rintro ⟨p, hp, hg⟩
    obtain rfl := Option.some.inj (hf.awaited.symm.trans hp)
    exact (Option.some.inj hg).symm
  · rintro hg
    exact ⟨_, hf.awaited, by rw [hg]⟩

/-- What the first import brings becomes the index of the project. -/
theorem AwaitsFirst.project?_step (trigger : Trigger τ) (hf : AwaitsFirst h a layout job)
    (hc : c.project = a) (hg : c.generation = job.generation) :
    ∃ p : Project, p.index = .empty ∧
      (h.session.handle trigger c h.queue).1 = some (c.report .empty) ∧
      (h.step trigger (.event (.completion c))).session.project? a =
        some (p.settle c (c.report .empty)) := by
  subst hc
  have hpending : (some job.generation : Option Nat) = some c.generation := by rw [hg]
  obtain ⟨t, ht⟩ := handle_of_awaits trigger h.queue hf.awaited hpending
  obtain ⟨_, hstep⟩ := History.step_accepts trigger hf.awaited hpending
  refine ⟨⟨layout, .empty, some job.generation, none⟩, rfl, by rw [ht], ?_⟩
  rw [hstep]
  exact (ProjectMap.getElem?_insert h.session.projects c.project c.project _).trans (if_pos rfl)

/-- A project is attached, and then nothing is delivered to it and it is not detached, whatever else
happens. Then it awaits the import of a job that was started for its database, and accepts this one
only. Whatever this job finds, the report on the import, and the status of the project after it, say
what a report on the database says that is made without the session. The files of this report are
known from then on, as long as the project is kept. -/
theorem first_import_agrees (trigger : Trigger τ) (queue : τ) (moves between : List (Move τ))
    (a : ProjectId) (layout : Layout) (hbetween : ∀ m ∈ between, m.Spares a) :
    let h := History.after trigger queue (moves ++ .event (.attach a layout) :: between)
    ∃ job ∈ h.started, job.project = a ∧ job.source = layout.commandsFile ∧
      (∀ c, c.project = a →
        ((h.session.handle trigger c h.queue).1.isSome ↔ c.generation = job.generation)) ∧
      ∀ env read,
        let c := job.run env read
        let direct := DatabaseReport.ofImport layout.commandsFile
          (Database.load env read layout.commandsFile)
        let after := h.step trigger (.event (.completion c))
        ∃ f status, (h.session.handle trigger c h.queue).1 = some f ∧
          after.session.status a = .ok status ∧ f.Agrees status direct ∧
          ∀ file ∈ direct.files, ∀ later : List (Move τ), (∀ m ∈ later, m.Keeps a) →
            ∀ fs, ∃ m, (later.foldl (History.step trigger) after).session.report fs a
              ⟨file, .file⟩ = .ok ⟨⟨file, .file⟩, true, m⟩ := by
  intro h
  obtain ⟨job, hf⟩ := awaitsFirst_after trigger queue moves between a layout hbetween
  refine ⟨job, hf.started, hf.project, hf.source, fun c hc => ?_, fun env read => ?_⟩
  · rw [isSome_handle_iff]
    exact hf.awaits_iff hc
  · intro c direct after
    obtain ⟨p, hempty, hreport, hafter⟩ := hf.project?_step trigger (c := c) hf.project rfl
    have hdirect : direct = .ofImport layout.commandsFile c.result := by
      simp only [direct, c, Job.run, hf.source]
    refine ⟨_, _, hreport, status_of_attached hafter, ?_, fun file hfile later hlater fs => ?_⟩
    · rw [hdirect]
      exact Completion.agrees_first hempty a _
    · rw [hdirect] at hfile
      have hknows : after.session.Knows a file :=
        ⟨_, hafter, Completion.isSome_file?_settle hempty hfile _⟩
      exact (hknows.steps trigger hlater).report fs

set_option maxRecDepth 4000 in
/-- The import of a project is scheduled anew before anything is delivered. The database lists a
number, which is skipped, and one file. -/
theorem first_import_agrees_superseded :
    let env : Shell.Environment := ⟨fun _ => none, "1"⟩
    let text := "[5,\x7b\"file\":\"a.c\",\"directory\":\"/w\",\"arguments\":[\"cc\"]\x7d]"
    let read : FileSystem :=
      { has := fun _ => true
        isFolder := fun _ => false
        read := fun _ => .octets (text.toList.map fun c => .ofNat c.toNat)
        canonical? := fun _ => none
        glob := fun _ => [] }
    let trigger : Trigger Unit := fun _ t => (.ok (), t)
    let a : ProjectId := ⟨"p0"⟩
    let layout : Layout := ⟨⟨"/w/src"⟩, ⟨"/w/db.json"⟩⟩
    let between : List (Move Unit) := [.event (.reimport a)]
    let h := History.after trigger () ([] ++ .event (.attach a layout) :: between)
    (∀ m ∈ between, m.Spares a) ∧ ∃ job ∈ h.started, job.generation = 1 ∧
      let after := h.step trigger (.event (.completion (job.run env read)))
      ∃ f status, (h.session.handle trigger (job.run env read) h.queue).1 = some f ∧
        after.session.status a = .ok status ∧ f.succeeded ∧ f.fileCount = 1 ∧
        f.skippedEntries = 1 ∧ status.folderCount = 2 ∧
        ∀ fs, ∃ m, after.session.report fs a ⟨⟨"/w/a.c"⟩, .file⟩ =
          .ok ⟨⟨⟨"/w/a.c"⟩, .file⟩, true, m⟩ := by
  intro env text read trigger a layout between h
  have hbetween : ∀ m ∈ between, m.Spares a := by
    simp [between, Move.Spares, Event.Spares]
  obtain ⟨job, hstarted, -, -, honly, hagrees⟩ :=
    first_import_agrees trigger () [] between a layout hbetween
  have hgeneration : 1 = job.generation :=
    (honly ⟨a, 1, .error .cancelled⟩ rfl).mp (by decide +kernel)
  obtain ⟨f, status, hreport, hstatus, hf, hknown⟩ := hagrees env read
  let direct := DatabaseReport.ofImport layout.commandsFile
    (Database.load env read layout.commandsFile)
  obtain ⟨hvalid, hfiles, hskipped, hfolders⟩ : direct.isValid ∧ direct.files = [⟨"/w/a.c"⟩] ∧
      direct.skipped.length = 1 ∧ direct.folderCount = 2 := by
    decide +kernel
  refine ⟨hbetween, job, hstarted, hgeneration.symm, f, status, hreport, hstatus,
    hf.succeeded.trans hvalid, ?_, hf.skippedEntries.trans hskipped,
    hf.folderCount.trans hfolders, fun fs => ?_⟩
  · rw [hf.fileCount, hfiles]
    rfl
  · have hfile : ⟨"/w/a.c"⟩ ∈ direct.files := by
      rw [hfiles]
      exact List.mem_cons_self
    have hnow := hknown ⟨"/w/a.c"⟩ hfile [] (List.forall_mem_nil _) fs
    rwa [List.foldl_nil] at hnow

end Session

end CompileIndex
