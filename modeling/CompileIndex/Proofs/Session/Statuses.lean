import CompileIndex.Proofs.Index.Fallback
import CompileIndex.Proofs.Session.Effects
import CompileIndex.Proofs.Snapshot.Folders

/-!
# How projects stand

The report on the last import is a copy, taken when the import was accepted, of counts that the
index goes on to have. Nothing that happens to a project afterwards comes between the two.
-/
namespace CompileIndex

namespace Index

def files (i : Index) : List Path := (i.snapshot.map (·.files.keys)).getD []

theorem fileCount_eq_length (i : Index) : i.fileCount = i.files.length := by
  cases hs : i.snapshot with
  | none => simp [fileCount, files, hs]
  | some s => simp [fileCount, files, hs, Std.TreeMap.length_keys]

theorem folderCount_of_consistent {i : Index} (hi : ∀ s, i.snapshot = some s → s.Consistent) :
    i.folderCount = (Snapshot.distinctAbove i.files).length := by
  cases hs : i.snapshot with
  | none => simp [folderCount, files, hs, Snapshot.distinctAbove]
  | some s =>
    have hfolders : s.folders = Snapshot.representatives s.files.keys := hi s hs
    simp [folderCount, files, hs, hfolders, Snapshot.size_representatives]

theorem result_apply_ok (i : Index) (s : Snapshot) :
    ∃ changed, (i.apply (.ok s)).1 = .ok changed := by
  cases hs : i.snapshot with
  | none => exact ⟨true, by simp only [apply, hs]⟩
  | some known => exact ⟨(known.merge s).2, by simp only [apply, hs]⟩

end Index

/-- What a completion brings is the result of an import. -/
def Completion.Genuine (c : Completion) : Prop := ∃ o : Origin, c.result = o.result

theorem Completion.genuine_run (env : Shell.Environment) (fs : FileSystem) (job : Job) :
    (job.run env fs).Genuine :=
  ⟨.imported (fun _ => false) env fs job.source, rfl⟩

theorem Completion.report_cases (c : Completion) (i : Index) :
    (∃ s known changed, c.result = .ok s ∧ (c.report i).outcome = .merged changed ∧
      (i.apply c.result).2.snapshot = some known ∧ known.skipped.length = c.skippedEntries) ∨
    ∃ failure, c.result = .error failure ∧ (c.report i).outcome = .failed failure ∧
      c.skippedEntries = 0 := by
  cases hr : c.result with
  | error failure =>
    exact .inr ⟨failure, rfl, by simp only [report, hr, Index.apply],
      by simp only [skippedEntries, hr]⟩
  | ok s =>
    obtain ⟨known, hknown, hskipped⟩ := Index.snapshot_apply_ok i s
    obtain ⟨changed, hchanged⟩ := Index.result_apply_ok i s
    exact .inl ⟨s, known, changed, rfl, by simp only [report, hr, hchanged], hknown,
      by simp only [skippedEntries, hr, hskipped]⟩

/-- What a project keeps of its last import agrees with its index. -/
structure Project.Coherent (p : Project) : Prop where
  consistent : ∀ s, p.index.snapshot = some s → s.Consistent
  untouched : p.lastImport = none → p.index.snapshot = none
  counted : ∀ f, p.lastImport = some f → f.fileCount = p.index.fileCount
  merged : ∀ f changed, p.lastImport = some f → f.outcome = .merged changed →
    ∃ s, p.index.snapshot = some s ∧ s.skipped.length = f.skippedEntries
  failed : ∀ f reason, p.lastImport = some f → f.outcome = .failed reason → f.skippedEntries = 0

namespace Project

variable {p : Project} {c : Completion}

theorem coherent_attached (layout : Layout) (g : Nat) :
    Coherent ⟨layout, .empty, some g, none⟩ where
  consistent := fun _ h => nomatch h
  untouched := fun _ => rfl
  counted := fun _ h => nomatch h
  merged := fun _ _ h => nomatch h
  failed := fun _ _ h => nomatch h

theorem Coherent.awaiting (h : p.Coherent) (pending : Option Nat) :
    Coherent { p with pending } :=
  ⟨h.consistent, h.untouched, h.counted, h.merged, h.failed⟩

theorem Coherent.settle (h : p.Coherent) (hc : c.Genuine) :
    (p.settle c (c.report p.index)).Coherent where
  consistent := by
    intro s hs
    obtain ⟨o, ho⟩ := hc
    rw [Project.settle, ho] at hs
    exact Index.consistent_apply h.consistent o hs
  untouched := fun hnone => nomatch hnone
  counted := by
    rintro _ ⟨⟩
    rfl
  merged := by
    rintro _ changed ⟨⟩ hmerged
    rcases c.report_cases p.index with ⟨s, known, _, _, _, hknown, hskipped⟩ | ⟨_, _, hfailed, _⟩
    · exact ⟨known, hknown, hskipped⟩
    · rw [hfailed] at hmerged
      cases hmerged
  failed := by
    rintro _ reason ⟨⟩ hfailed
    rcases c.report_cases p.index with ⟨_, _, _, _, hmerged, _, _⟩ | ⟨_, _, _, hnone⟩
    · rw [hmerged] at hfailed
      cases hfailed
    · exact hnone

end Project

namespace Session

variable {τ : Type} {h : History τ}

/-- Only what imports result in is ever delivered. -/
def Move.Genuine : Move τ → Prop
  | .event (.completion c) => c.Genuine
  | .event _ | .listener _ => True

def Coherent (s : Session) : Prop := ∀ a p, s.project? a = some p → p.Coherent

theorem Coherent.step (trigger : Trigger τ) (hh : h.session.Coherent) {m : Move τ}
    (hm : m.Genuine) : (h.step trigger m).session.Coherent := by
  cases m with
  | listener f => exact hh
  | event e =>
    intro a p hp
    have heffect := (project?_next trigger h.session h.queue e a).symm.trans hp
    rcases Event.effect_cases heffect with
      ⟨layout, rfl, rfl⟩ | ⟨q, pending, hq, rfl⟩ | ⟨q, c, hq, rfl, _, _, rfl⟩
    · exact Project.coherent_attached layout _
    · exact (hh a q hq).awaiting pending
    · exact (hh a q hq).settle hm

theorem coherent_after (trigger : Trigger τ) (queue : τ) (moves : List (Move τ))
    (hmoves : ∀ m ∈ moves, m.Genuine) : (History.after trigger queue moves).session.Coherent := by
  have hstart : (History.start queue).session.Coherent := by
    intro a p hp
    simp [History.start, empty, project?] at hp
  exact List.foldlRecOn (motive := fun h : History τ => h.session.Coherent) moves _ hstart
    fun h hh m hm => Coherent.step trigger hh (hmoves m hm)

theorem status_of_attached {s : Session} {a : ProjectId} {p : Project}
    (hp : s.project? a = some p) : s.status a = .ok (p.status a) := by
  simp only [status, attached, hp]
  rfl

/-- Whatever has happened to a session, the status of an attached project fits its index. Without a
report on an import nothing is known and nothing is counted. With a report, the files that it counts
are those that are known; if the import was merged, as many entries are skipped as it says, and if
it failed, it speaks of none. The folders that are counted are those above the files. -/
theorem status_fits_index (trigger : Trigger τ) (queue : τ) (moves : List (Move τ))
    (hmoves : ∀ m ∈ moves, m.Genuine) :
    let s := (History.after trigger queue moves).session
    ∀ a p, s.project? a = some p → ∃ status, s.status a = .ok status ∧
      status.lastImport = p.lastImport ∧
      (status.lastImport = none →
        p.index.snapshot = none ∧ status.fileCount = 0 ∧ status.folderCount = 0) ∧
      (∀ f, status.lastImport = some f → f.fileCount = status.fileCount ∧
        (∀ changed, f.outcome = .merged changed →
          ∃ known, p.index.snapshot = some known ∧ known.skipped.length = f.skippedEntries) ∧
        ∀ reason, f.outcome = .failed reason → f.skippedEntries = 0) ∧
      status.fileCount = p.index.files.length ∧
      status.folderCount = (Snapshot.distinctAbove p.index.files).length := by
  intro s a p hp
  have hcoherent : p.Coherent := coherent_after trigger queue moves hmoves a p hp
  refine ⟨p.status a, status_of_attached hp, rfl, fun hnone => ?_, fun f hf => ?_,
    Index.fileCount_eq_length p.index, Index.folderCount_of_consistent hcoherent.consistent⟩
  · have hsnapshot := hcoherent.untouched hnone
    exact ⟨hsnapshot, by simp [Project.status, Index.fileCount, hsnapshot],
      by simp [Project.status, Index.folderCount, hsnapshot]⟩
  · exact ⟨hcoherent.counted f hf, fun changed => hcoherent.merged f changed hf,
      fun reason => hcoherent.failed f reason hf⟩

/-- The first import is merged and leaves an entry out; the second fails, and a third is awaited. -/
theorem status_fits_index_failed :
    let a : ProjectId := ⟨"p0"⟩
    let files : PathMap Metadata := PathMap.put ∅ ⟨"/w/src/a.c"⟩ .empty
    let moves : List (Move Unit) := [.event (.attach a ⟨⟨"/w"⟩, ⟨"/w/db.json"⟩⟩),
      .event (.completion ⟨a, 0, .ok (.ofFiles files [⟨1, none, .notAnObject⟩])⟩),
      .event (.reimport a), .event (.completion ⟨a, 1, .error .cancelled⟩), .event (.reimport a)]
    let s := (History.after (fun _ t => (.ok (), t)) () moves).session
    (∀ m ∈ moves, m.Genuine) ∧ ∃ status, s.status a = .ok status ∧
      status.lastImport = some ⟨a, .failed .cancelled, 1, 0⟩ ∧ status.fileCount = 1 ∧
      status.folderCount = 3 := by
  intro a files moves s
  have hmoves : ∀ m ∈ moves, m.Genuine := by
    simp only [moves, List.forall_mem_cons, List.not_mem_nil, false_implies, implies_true, and_true]
    exact ⟨trivial, ⟨.listed files _, rfl⟩, trivial, ⟨.refused .cancelled, rfl⟩, trivial⟩
  have hlast : (s.project? a).map (·.lastImport) = some (some ⟨a, .failed .cancelled, 1, 0⟩) := by
    decide +kernel
  have hfiles : (s.project? a).map (·.index.files) = some [⟨"/w/src/a.c"⟩] := by decide +kernel
  obtain ⟨p, hp, hplast⟩ := Option.map_eq_some_iff.mp hlast
  rw [hp, Option.map_some, Option.some.injEq] at hfiles
  obtain ⟨status, hstatus, hcopied, _, _, hcount, hfolders⟩ :=
    status_fits_index (fun _ t => (.ok (), t)) () moves hmoves a p hp
  rw [hfiles] at hcount hfolders
  exact ⟨hmoves, status, hstatus, hcopied.trans hplast, hcount, hfolders⟩

end Session

end CompileIndex
