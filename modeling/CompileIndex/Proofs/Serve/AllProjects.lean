import CompileIndex.Proofs.Serve.Books
import CompileIndex.Proofs.Session.ChangedSources
import CompileIndex.Proofs.Session.Statuses

/-!
# Commands about all projects

A command without a path is about all attached projects. It goes through their handles, and what it
does to one project leaves the others attached, so none of its steps is refused. Only a question
about the served project can be.
-/
namespace CompileIndex.Session

variable {τ : Type} {h : History τ} {s s' : Session} {fs : FileSystem} {served a : ProjectId}
  {root : Path} {ids : List ProjectId} {status : Status}

/-- All attached projects, each once, in some order. -/
structure Listing (s : Session) (ids : List ProjectId) : Prop where
  once : ids.Nodup
  mem_iff : ∀ a, a ∈ ids ↔ (s.project? a).isSome

theorem listing_projectIds (s : Session) : s.Listing s.projectIds where
  once := Std.TreeMap.nodup_keys
  mem_iff := by
    intro a
    rw [projectIds, Std.TreeMap.mem_keys, Std.TreeMap.mem_iff_isSome_getElem?]
    exact Iff.rfl

theorem project_of_status (h : s.status a = .ok status) : status.project = a := by
  cases hp : s.project? a with
  | none =>
    simp only [Session.status, attached, hp] at h
    cases h
  | some p =>
    rw [status_of_attached hp] at h
    exact congrArg Status.project (Except.ok.inj h).symm

/-- The statuses are those of the projects `ids`, in this order. -/
def Tells (s : Session) (ids : List ProjectId) (statuses : List Status) : Prop :=
  List.Forall₂ (fun a status => s.status a = .ok status) ids statuses

theorem tells_all (ha : ∀ a ∈ ids, (s.project? a).isSome) :
    ∃ statuses, ids.mapM s.status = .ok statuses ∧ s.Tells ids statuses := by
  induction ids with
  | nil => exact ⟨[], rfl, .nil⟩
  | cons a rest ih =>
    obtain ⟨p, hp⟩ := Option.isSome_iff_exists.mp (ha a List.mem_cons_self)
    obtain ⟨statuses, hrest, htells⟩ := ih fun b hb => ha b (List.mem_cons_of_mem a hb)
    have hfirst := status_of_attached hp
    refine ⟨p.status a :: statuses, ?_, .cons hfirst htells⟩
    simp only [List.mapM_cons, hfirst, hrest, bind, Except.bind, pure, Except.pure]

theorem Tells.map_project {statuses : List Status} (h : s.Tells ids statuses) :
    statuses.map (·.project) = ids := by
  induction h with
  | nil => rfl
  | cons hfirst _ ih => rw [List.map_cons, project_of_status hfirst, ih]

theorem Tells.own {statuses : List Status} (h : s.Tells ids statuses) :
    ∀ status ∈ statuses, s.status status.project = .ok status := by
  induction h with
  | nil => exact fun _ hm => nomatch hm
  | cons hfirst _ ih =>
    refine List.forall_mem_cons.mpr ⟨?_, ih⟩
    rw [project_of_status hfirst]
    exact hfirst

/-- From the history `h` to the session `s'` the import of every attached project is scheduled anew,
later than all that were scheduled before, and nothing else of it changes. -/
def Restarted (h : History τ) (s' : Session) : Prop :=
  ∀ a p, h.session.project? a = some p → ∃ g, s'.project? a = some { p with pending := some g } ∧
    ∀ job ∈ h.started, job.generation < g

theorem Reimports.restarted (hr : Reimports h ids s') (hids : h.session.Listing ids) :
    Restarted h s' := by
  intro a p hp
  have hmem : a ∈ ids := (hids.mem_iff a).mpr (by simp [hp])
  obtain ⟨q, hq, job, hjob, -, -, hafter⟩ := hr.awaited a hmem
  obtain rfl := Option.some.inj (hp.symm.trans hq)
  refine ⟨job.generation, hafter, fun old hold => ?_⟩
  exact (List.pairwise_append.mp hr.fresh).2.2 old hold job hjob

/-- The reply to a command is an error. -/
def Refuses (s : Session) (fs : FileSystem) (served : ProjectId) (root : Path)
    (command : Command) : Prop :=
  ∃ cause, (s.execute fs served root command).map (Service.reply ·.1) = some (.refused cause)

theorem refuses_query_iff (path : Path) :
    s.Refuses fs served root (.query path) ↔ s.project? served = none := by
  cases hp : s.project? served <;>
    simp [Refuses, execute, report, hasMetadata, attached, hp, bind, Except.bind, pure,
      Except.pure, Except.map, resolve, Service.reply]

theorem refuses_field_iff (f : MetadataField) (path : Path) :
    s.Refuses fs served root (.field f path) ↔ s.project? served = none := by
  cases hp : s.project? served <;>
    simp [Refuses, execute, field, attached, hp, bind, Except.bind, pure,
      Except.pure, Except.map, resolve, Service.reply]

/-- Whatever has happened to a session, a command about all projects is not refused. It lists every
attached project once and no other. The statuses are those of the projects, and asking for them
changes nothing; after word that all databases have changed, every attached project awaits a new
import, later than all before, and still has its index and its last report. A question about the
served project is refused exactly when this is not attached. -/
theorem all_projects_answered (trigger : Trigger τ) (queue : τ) (moves : List (Move τ))
    (fs : FileSystem) (served : ProjectId) (root : Path) :
    let h := History.after trigger queue moves
    let s := h.session
    (∃ statuses, s.execute fs served root .status = some (.ok (.status statuses), s) ∧
      s.Listing (statuses.map (·.project)) ∧
      ∀ status ∈ statuses, s.status status.project = .ok status) ∧
    (∃ ids s', s.execute fs served root (.changed none) = some (.ok (.rescheduled ids), s') ∧
      s.Listing ids ∧ Reimports h ids s' ∧ Restarted h s') ∧
    (∀ path, s.Refuses fs served root (.query path) ↔ s.project? served = none) ∧
    ∀ f path, s.Refuses fs served root (.field f path) ↔ s.project? served = none := by
  intro h s
  have hlisting : s.Listing s.projectIds := listing_projectIds s
  have hattached : ∀ a ∈ s.projectIds, (s.project? a).isSome := fun a => (hlisting.mem_iff a).mp
  refine ⟨?_, ?_, refuses_query_iff, refuses_field_iff⟩
  · obtain ⟨statuses, hstatuses, htells⟩ := tells_all hattached
    refine ⟨statuses, ?_, ?_, htells.own⟩
    · rw [execute, Session.statuses, hstatuses]
      rfl
    · rw [htells.map_project]
      exact hlisting
  · have hreimports : Reimports h s.projectIds (s.projectIds.foldl schedule s) :=
      reimports_all (accounted_after trigger queue moves) hlisting.once hattached
    refine ⟨s.projectIds, _, ?_, hlisting, hreimports, hreimports.restarted hlisting⟩
    simp only [execute, reimportAll_eq]

end CompileIndex.Session
