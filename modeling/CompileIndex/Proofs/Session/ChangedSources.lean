import CompileIndex.Proofs.Session.Indexes

/-!
# Databases that have changed

When a database has changed, the projects that read it are imported again, each once. In which order
they are gone through does not matter: it decides only which of the new generations each one gets.
-/
namespace CompileIndex.Session

variable {τ : Type} {h : History τ} {s : Session} {fs : FileSystem} {changed : Path} {p : Project}
  {a : ProjectId} {ids : List ProjectId} {listing : List (ProjectId × Project)}

/-- The database of a project is the one at `changed`: by its path, or by the place to which both
paths lead. -/
inductive ReadsFrom (fs : FileSystem) (changed : Path) (p : Project) : Prop
  | samePath (h : p.layout.commandsFile.same changed = true)
  | samePlace (there here : Path) (hthere : fs.canonical? changed = some there)
    (hhere : fs.canonical? p.layout.commandsFile = some here) (h : there.same here = true)

theorem reads_iff : reads fs changed p = true ↔ ReadsFrom fs changed p := by
  rw [reads, Bool.or_eq_true]
  constructor
  · rintro (h | h)
    · exact .samePath h
    · split at h
      · next there here hthere hhere => exact .samePlace there here hthere hhere h
      · cases h
  · rintro (h | ⟨there, here, hthere, hhere, h⟩)
    · exact .inl h
    · right
      rw [hthere, hhere]
      exact h

/-- The projects of a listing whose database is at a path, in the order of the listing. -/
def affectedIn (listing : List (ProjectId × Project)) (fs : FileSystem) (changed : Path) :
    List ProjectId :=
  (listing.filter fun (_, p) => reads fs changed p).map (·.1)

theorem affectedIn_perm (hl : listing.Perm s.projects.toList) (fs : FileSystem) (changed : Path) :
    (affectedIn listing fs changed).Perm (s.affected fs changed) :=
  (hl.filter _).map _

/-- From the history `h` to the session `s'` exactly the projects `ids` are imported again. -/
structure Reimports (h : History τ) (ids : List ProjectId) (s' : Session) : Prop where
  once : ids.Nodup
  started : (newJobs h.session s').map (·.project) = ids
  /-- The new generations are later than all that there ever were. -/
  fresh : (h.started ++ newJobs h.session s').Pairwise (·.generation < ·.generation)
  awaited : ∀ a ∈ ids, ∃ p, h.session.project? a = some p ∧ ∃ job ∈ newJobs h.session s',
    job.project = a ∧ job.source = p.layout.commandsFile ∧
      s'.project? a = some { p with pending := some job.generation }
  /-- The jobs that the projects awaited before run no more. -/
  calledOff : ∀ a ∈ ids, ∀ p, h.session.project? a = some p → ∀ job ∈ s'.running,
    job.project = a → p.pending ≠ some job.generation
  others : ∀ a ∉ ids, s'.project? a = h.session.project? a ∧
    s'.running.filter (·.project = a) = h.session.running.filter (·.project = a)
  indexes : ∀ a, s'.index? a = h.session.index? a

theorem map_project_jobsFrom (source : ProjectId → Path) (n : Nat) (ids : List ProjectId) :
    (jobsFrom source n ids).map (·.project) = ids := by
  induction ids generalizing n with
  | nil => rfl
  | cons a rest ih => rw [jobsFrom, List.map_cons, ih]

theorem Accounted.pending_before (hh : Accounted h) (hp : h.session.project? a = some p) {g : Nat}
    (hg : p.pending = some g) : g < h.session.nextGeneration := by
  obtain ⟨latest, hl, he⟩ := hh.awaits_latest a p hp
  rw [hg] at he
  split at he
  · cases he
  · obtain rfl := Option.some.inj he
    obtain ⟨job, hj, -, rfl⟩ := started_of_latest hl
    exact hh.started_before job hj

theorem reimports_all (hh : Accounted h) (hd : ids.Nodup)
    (ha : ∀ a ∈ ids, (h.session.project? a).isSome) :
    Reimports h ids (ids.foldl schedule h.session) := by
  have hschedules := schedules_all h.session hd ha
  have hrunning := running_schedule_all hd h.session ha
  have hproject := project?_schedule_all hd h.session ha
  have hnew : newJobs h.session (ids.foldl schedule h.session) =
      jobsFrom h.session.source h.session.nextGeneration ids :=
    hh.newJobs_eq (fun job hj => (List.mem_filter.mp hj).1) hrunning
  constructor
  case once => exact hd
  case started => rw [hnew, map_project_jobsFrom]
  case fresh => exact (hh.schedule hschedules).started_increasing
  case awaited =>
    intro a hmem
    obtain ⟨p, hp⟩ := Option.isSome_iff_exists.mp (ha a hmem)
    have hjobs := jobsFrom_of_project h.session.source h.session.nextGeneration hd a
    rw [if_pos hmem] at hjobs
    have hjob := (List.mem_filter.mp (hjobs ▸ List.mem_singleton_self _)).1
    refine ⟨p, hp, _, hnew ▸ hjob, rfl, ?_, ?_⟩
    · simp [source, hp]
    · rw [hproject, if_pos hmem, hp]
      rfl
  case calledOff =>
    intro a hmem p hp job hj hproj hpending
    subst hproj
    rw [hrunning] at hj
    rcases List.mem_append.mp hj with hj | hj
    · have hkept := (List.mem_filter.mp hj).2
      simp [Session.calledOff, hmem, hp, hpending] at hkept
    · have hge := (mem_jobsFrom hj).2.1
      have hlt := hh.pending_before hp hpending
      omega
  case others =>
    intro a hnot
    refine ⟨by rw [hproject, if_neg hnot], ?_⟩
    rw [hrunning, List.filter_append, jobsFrom_of_project _ _ hd, if_neg hnot, List.append_nil,
      List.filter_filter]
    refine List.filter_congr fun job _ => ?_
    by_cases hproj : job.project = a
    · subst hproj
      simp [calledOff_of_notMem hnot]
    · simp [hproj]
  case indexes =>
    intro a
    rw [index?, hproject]
    split
    · rw [Option.map_map]
      rfl
    · rfl

/-- Whatever has happened to a session: when the database at a path has changed, exactly those
attached projects are imported again that read it, and nothing else changes. The same holds when
the projects are gone through in any other order, and then the same projects are named. -/
theorem changed_source_reimported (trigger : Trigger τ) (queue : τ) (moves : List (Move τ))
    (fs : FileSystem) (path : Path) :
    let h := History.after trigger queue moves
    let s := h.session
    let named := affectedIn s.projects.toList fs path.clean
    s.sourceChanged fs path = (named, named.foldl schedule s) ∧
    ∀ listing, listing.Perm s.projects.toList →
      let ids := affectedIn listing fs path.clean
      ids.Perm named ∧
      (∀ a, a ∈ ids ↔ ∃ p, s.project? a = some p ∧ ReadsFrom fs path.clean p) ∧
      Reimports h ids (ids.foldl schedule s) := by
  intro h s named
  refine ⟨rfl, fun listing hlisting => ?_⟩
  intro ids
  have hperm : ids.Perm (s.affected fs path.clean) := affectedIn_perm hlisting fs path.clean
  have hnodup : ids.Nodup := hperm.nodup_iff.mpr (affected_nodup s fs path.clean)
  have hattached : ∀ a ∈ ids, (s.project? a).isSome := by
    intro a ha
    exact attached_of_affected (hperm.mem_iff.mp ha)
  refine ⟨hperm, fun a => ?_, reimports_all (accounted_after trigger queue moves) hnodup hattached⟩
  rw [hperm.mem_iff, mem_affected_iff, Option.any_eq_true]
  simp only [reads_iff]

end CompileIndex.Session
