import CompileIndex.Proofs.Session.Run
import CompileIndex.Serve.Service

/-!
# What commands depend on

A command reads and changes the projects and the count of generations. The jobs in flight come and
go beside it: no answer and no schedule depends on them.
-/
namespace CompileIndex.Session

variable {s s' : Session} {fs : FileSystem} {root : Path} {a : ProjectId}

/-- The sessions differ in the jobs in flight at most. -/
structure SameBooks (s s' : Session) : Prop where
  projects : s.projects = s'.projects
  nextGeneration : s.nextGeneration = s'.nextGeneration

theorem SameBooks.refl (s : Session) : SameBooks s s := ⟨rfl, rfl⟩

theorem SameBooks.trans {s'' : Session} (h : SameBooks s s') (h' : SameBooks s' s'') :
    SameBooks s s'' :=
  ⟨h.projects.trans h'.projects, h.nextGeneration.trans h'.nextGeneration⟩

theorem SameBooks.project? (h : SameBooks s s') (a : ProjectId) :
    s.project? a = s'.project? a := by
  simp only [Session.project?, h.projects]

theorem SameBooks.projectIds (h : SameBooks s s') : s.projectIds = s'.projectIds := by
  simp only [Session.projectIds, h.projects]

theorem SameBooks.attached (h : SameBooks s s') : s.attached = s'.attached := by
  funext a
  simp only [Session.attached, h.project?]

theorem SameBooks.schedule (h : SameBooks s s') (a : ProjectId) :
    SameBooks (s.schedule a) (s'.schedule a) := by
  simp only [Session.schedule, h.project? a]
  cases s'.project? a with
  | none => exact h
  | some p => exact ⟨by rw [h.projects, h.nextGeneration], by rw [h.nextGeneration]⟩

theorem SameBooks.schedule_all (h : SameBooks s s') (ids : List ProjectId) :
    SameBooks (ids.foldl Session.schedule s) (ids.foldl Session.schedule s') := by
  induction ids generalizing s s' with
  | nil => exact h
  | cons a rest ih => exact ih (h.schedule a)

theorem SameBooks.affected (h : SameBooks s s') (path : Path) :
    s.affected fs path = s'.affected fs path := by
  simp only [Session.affected, h.projects]

theorem SameBooks.accept (h : SameBooks s s') (c : Completion) :
    (s.accept c).1 = (s'.accept c).1 ∧ SameBooks (s.accept c).2 (s'.accept c).2 := by
  simp only [Session.accept, h.project? c.project]
  cases s'.project? c.project with
  | none => exact ⟨rfl, h⟩
  | some p =>
    dsimp only
    split
    · exact ⟨rfl, by rw [h.projects], h.nextGeneration⟩
    · exact ⟨rfl, h⟩

/-- All that are to be imported again are attached, so none is refused. -/
theorem reimport_all {ids : List ProjectId} (s : Session)
    (ha : ∀ a ∈ ids, (s.project? a).isSome) :
    ids.foldlM reimport s = .ok (ids.foldl schedule s) := by
  induction ids generalizing s with
  | nil => rfl
  | cons a rest ih =>
    obtain ⟨p, hp⟩ := Option.isSome_iff_exists.mp (ha a List.mem_cons_self)
    have hfirst : s.reimport a = .ok (s.schedule a) := by
      simp only [reimport, attached, hp, bind, Except.bind, pure, Except.pure]
    rw [List.foldlM_cons, hfirst]
    refine ih (s.schedule a) fun b hb => ?_
    rw [attached_schedule]
    exact ha b (List.mem_cons_of_mem a hb)

theorem attached_of_mem_projectIds (h : a ∈ s.projectIds) : (s.project? a).isSome := by
  rw [projectIds, Std.TreeMap.mem_keys] at h
  exact Std.TreeMap.isSome_getElem?_iff_mem.mpr h

theorem reimportAll_eq (s : Session) : s.reimportAll = .ok (s.projectIds.foldl schedule s) :=
  reimport_all s fun _ => attached_of_mem_projectIds

def afterCommand (fs : FileSystem) (project : ProjectId) (root : Path) (s : Session)
    (command : Command) : Session :=
  ((s.execute fs project root command).map (·.2)).getD s

theorem SameBooks.execute (h : SameBooks s s') (fs : FileSystem) (a : ProjectId) (root : Path)
    (command : Command) :
    (s.execute fs a root command).map (·.1) = (s'.execute fs a root command).map (·.1) ∧
      SameBooks (s.afterCommand fs a root command) (s'.afterCommand fs a root command) := by
  cases command with
  | query path =>
    refine ⟨?_, h⟩
    simp only [Session.execute, report, hasMetadata, resolve, h.attached, Option.map_some]
  | field f path =>
    refine ⟨?_, h⟩
    simp only [Session.execute, field, resolve, h.attached, Option.map_some]
  | changed path =>
    cases path with
    | some path =>
      simp only [afterCommand, Session.execute, sourceChanged, h.affected, Option.map_some]
      exact ⟨trivial, h.schedule_all _⟩
    | none =>
      simp only [afterCommand, Session.execute, reimportAll_eq, h.projectIds, Option.map_some]
      exact ⟨trivial, h.schedule_all _⟩
  | status =>
    refine ⟨?_, h⟩
    have hstatus : s.status = s'.status := by
      funext a
      simp only [Session.status, h.attached]
    simp only [Session.execute, statuses, hstatus, h.projectIds, Option.map_some]
  | quit => exact ⟨rfl, h⟩

end CompileIndex.Session
