import CompileIndex.Session.Query
import Mathlib.Data.List.Basic

/-!
# What scheduling does to a session

Imports of several projects are scheduled one after another. Each takes the next generation, starts
one job and calls off the job that its project awaited before; nothing else changes.
-/
namespace CompileIndex

theorem ProjectMap.getElem?_insert {α : Type} (t : ProjectMap α) (a b : ProjectId) (v : α) :
    (t.insert a v)[b]? = if a = b then some v else t[b]? := by
  rw [Std.TreeMap.getElem?_insert]
  simp only [Std.LawfulEqOrd.compare_eq_iff_eq]

theorem ProjectMap.getElem?_erase {α : Type} (t : ProjectMap α) (a b : ProjectId) :
    (t.erase a)[b]? = if a = b then none else t[b]? := by
  rw [Std.TreeMap.getElem?_erase]
  simp only [Std.LawfulEqOrd.compare_eq_iff_eq]

namespace Session

variable {s : Session} {a b : ProjectId} {p : Project}

theorem schedule_of_detached (h : s.project? a = none) : s.schedule a = s := by
  simp only [schedule, h]

theorem nextGeneration_schedule (h : s.project? a = some p) :
    (s.schedule a).nextGeneration = s.nextGeneration + 1 := by
  simp only [schedule, h]

theorem running_schedule (h : s.project? a = some p) :
    (s.schedule a).running =
      s.callOff a p ++ [⟨a, s.nextGeneration, p.layout.commandsFile⟩] := by
  simp only [schedule, h]

theorem project?_schedule (s : Session) (a b : ProjectId) :
    (s.schedule a).project? b =
      if a = b then (s.project? b).map ({ · with pending := some s.nextGeneration })
      else s.project? b := by
  cases h : s.project? a with
  | none =>
    rw [schedule_of_detached h]
    split
    · next hab => subst hab; simp [h]
    · rfl
  | some p =>
    simp only [schedule, h]
    change (s.projects.insert a _)[b]? = _
    rw [ProjectMap.getElem?_insert]
    split
    · next hab => subst hab; simp [h]
    · rfl

def source (s : Session) (a : ProjectId) : Path :=
  ((s.project? a).map (·.layout.commandsFile)).getD default

theorem source_schedule (s : Session) (a b : ProjectId) :
    (s.schedule a).source b = s.source b := by
  simp only [source, project?_schedule]
  split
  · simp [Function.comp_def]
  · rfl

/-- One job for each of the projects, with generations counted from `n` on. -/
def jobsFrom (source : ProjectId → Path) (n : Nat) : List ProjectId → List Job
  | [] => []
  | a :: rest => ⟨a, n, source a⟩ :: jobsFrom source (n + 1) rest

theorem mem_jobsFrom {source : ProjectId → Path} {n : Nat} {ids : List ProjectId} {job : Job}
    (h : job ∈ jobsFrom source n ids) :
    job.project ∈ ids ∧ n ≤ job.generation ∧ job.generation < n + ids.length := by
  induction ids generalizing n with
  | nil => simp [jobsFrom] at h
  | cons a rest ih =>
    rcases List.mem_cons.mp h with rfl | h
    · simp
    · obtain ⟨hp, hn, hl⟩ := ih h
      simp only [List.length_cons]
      exact ⟨List.mem_cons_of_mem _ hp, by omega, by omega⟩

theorem jobsFrom_increasing (source : ProjectId → Path) (n : Nat) (ids : List ProjectId) :
    (jobsFrom source n ids).Pairwise (·.generation < ·.generation) := by
  induction ids generalizing n with
  | nil => exact .nil
  | cons a rest ih =>
    refine .cons (fun job hj => ?_) (ih (n + 1))
    obtain ⟨_, hn, _⟩ := mem_jobsFrom hj
    exact hn

theorem jobsFrom_of_project (source : ProjectId → Path) (n : Nat) {ids : List ProjectId}
    (hd : ids.Nodup) (a : ProjectId) :
    (jobsFrom source n ids).filter (·.project = a) =
      if a ∈ ids then [⟨a, n + ids.idxOf a, source a⟩] else [] := by
  induction ids generalizing n with
  | nil => rfl
  | cons b rest ih =>
    obtain ⟨hb, hd⟩ := List.nodup_cons.mp hd
    by_cases hab : b = a
    · subst hab
      simp [jobsFrom, ih (n + 1) hd, hb]
    · have hba : a ≠ b := Ne.symm hab
      simp only [jobsFrom, List.filter_cons, hab, decide_false, ih (n + 1) hd, List.mem_cons, hba,
        false_or, List.idxOf_cons_ne _ hab, Bool.false_eq_true, if_false]
      rw [show n + 1 + rest.idxOf a = n + (rest.idxOf a + 1) by omega]

/-- A running job that is called off when the projects `ids` are imported again. -/
def calledOff (s : Session) (ids : List ProjectId) (job : Job) : Bool :=
  ids.contains job.project && (s.project? job.project).any (·.pending == some job.generation)

theorem attached_schedule (s : Session) (a b : ProjectId) :
    ((s.schedule a).project? b).isSome = (s.project? b).isSome := by
  rw [project?_schedule]
  split <;> simp

theorem project?_schedule_all {ids : List ProjectId} (hd : ids.Nodup) (s : Session)
    (ha : ∀ a ∈ ids, (s.project? a).isSome) (b : ProjectId) :
    (ids.foldl schedule s).project? b =
      if b ∈ ids then
        (s.project? b).map ({ · with pending := some (s.nextGeneration + ids.idxOf b) })
      else s.project? b := by
  induction ids generalizing s with
  | nil => rfl
  | cons a rest ih =>
    obtain ⟨hr, hd⟩ := List.nodup_cons.mp hd
    obtain ⟨p, hp⟩ := Option.isSome_iff_exists.mp (ha a (by simp))
    have hrest : ∀ b ∈ rest, ((s.schedule a).project? b).isSome := fun b hb =>
      (attached_schedule s a b).trans (ha b (List.mem_cons_of_mem _ hb))
    rw [List.foldl_cons, ih hd _ hrest, project?_schedule, nextGeneration_schedule hp]
    by_cases hab : a = b
    · subst hab
      simp [hr]
    · have hba : b ≠ a := Ne.symm hab
      simp only [hab, if_false, List.mem_cons, hba, false_or, List.idxOf_cons_ne _ hab]
      rw [show s.nextGeneration + 1 + rest.idxOf b = s.nextGeneration + (rest.idxOf b + 1) by omega]

theorem nextGeneration_schedule_all {ids : List ProjectId} (s : Session)
    (ha : ∀ a ∈ ids, (s.project? a).isSome) :
    (ids.foldl schedule s).nextGeneration = s.nextGeneration + ids.length := by
  induction ids generalizing s with
  | nil => rfl
  | cons a rest ih =>
    obtain ⟨p, hp⟩ := Option.isSome_iff_exists.mp (ha a (by simp))
    have hrest : ∀ b ∈ rest, ((s.schedule a).project? b).isSome := fun b hb =>
      (attached_schedule s a b).trans (ha b (List.mem_cons_of_mem _ hb))
    rw [List.foldl_cons, ih _ hrest, nextGeneration_schedule hp, List.length_cons]
    omega

theorem calledOff_of_notMem {ids : List ProjectId} {job : Job} (h : job.project ∉ ids) :
    s.calledOff ids job = false := by
  simp [calledOff, h]

theorem calledOff_cons (s : Session) {ids : List ProjectId} (h : a ∉ ids) (job : Job) :
    s.calledOff (a :: ids) job =
      (s.calledOff [a] job || (s.schedule a).calledOff ids job) := by
  by_cases ha : job.project = a
  · subst ha
    simp [calledOff, h]
  · have haj : a ≠ job.project := Ne.symm ha
    simp [calledOff, project?_schedule, ha, haj]

theorem callOff_eq_filter (h : s.project? a = some p) :
    s.callOff a p = s.running.filter (!s.calledOff [a] ·) := by
  refine List.filter_congr fun job _ => ?_
  by_cases ha : job.project = a
  · subst ha
    simp [calledOff, h, eq_comm, Bool.beq_eq_decide_eq]
  · simp [calledOff, ha]

theorem running_schedule_all {ids : List ProjectId} (hd : ids.Nodup) (s : Session)
    (ha : ∀ a ∈ ids, (s.project? a).isSome) :
    (ids.foldl schedule s).running =
      s.running.filter (!s.calledOff ids ·) ++ jobsFrom s.source s.nextGeneration ids := by
  induction ids generalizing s with
  | nil => simp [calledOff, jobsFrom, List.filter_true]
  | cons a rest ih =>
    obtain ⟨hr, hd⟩ := List.nodup_cons.mp hd
    obtain ⟨p, hp⟩ := Option.isSome_iff_exists.mp (ha a (by simp))
    have hrest : ∀ b ∈ rest, ((s.schedule a).project? b).isSome := fun b hb =>
      (attached_schedule s a b).trans (ha b (List.mem_cons_of_mem _ hb))
    have hsource : (s.schedule a).source = s.source := funext (source_schedule s a)
    have hsa : s.source a = p.layout.commandsFile := by simp [source, hp]
    have hkept : (s.schedule a).calledOff rest ⟨a, s.nextGeneration, s.source a⟩ = false :=
      calledOff_of_notMem hr
    rw [List.foldl_cons, ih hd _ hrest, running_schedule hp, nextGeneration_schedule hp, hsource,
      callOff_eq_filter hp, List.filter_append, List.filter_filter, jobsFrom, ← hsa]
    simp only [List.filter_cons, hkept, Bool.not_false, if_true, List.filter_nil,
      List.append_assoc, List.singleton_append]
    congr 1
    refine List.filter_congr fun job _ => ?_
    rw [calledOff_cons s hr, Bool.not_or, Bool.and_comm]

end Session

end CompileIndex
