import CompileIndex.Proofs.Session.Settlement

/-!
# Tickets of imports

An import is known by its project and its generation, its ticket. A session expects at most one
ticket for each project, and the host can only replace the tickets that are expected by new ones.
-/
namespace CompileIndex

abbrev Ticket := ProjectId × Nat

def Job.ticket (job : Job) : Ticket := (job.project, job.generation)

def Completion.ticket (c : Completion) : Ticket := (c.project, c.generation)

namespace Session

variable {s s' : Session} {t t' : Ticket} {c : Completion} {p p' : Project} {job : Job}
  {ids : List ProjectId} {a : ProjectId}

def expects (s : Session) (t : Ticket) : Bool := (s.project? t.1).any (·.pending == some t.2)

theorem expects_iff : s.expects t ↔ ∃ p, s.project? t.1 = some p ∧ p.pending = some t.2 := by
  rw [expects, Option.any_eq_true]
  simp

theorem expects_ticket_iff : s.expects c.ticket ↔ s.Awaits c := expects_iff

theorem expects_unique (h : s.expects t) (h' : s.expects t') (ha : t.1 = t'.1) : t = t' := by
  obtain ⟨p, hp, hg⟩ := expects_iff.mp h
  obtain ⟨q, hq, hg'⟩ := expects_iff.mp h'
  rw [ha] at hp
  obtain rfl := Option.some.inj (hp.symm.trans hq)
  exact Prod.ext ha (Option.some.inj (hg.symm.trans hg'))

theorem Schedules.expects_old (hs : Schedules s ids s') (ha : t.1 ∉ ids) (h : s'.expects t) :
    s.expects t := by
  obtain ⟨p, hp, hg⟩ := expects_iff.mp h
  exact expects_iff.mpr ⟨p, hs.others t.1 ha p hp, hg⟩

theorem Schedules.expects_new (hs : Schedules s ids s') (ha : t.1 ∈ ids) (h : s'.expects t) :
    t.2 = s.nextGeneration + ids.idxOf t.1 := by
  obtain ⟨p, hp, hg⟩ := expects_iff.mp h
  exact Option.some.inj (hg.symm.trans (hs.scheduled t.1 ha p hp))

/-- A ticket of an earlier generation is expected from then on only if it was before. -/
theorem Schedules.expects_earlier (hs : Schedules s ids s') (hlt : t.2 < s.nextGeneration)
    (h : s'.expects t) : s.expects t := by
  by_cases ha : t.1 ∈ ids
  · have hnew := hs.expects_new ha h
    omega
  · exact hs.expects_old ha h

/-- Settling a project uses up the ticket that it awaited, and no other. -/
theorem expects_settle (hp : s.project? c.project = some p) (hg : p.pending = some c.generation)
    (hn : p'.pending = none) :
    ({ s with projects := s.projects.insert c.project p' } : Session).expects t ↔
      s.expects t ∧ t ≠ c.ticket := by
  have hlookup : ({ s with projects := s.projects.insert c.project p' } : Session).project? t.1 =
      if c.project = t.1 then some p' else s.project? t.1 :=
    ProjectMap.getElem?_insert s.projects c.project t.1 p'
  by_cases ha : c.project = t.1
  · rw [expects_iff, hlookup, if_pos ha]
    have huse : s.expects t → t = c.ticket := fun h =>
      expects_unique h (expects_ticket_iff.mpr ⟨p, hp, hg⟩) ha.symm
    constructor
    · rintro ⟨q, hq, hq'⟩
      obtain rfl := Option.some.inj hq
      rw [hn] at hq'
      cases hq'
    · rintro ⟨h, hne⟩
      exact absurd (huse h) hne
  · rw [expects_iff, hlookup, if_neg ha, ← expects_iff]
    constructor
    · intro h
      exact ⟨h, fun he => ha (congrArg Prod.fst he).symm⟩
    · exact And.left

/-- What the host asks of a session. -/
inductive Call
  | attach (project : ProjectId) (layout : Layout)
  | detach (project : ProjectId)
  | reimport (project : ProjectId)
  | sourceChanged (fs : FileSystem) (path : Path)

namespace Call

def event : Call → Event
  | .attach a layout => .attach a layout
  | .detach a => .detach a
  | .reimport a => .reimport a
  | .sourceChanged fs path => .sourceChanged fs path

/-- A project is attached under a handle that no other project has. -/
def Allowed (s : Session) : Call → Prop
  | .attach a _ => s.project? a = none
  | _ => True

instance (s : Session) (call : Call) : Decidable (call.Allowed s) :=
  match call with
  | .attach a _ => inferInstanceAs (Decidable (s.project? a = none))
  | .detach _ | .reimport _ | .sourceChanged _ _ => isTrue trivial

end Call

theorem mem_tickets_jobsFrom {source : ProjectId → Path} {n : Nat} (hd : ids.Nodup) :
    t ∈ (jobsFrom source n ids).map (·.ticket) ↔ t.1 ∈ ids ∧ t.2 = n + ids.idxOf t.1 := by
  have hof := jobsFrom_of_project source n hd t.1
  constructor
  · intro h
    obtain ⟨job, hj, rfl⟩ := List.mem_map.mp h
    have ha : job.project ∈ ids := (mem_jobsFrom hj).1
    have hm : job ∈ (jobsFrom source n ids).filter (·.project = job.project) :=
      List.mem_filter.mpr ⟨hj, by simp⟩
    change (jobsFrom source n ids).filter (·.project = job.project) = _ at hof
    rw [hof, if_pos (show job.ticket.1 ∈ ids from ha)] at hm
    have he := List.mem_singleton.mp hm
    exact ⟨ha, congrArg Job.generation he⟩
  · rintro ⟨ha, hg⟩
    rw [if_pos ha] at hof
    have hm : (⟨t.1, n + ids.idxOf t.1, source t.1⟩ : Job) ∈
        (jobsFrom source n ids).filter (·.project = t.1) := by
      rw [hof]
      exact List.mem_singleton_self _
    exact List.mem_map.mpr ⟨_, (List.mem_filter.mp hm).1, Prod.ext rfl hg.symm⟩

theorem nodup_tickets_jobsFrom (source : ProjectId → Path) (n : Nat) (ids : List ProjectId) :
    ((jobsFrom source n ids).map (·.ticket)).Nodup := by
  refine List.pairwise_map.mpr ((jobsFrom_increasing source n ids).imp ?_)
  intro earlier later hlt he
  have hg : earlier.generation = later.generation := congrArg Prod.snd he
  omega

/-- Every running job is awaited, and the counter is above all of them. -/
structure Orderly (s : Session) : Prop where
  expected : ∀ job ∈ s.running, s.expects job.ticket
  counted : ∀ job ∈ s.running, job.generation < s.nextGeneration

/-- Imports are scheduled, and of the jobs that ran before those go on that are still awaited. -/
structure Renews (s : Session) (ids : List ProjectId) (s' : Session) : Prop
    extends Schedules s ids s' where
  attached : ∀ a ∈ ids, (s'.project? a).isSome
  renewed : ∃ source, s'.running =
    s.running.filter (fun job => s'.expects job.ticket) ++ jobsFrom source s.nextGeneration ids

theorem Renews.expects_iff_new (hr : Renews s ids s') (ha : t.1 ∈ ids) :
    s'.expects t ↔ t.2 = s.nextGeneration + ids.idxOf t.1 := by
  constructor
  · exact hr.expects_new ha
  · intro hg
    obtain ⟨p, hp⟩ := Option.isSome_iff_exists.mp (hr.attached t.1 ha)
    exact expects_iff.mpr ⟨p, hp, (hr.scheduled t.1 ha p hp).trans (congrArg some hg.symm)⟩

theorem expects_schedule_all (hd : ids.Nodup) (ha : ∀ a ∈ ids, (s.project? a).isSome)
    (h : s.expects t) (hlt : t.2 < s.nextGeneration) :
    (ids.foldl schedule s).expects t = !ids.contains t.1 := by
  obtain ⟨p, hp, hg⟩ := expects_iff.mp h
  rw [expects, project?_schedule_all hd s ha, hp]
  by_cases hm : t.1 ∈ ids
  · have hne : s.nextGeneration + ids.idxOf t.1 ≠ t.2 := by omega
    simp [hm, hne]
  · simp [hm, hg]

theorem renews_all (hs : s.Orderly) (hd : ids.Nodup)
    (ha : ∀ a ∈ ids, (s.project? a).isSome) : Renews s ids (ids.foldl schedule s) where
  toSchedules := schedules_all s hd ha
  attached := by
    intro a hm
    rw [project?_schedule_all hd s ha, if_pos hm, Option.isSome_map]
    exact ha a hm
  renewed := by
    refine ⟨s.source, ?_⟩
    rw [running_schedule_all hd s ha]
    congr 1
    refine List.filter_congr fun job hj => ?_
    have he := hs.expected job hj
    rw [expects_schedule_all hd ha he (hs.counted job hj)]
    change (!(ids.contains job.project && s.expects job.ticket)) = _
    rw [he, Bool.and_true]
    rfl

theorem renews_attach (hs : s.Orderly) (ha : s.project? a = none) (layout : Layout) :
    Renews s [a] (s.attach a layout) where
  toSchedules := schedules_attach s a layout
  attached := by
    intro b hb
    obtain rfl := List.mem_singleton.mp hb
    simp [project?_attach]
  renewed := by
    refine ⟨fun _ => layout.commandsFile, ?_⟩
    have hkept : ∀ job ∈ s.running, (s.attach a layout).expects job.ticket := by
      intro job hj
      obtain ⟨p, hp, hg⟩ := expects_iff.mp (hs.expected job hj)
      have hne : a ≠ job.ticket.1 := fun h => by simp [← h, ha] at hp
      exact expects_iff.mpr ⟨p, by rw [project?_attach, if_neg hne, hp], hg⟩
    rw [running_attach, List.filter_eq_self.mpr hkept]
    rfl

theorem expects_detach (s : Session) (a : ProjectId) (t : Ticket) :
    (s.detach a).2.expects t = (decide (t.1 ≠ a) && s.expects t) := by
  rw [expects, project?_detach]
  by_cases ha : a = t.1
  · simp [ha]
  · have hne : t.1 ≠ a := Ne.symm ha
    simp [ha, hne, expects]

theorem renews_detach (hs : s.Orderly) (a : ProjectId) : Renews s [] (s.detach a).2 where
  toSchedules := schedules_detach s a
  attached := by simp
  renewed := by
    refine ⟨fun _ => default, ?_⟩
    have hrun : (s.detach a).2.running = s.running.filter (·.project ≠ a) := by
      cases hp : s.project? a with
      | none =>
        have hall : ∀ job ∈ s.running, job.project ≠ a := by
          rintro job hj rfl
          obtain ⟨p, hp', -⟩ := expects_iff.mp (hs.expected job hj)
          exact absurd (hp'.symm.trans hp) (by simp)
        simp only [detach, hp]
        rw [List.filter_eq_self.mpr (by simpa using hall)]
      | some p =>
        simp only [detach, hp]
        rw [callOff_eq_filter hp]
        refine List.filter_congr fun job hj => ?_
        change (!([a].contains job.project && s.expects job.ticket)) = _
        simp [hs.expected job hj]
    rw [hrun, jobsFrom, List.append_nil]
    refine List.filter_congr fun job hj => ?_
    rw [expects_detach, hs.expected job hj, Bool.and_true]
    rfl

theorem renews_call {τ : Type} (trigger : Trigger τ) (hs : s.Orderly) (queue : τ) {call : Call}
    (hc : call.Allowed s) :
    ∃ ids s', Renews s ids s' ∧ s.next trigger queue call.event = (none, s', queue) := by
  cases call with
  | attach a layout => exact ⟨_, _, renews_attach hs hc layout, rfl⟩
  | detach a => exact ⟨_, _, renews_detach hs a, rfl⟩
  | reimport a =>
    have hnext : s.next trigger queue (Call.reimport a).event = (none, s.schedule a, queue) := by
      simp only [Call.event, next, reimport_getD]
    cases hp : s.project? a with
    | none =>
      rw [schedule_of_detached hp] at hnext
      exact ⟨[], s, renews_all hs .nil (by simp), hnext⟩
    | some p =>
      exact ⟨[a], _, renews_all hs (List.nodup_singleton a) (by simp [hp]), hnext⟩
  | sourceChanged fs path =>
    exact ⟨_, _, renews_all hs (affected_nodup s fs path.clean)
      (fun _ h => attached_of_affected h), rfl⟩

end Session

end CompileIndex
