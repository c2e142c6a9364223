import CompileIndex.Proofs.Session.Schedule
import Mathlib.Data.List.Nodup

/-!
# Runs of a session

A session is driven by the host, by jobs that come to their end, and by completions, which may be
late, repeated or made up. A history keeps what the session itself forgets: the jobs that were
started and the completions that were accepted.
-/
namespace CompileIndex

/-- The report on a completion that is taken into the index `i`. -/
def Completion.report (c : Completion) (i : Index) : Finished where
  project := c.project
  outcome :=
    match (i.apply c.result).1 with
    | .ok changed => .merged changed
    | .error reason => .failed reason
  fileCount := (i.apply c.result).2.fileCount
  skippedEntries := c.skippedEntries

def Project.settle (p : Project) (c : Completion) (report : Finished) : Project where
  layout := p.layout
  index := (p.index.apply c.result).2
  pending := none
  lastImport := some report

namespace Session

variable {τ : Type}

inductive Event
  | attach (project : ProjectId) (layout : Layout)
  | detach (project : ProjectId)
  | reimport (project : ProjectId)
  | sourceChanged (fs : FileSystem) (path : Path)
  | jobEnded (job : Job)
  | completion (c : Completion)

/-- The session after an event, with the report on a completion. -/
def next (trigger : Trigger τ) (s : Session) (t : τ) : Event → Option Finished × Session × τ
  | .attach a layout => (none, s.attach a layout, t)
  | .detach a => (none, (s.detach a).2, t)
  | .reimport a => (none, (s.reimport a).toOption.getD s, t)
  | .sourceChanged fs path => (none, (s.sourceChanged fs path).2, t)
  | .jobEnded job => (none, { s with running := s.running.erase job }, t)
  | .completion c => s.handle trigger c t

/-- Something happens to the session, or the listener does as it likes with the queue. -/
inductive Move (τ : Type)
  | event (e : Event)
  | listener (f : τ → τ)

structure History (τ : Type) where
  session : Session
  queue : τ
  /-- All jobs that were ever started, in their order. -/
  started : List Job
  /-- All completions that were ever accepted, in their order. -/
  accepted : List Completion

def newJobs (before after : Session) : List Job :=
  after.running.filter (· ∉ before.running)

def Event.accepted? : Event → Option Finished → Option Completion
  | .completion c, some _ => some c
  | _, _ => none

namespace History

def start (queue : τ) : History τ := ⟨.empty, queue, [], []⟩

def step (trigger : Trigger τ) (h : History τ) : Move τ → History τ
  | .event e =>
    let (finished, session, queue) := h.session.next trigger h.queue e
    { session
      queue
      started := h.started ++ newJobs h.session session
      accepted := h.accepted ++ (e.accepted? finished).toList }
  | .listener f => { h with queue := f h.queue }

/-- What has happened after these moves, when no project was attached before them. -/
def after (trigger : Trigger τ) (queue : τ) (moves : List (Move τ)) : History τ :=
  moves.foldl (step trigger) (start queue)

def latest? (h : History τ) (a : ProjectId) : Option Nat :=
  (h.started.filter (·.project = a)).getLast?.map (·.generation)

def acceptedOf (h : History τ) (a : ProjectId) : List Nat :=
  (h.accepted.filter (·.project = a)).map (·.generation)

end History

def Awaits (s : Session) (c : Completion) : Prop :=
  ∃ p, s.project? c.project = some p ∧ p.pending = some c.generation

theorem accept_of_awaits {s : Session} {c : Completion} {p : Project}
    (hp : s.project? c.project = some p) (hg : p.pending = some c.generation) :
    s.accept c = (some (c.report p.index),
      { s with projects := s.projects.insert c.project (p.settle c (c.report p.index)) }) := by
  simp only [accept, hp, hg, if_true]
  rfl

theorem accept_of_not_awaits {s : Session} {c : Completion} (h : ¬ s.Awaits c) :
    s.accept c = (none, s) := by
  cases hp : s.project? c.project with
  | none => simp only [accept, hp]
  | some p =>
    have hg : p.pending ≠ some c.generation := fun hg => h ⟨p, hp, hg⟩
    simp only [accept, hp, hg, if_false]

theorem handle_of_awaits (trigger : Trigger τ) {s : Session} {c : Completion} {p : Project} (t : τ)
    (hp : s.project? c.project = some p) (hg : p.pending = some c.generation) :
    ∃ t', s.handle trigger c t = (some (c.report p.index),
      { s with projects := s.projects.insert c.project (p.settle c (c.report p.index)) }, t') := by
  simp only [handle, accept_of_awaits hp hg]
  split
  · exact ⟨_, rfl⟩
  · exact ⟨_, rfl⟩

theorem handle_of_not_awaits (trigger : Trigger τ) {s : Session} {c : Completion} (t : τ)
    (h : ¬ s.Awaits c) : s.handle trigger c t = (none, s, t) := by
  simp [handle, accept_of_not_awaits h]

theorem isSome_handle_iff (trigger : Trigger τ) {s : Session} {c : Completion} (t : τ) :
    (s.handle trigger c t).1.isSome ↔ s.Awaits c := by
  constructor
  · intro h
    by_contra hn
    rw [handle_of_not_awaits trigger t hn] at h
    cases h
  · rintro ⟨p, hp, hg⟩
    obtain ⟨t', h⟩ := handle_of_awaits trigger t hp hg
    simp [h]

theorem project?_attach (s : Session) (a b : ProjectId) (layout : Layout) :
    (s.attach a layout).project? b =
      if a = b then some ⟨layout, .empty, some s.nextGeneration, none⟩ else s.project? b := by
  rw [attach, project?_schedule]
  change (if a = b then ((s.projects.insert a _)[b]?).map _ else (s.projects.insert a _)[b]?) = _
  rw [ProjectMap.getElem?_insert]
  split <;> rfl

theorem running_attach (s : Session) (a : ProjectId) (layout : Layout) :
    (s.attach a layout).running =
      s.running ++ [⟨a, s.nextGeneration, layout.commandsFile⟩] := by
  have h : ({ s with projects := s.projects.insert a ⟨layout, .empty, none, none⟩ } :
      Session).project? a = some ⟨layout, .empty, none, none⟩ := by
    simp [project?]
  rw [attach, running_schedule h]
  simp [callOff, List.filter_true]

theorem nextGeneration_attach (s : Session) (a : ProjectId) (layout : Layout) :
    (s.attach a layout).nextGeneration = s.nextGeneration + 1 := by
  refine nextGeneration_schedule (p := ⟨layout, .empty, none, none⟩) ?_
  simp [project?]

theorem project?_detach (s : Session) (a b : ProjectId) :
    (s.detach a).2.project? b = if a = b then none else s.project? b := by
  cases h : s.project? a with
  | none =>
    simp only [detach, h]
    split
    · next hab => subst hab; exact h
    · rfl
  | some p =>
    simp only [detach, h]
    exact ProjectMap.getElem?_erase s.projects a b

theorem running_detach_sublist (s : Session) (a : ProjectId) :
    (s.detach a).2.running.Sublist s.running := by
  cases h : s.project? a with
  | none => simp only [detach, h]; exact List.Sublist.refl _
  | some p => simp only [detach, h]; exact List.filter_sublist

theorem nextGeneration_detach (s : Session) (a : ProjectId) :
    (s.detach a).2.nextGeneration = s.nextGeneration := by
  cases h : s.project? a <;> simp only [detach, h]

theorem reimport_getD (s : Session) (a : ProjectId) :
    (s.reimport a).toOption.getD s = s.schedule a := by
  cases h : s.project? a with
  | none => simp [reimport, attached, h, schedule_of_detached h, bind, Except.bind, Except.toOption]
  | some p => simp [reimport, attached, h, bind, Except.bind, pure, Except.pure, Except.toOption]

theorem affected_nodup (s : Session) (fs : FileSystem) (path : Path) :
    (s.affected fs path).Nodup := by
  have hk : (s.projects.toList.map Prod.fst).Nodup := by
    rw [Std.TreeMap.map_fst_toList_eq_keys]
    exact Std.TreeMap.nodup_keys
  exact hk.sublist (List.filter_sublist.map Prod.fst)

theorem attached_of_affected {s : Session} {fs : FileSystem} {path : Path} {a : ProjectId}
    (h : a ∈ s.affected fs path) : (s.project? a).isSome := by
  obtain ⟨⟨b, p⟩, hm, rfl⟩ := List.mem_map.mp h
  have hb := Std.TreeMap.mem_toList_iff_getElem?_eq_some.mp (List.mem_filter.mp hm).1
  exact Option.isSome_iff_exists.mpr ⟨p, hb⟩

/-- From `s` to `s'` the imports of `ids` are scheduled, in this order. Other projects may have
been forgotten and running jobs may have gone, but a project that is left is what it was. -/
structure Schedules (s : Session) (ids : List ProjectId) (s' : Session) : Prop where
  nodup : ids.Nodup
  running : ∃ kept source, (∀ job ∈ kept, job ∈ s.running) ∧
    s'.running = kept ++ jobsFrom source s.nextGeneration ids
  counted : s'.nextGeneration = s.nextGeneration + ids.length
  scheduled : ∀ a ∈ ids, ∀ p', s'.project? a = some p' →
    p'.pending = some (s.nextGeneration + ids.idxOf a)
  others : ∀ a ∉ ids, ∀ p', s'.project? a = some p' → s.project? a = some p'

theorem schedules_all (s : Session) {ids : List ProjectId} (hd : ids.Nodup)
    (ha : ∀ a ∈ ids, (s.project? a).isSome) : Schedules s ids (ids.foldl schedule s) where
  nodup := hd
  running := ⟨_, s.source, fun _ hj => (List.mem_filter.mp hj).1, running_schedule_all hd s ha⟩
  counted := nextGeneration_schedule_all s ha
  scheduled := by
    intro a hm p' hp
    rw [project?_schedule_all hd s ha, if_pos hm] at hp
    obtain ⟨p, _, rfl⟩ := Option.map_eq_some_iff.mp hp
    rfl
  others := by
    intro a hm p' hp
    rwa [project?_schedule_all hd s ha, if_neg hm] at hp

theorem schedules_attach (s : Session) (a : ProjectId) (layout : Layout) :
    Schedules s [a] (s.attach a layout) where
  nodup := List.nodup_singleton a
  running := ⟨s.running, fun _ => layout.commandsFile, fun _ => id, running_attach s a layout⟩
  counted := nextGeneration_attach s a layout
  scheduled := by
    intro b hb p' hp
    obtain rfl := List.mem_singleton.mp hb
    rw [project?_attach, if_pos rfl] at hp
    obtain rfl := Option.some.inj hp
    simp
  others := by
    intro b hb p' hp
    rwa [project?_attach, if_neg (by rintro rfl; simp at hb)] at hp

theorem schedules_detach (s : Session) (a : ProjectId) : Schedules s [] (s.detach a).2 where
  nodup := .nil
  running := ⟨(s.detach a).2.running, fun _ => default,
    fun _ hj => (running_detach_sublist s a).subset hj, by simp [jobsFrom]⟩
  counted := nextGeneration_detach s a
  scheduled := by simp
  others := by
    intro b _ p' hp
    rw [project?_detach] at hp
    split at hp
    · cases hp
    · exact hp

theorem schedules_reimport (s : Session) (a : ProjectId) :
    ∃ ids, Schedules s ids (s.schedule a) := by
  cases hp : s.project? a with
  | none =>
    rw [schedule_of_detached hp]
    exact ⟨[], schedules_all s .nil (by simp)⟩
  | some p => exact ⟨[a], schedules_all s (List.nodup_singleton a) (by simp [hp])⟩

theorem schedules_jobEnded (s : Session) (job : Job) :
    Schedules s [] { s with running := s.running.erase job } where
  nodup := .nil
  running := ⟨s.running.erase job, fun _ => default, fun _ hj => List.mem_of_mem_erase hj,
    by simp [jobsFrom]⟩
  counted := rfl
  scheduled := by simp
  others := fun _ _ _ hp => hp

/-- All that an event can do: take in a completion, or schedule imports. -/
theorem next_cases (trigger : Trigger τ) (s : Session) (t : τ) (e : Event) :
    (∃ c, e = .completion c ∧ s.next trigger t e = s.handle trigger c t) ∨
    ∃ ids s', Schedules s ids s' ∧ s.next trigger t e = (none, s', t) := by
  cases e with
  | completion c => exact .inl ⟨c, rfl, rfl⟩
  | attach a layout => exact .inr ⟨_, _, schedules_attach s a layout, rfl⟩
  | detach a => exact .inr ⟨_, _, schedules_detach s a, rfl⟩
  | reimport a =>
    obtain ⟨ids, h⟩ := schedules_reimport s a
    exact .inr ⟨ids, _, h, by simp only [next, reimport_getD]⟩
  | sourceChanged fs path =>
    exact .inr ⟨_, _, schedules_all s (affected_nodup s fs path.clean)
      (fun _ h => attached_of_affected h), rfl⟩
  | jobEnded job => exact .inr ⟨_, _, schedules_jobEnded s job, rfl⟩

end Session

end CompileIndex
