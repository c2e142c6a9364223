import CompileIndex.Proofs.Session.Run

/-!
# Generations of imports

Of the completions that reach a session, in whatever order and however often, exactly those of
awaited imports are accepted, each once. A discarded completion leaves no trace.
-/
namespace CompileIndex.Session

variable {τ : Type} {h : History τ}

/-- The history accounts for every job and for every import that a project awaits. -/
structure Accounted (h : History τ) : Prop where
  running_started : ∀ job ∈ h.session.running, job ∈ h.started
  started_increasing : h.started.Pairwise (·.generation < ·.generation)
  started_before : ∀ job ∈ h.started, job.generation < h.session.nextGeneration
  accepted_started : ∀ c ∈ h.accepted, ∃ job ∈ h.started,
    job.project = c.project ∧ job.generation = c.generation
  accepted_increasing : ∀ a, (h.acceptedOf a).Pairwise (· < ·)
  awaits_latest : ∀ a p, h.session.project? a = some p →
    ∃ g, h.latest? a = some g ∧ p.pending = if g ∈ h.acceptedOf a then none else some g

theorem mem_acceptedOf {a : ProjectId} {g : Nat} :
    g ∈ h.acceptedOf a ↔ ∃ c ∈ h.accepted, c.project = a ∧ c.generation = g := by
  simp [History.acceptedOf, and_assoc]

theorem started_of_latest {a : ProjectId} {g : Nat} (hl : h.latest? a = some g) :
    ∃ job ∈ h.started, job.project = a ∧ job.generation = g := by
  obtain ⟨job, hj, rfl⟩ := Option.map_eq_some_iff.mp hl
  have hm := List.mem_filter.mp (List.mem_of_getLast? hj)
  exact ⟨job, hm.1, by simpa using hm.2, rfl⟩

theorem Accounted.started_le_latest (hh : Accounted h) {a : ProjectId} {g : Nat}
    (hl : h.latest? a = some g) {job : Job} (hj : job ∈ h.started) (ha : job.project = a) :
    job.generation ≤ g := by
  obtain ⟨last, hlast, rfl⟩ := Option.map_eq_some_iff.mp hl
  obtain ⟨before, hb⟩ := List.getLast?_eq_some_iff.mp hlast
  have hp := hh.started_increasing.filter (·.project = a)
  have hm : job ∈ h.started.filter (·.project = a) := List.mem_filter.mpr ⟨hj, by simp [ha]⟩
  rw [hb] at hp hm
  rcases List.mem_append.mp hm with hm | hm
  · exact Nat.le_of_lt ((List.pairwise_append.mp hp).2.2 job hm last (by simp))
  · obtain rfl := List.mem_singleton.mp hm
    exact Nat.le_refl _

theorem Accounted.accepted_before (hh : Accounted h) {a : ProjectId} {g : Nat}
    (hg : g ∈ h.acceptedOf a) : g < h.session.nextGeneration := by
  obtain ⟨c, hc, _, rfl⟩ := mem_acceptedOf.mp hg
  obtain ⟨job, hj, _, he⟩ := hh.accepted_started c hc
  exact he ▸ hh.started_before job hj

theorem accounted_start (queue : τ) : Accounted (History.start queue) where
  running_started := by simp [History.start, empty]
  started_increasing := .nil
  started_before := by simp [History.start]
  accepted_started := by simp [History.start]
  accepted_increasing := fun _ => .nil
  awaits_latest := by simp [History.start, empty, project?]

theorem newJobs_append {before after : Session} {kept new : List Job}
    (hk : ∀ job ∈ kept, job ∈ before.running) (hn : ∀ job ∈ new, job ∉ before.running)
    (h : after.running = kept ++ new) : newJobs before after = new := by
  rw [newJobs, h, List.filter_append, List.filter_eq_nil_iff.mpr (by simpa using hk),
    List.filter_eq_self.mpr (by simpa using hn), List.nil_append]

theorem latest?_append_jobsFrom {source : ProjectId → Path} {n : Nat} {ids : List ProjectId}
    (hd : ids.Nodup) (s : Session) (a : ProjectId) :
    ({ h with session := s, started := h.started ++ jobsFrom source n ids } :
      History τ).latest? a = if a ∈ ids then some (n + ids.idxOf a) else h.latest? a := by
  simp only [History.latest?, List.filter_append, jobsFrom_of_project source n hd]
  split <;> simp

/-- The jobs of scheduled imports are new: old ones are numbered below the counter. -/
theorem Accounted.newJobs_eq (hh : Accounted h) {ids : List ProjectId} {s' : Session}
    {kept : List Job} {source : ProjectId → Path} (hkept : ∀ job ∈ kept, job ∈ h.session.running)
    (hrun : s'.running = kept ++ jobsFrom source h.session.nextGeneration ids) :
    newJobs h.session s' = jobsFrom source h.session.nextGeneration ids := by
  refine newJobs_append hkept (fun job hj hr => ?_) hrun
  have hlt := hh.started_before job (hh.running_started job hr)
  have hge := (mem_jobsFrom hj).2.1
  omega

theorem Accounted.schedule (hh : Accounted h) {ids : List ProjectId} {s' : Session}
    (hs : Schedules h.session ids s') :
    Accounted { h with session := s', started := h.started ++ newJobs h.session s' } := by
  obtain ⟨kept, source, hkept, hrun⟩ := hs.running
  rw [hh.newJobs_eq hkept hrun]
  constructor
  · intro job hj
    rw [hrun] at hj
    rcases List.mem_append.mp hj with hj | hj
    · exact List.mem_append_left _ (hh.running_started job (hkept job hj))
    · exact List.mem_append_right _ hj
  · refine List.pairwise_append.mpr
      ⟨hh.started_increasing, jobsFrom_increasing _ _ _, fun old ho new hn => ?_⟩
    have hlt := hh.started_before old ho
    have hge := (mem_jobsFrom hn).2.1
    omega
  · intro job hj
    change job.generation < s'.nextGeneration
    have hc := hs.counted
    rcases List.mem_append.mp hj with hj | hj
    · have hlt := hh.started_before job hj
      omega
    · have hlt := (mem_jobsFrom hj).2.2
      omega
  · intro c hc
    obtain ⟨job, hj, he⟩ := hh.accepted_started c hc
    exact ⟨job, List.mem_append_left _ hj, he⟩
  · exact hh.accepted_increasing
  · intro a p' hp
    rw [latest?_append_jobsFrom hs.nodup]
    by_cases ha : a ∈ ids
    · rw [if_pos ha]
      refine ⟨_, rfl, ?_⟩
      have hn : h.session.nextGeneration + ids.idxOf a ∉ h.acceptedOf a := fun hm => by
        have hlt := hh.accepted_before hm
        omega
      exact (hs.scheduled a ha p' hp).trans (if_neg hn).symm
    · rw [if_neg ha]
      exact hh.awaits_latest a p' (hs.others a ha p' hp)

theorem acceptedOf_append (h : History τ) (s : Session) (t : τ) (c : Completion) (a : ProjectId) :
    (History.mk s t h.started (h.accepted ++ [c])).acceptedOf a =
      h.acceptedOf a ++ if c.project = a then [c.generation] else [] := by
  simp only [History.acceptedOf, List.filter_append, List.map_append]
  by_cases ha : c.project = a <;> simp [ha]

/-- What a project awaits is the latest import that was scheduled for it, not yet accepted. -/
theorem Accounted.awaits_iff (hh : Accounted h) (c : Completion) :
    h.session.Awaits c ↔ (h.session.project? c.project).isSome ∧
      h.latest? c.project = some c.generation ∧ c.generation ∉ h.acceptedOf c.project := by
  constructor
  · rintro ⟨p, hp, hg⟩
    obtain ⟨g, hl, he⟩ := hh.awaits_latest _ p hp
    rw [hg] at he
    split at he
    · cases he
    · next hn =>
      obtain rfl := Option.some.inj he
      exact ⟨by simp [hp], hl, hn⟩
  · rintro ⟨ha, hl, hn⟩
    obtain ⟨p, hp⟩ := Option.isSome_iff_exists.mp ha
    obtain ⟨g, hl', he⟩ := hh.awaits_latest _ p hp
    obtain rfl := Option.some.inj (hl.symm.trans hl')
    exact ⟨p, hp, he.trans (if_neg hn)⟩

theorem Accounted.accept (hh : Accounted h) {c : Completion} {p p' : Project} (t : τ)
    (hp : h.session.project? c.project = some p) (hg : p.pending = some c.generation)
    (hn : p'.pending = none) :
    Accounted ⟨{ h.session with projects := h.session.projects.insert c.project p' }, t,
      h.started, h.accepted ++ [c]⟩ := by
  obtain ⟨_, hl, hc⟩ := (hh.awaits_iff c).mp ⟨p, hp, hg⟩
  constructor
  · exact hh.running_started
  · exact hh.started_increasing
  · exact hh.started_before
  · intro d hd
    rcases List.mem_append.mp hd with hd | hd
    · exact hh.accepted_started d hd
    · obtain rfl := List.mem_singleton.mp hd
      exact started_of_latest hl
  · intro a
    rw [acceptedOf_append]
    split
    · next ha =>
      subst ha
      -- What was accepted before is not later than the latest, and is not the latest itself.
      refine List.pairwise_append.mpr ⟨hh.accepted_increasing _, by simp, fun g hm g' hg' => ?_⟩
      obtain rfl := List.mem_singleton.mp hg'
      obtain ⟨d, hd, hda, rfl⟩ := mem_acceptedOf.mp hm
      obtain ⟨job, hj, hja, he⟩ := hh.accepted_started d hd
      have hle := hh.started_le_latest hl hj (hja.trans hda)
      have hne : d.generation ≠ c.generation := fun he => hc (he ▸ hm)
      omega
    · simpa using hh.accepted_increasing a
  · intro a q hq
    change (h.session.projects.insert c.project p')[a]? = some q at hq
    rw [ProjectMap.getElem?_insert] at hq
    rw [acceptedOf_append]
    split at hq
    · next ha =>
      subst ha
      obtain rfl := Option.some.inj hq
      exact ⟨c.generation, hl, by simp [hn]⟩
    · next ha =>
      obtain ⟨g, hl', he⟩ := hh.awaits_latest a q hq
      exact ⟨g, hl', by simpa [ha] using he⟩

theorem newJobs_of_running_eq {before after : Session} (h : after.running = before.running) :
    newJobs before after = [] := by
  simp [newJobs, h]

theorem History.step_schedules (trigger : Trigger τ) {s' : Session} {e : Event}
    (he : h.session.next trigger h.queue e = (none, s', h.queue)) :
    h.step trigger (.event e) =
      { h with session := s', started := h.started ++ newJobs h.session s' } := by
  have hn : e.accepted? none = none := by cases e <;> rfl
  simp [History.step, he, hn]

theorem History.step_discards (trigger : Trigger τ) {c : Completion}
    (hc : ¬ h.session.Awaits c) :
    h.step trigger (.event (.completion c)) = h := by
  simp [History.step, next, handle_of_not_awaits trigger h.queue hc, newJobs_of_running_eq,
    Event.accepted?]

theorem History.step_accepts (trigger : Trigger τ) {c : Completion} {p : Project}
    (hp : h.session.project? c.project = some p) (hg : p.pending = some c.generation) :
    ∃ t, h.step trigger (.event (.completion c)) =
      ⟨{ h.session with
          projects := h.session.projects.insert c.project (p.settle c (c.report p.index)) },
        t, h.started, h.accepted ++ [c]⟩ := by
  obtain ⟨t, ht⟩ := handle_of_awaits trigger h.queue hp hg
  exact ⟨t, by simp [History.step, next, ht, newJobs_of_running_eq, Event.accepted?]⟩

theorem Accounted.step (trigger : Trigger τ) (hh : Accounted h) (m : Move τ) :
    Accounted (h.step trigger m) := by
  cases m with
  | listener f => exact ⟨hh.1, hh.2, hh.3, hh.4, hh.5, hh.6⟩
  | event e =>
    rcases next_cases trigger h.session h.queue e with ⟨c, rfl, -⟩ | ⟨ids, s', hs, he⟩
    · by_cases hc : h.session.Awaits c
      · obtain ⟨p, hp, hg⟩ := hc
        obtain ⟨t, ht⟩ := History.step_accepts trigger hp hg
        rw [ht]
        exact hh.accept t hp hg rfl
      · rw [History.step_discards trigger hc]
        exact hh
    · rw [History.step_schedules trigger he]
      exact hh.schedule hs

theorem accounted_after (trigger : Trigger τ) (queue : τ) (moves : List (Move τ)) :
    Accounted (History.after trigger queue moves) := by
  refine List.foldlRecOn moves _ (accounted_start queue) fun h hh m _ => ?_
  exact hh.step trigger m

/-- Whatever has happened to a session, a completion is accepted exactly when its project is
attached, its generation is the latest that was scheduled for the project and none of that
generation was accepted before. The generations accepted for a project strictly increase. A
discarded completion changes neither the session nor the queue of requests. -/
theorem accepts_latest_once (trigger : Trigger τ) (queue : τ) (moves : List (Move τ)) :
    let h := History.after trigger queue moves
    (∀ c, (h.session.handle trigger c h.queue).1.isSome ↔
      (h.session.project? c.project).isSome ∧ h.latest? c.project = some c.generation ∧
        c.generation ∉ h.acceptedOf c.project) ∧
    (∀ a, (h.acceptedOf a).Pairwise (· < ·)) ∧
    ∀ c, (h.session.handle trigger c h.queue).1 = none →
      (h.session.handle trigger c h.queue).2 = (h.session, h.queue) := by
  intro h
  have hh : Accounted h := accounted_after trigger queue moves
  refine ⟨fun c => ?_, hh.accepted_increasing, fun c hc => ?_⟩
  · rw [isSome_handle_iff]
    exact hh.awaits_iff c
  · have hn : ¬ h.session.Awaits c := by
      rw [← isSome_handle_iff trigger h.queue, hc]
      simp
    rw [handle_of_not_awaits trigger h.queue hn]

end CompileIndex.Session
