import CompileIndex.Proofs.Session.Generations

/-!
# What an event does to one project

An event schedules the imports of some projects, in a certain order, and their generations are
counted on in this order. All else that it does to a project follows from the project alone.
-/
namespace CompileIndex.Session

variable {τ : Type} {h : History τ} {s : Session} {a : ProjectId}

/-- The projects whose imports are scheduled by an event, in the order of their generations. -/
def Event.scheduled (s : Session) : Event → List ProjectId
  | .attach a _ => [a]
  | .reimport a => if (s.project? a).isSome then [a] else []
  | .sourceChanged fs path => s.affected fs path.clean
  | .detach _ | .jobEnded _ | .completion _ => []

/-- The import of a project is scheduled. This can be told without the other projects. -/
def Event.starts (a : ProjectId) (p : Option Project) : Event → Bool
  | .attach b _ => b == a
  | .reimport b => b == a && p.isSome
  | .sourceChanged fs path => p.any (reads fs path.clean)
  | .detach _ | .jobEnded _ | .completion _ => false

/-- What becomes of a project, with `g` as the generation of its import if that is scheduled. -/
def Event.effect (a : ProjectId) (g : Nat) (p : Option Project) : Event → Option Project
  | .attach b layout => if b = a then some ⟨layout, .empty, some g, none⟩ else p
  | .detach b => if b = a then none else p
  | .reimport b => if b = a then p.map ({ · with pending := some g }) else p
  | .sourceChanged fs path =>
    p.map fun q => if reads fs path.clean q then { q with pending := some g } else q
  | .jobEnded _ => p
  | .completion c =>
    if c.project = a then
      p.map fun q => if q.pending = some c.generation then q.settle c (c.report q.index) else q
    else p

def Event.generation (s : Session) (a : ProjectId) (e : Event) : Nat :=
  s.nextGeneration + (e.scheduled s).idxOf a

/-- A project that is there after an event was attached by it, is the one that was there before but
for what it awaits, or has taken in the completion that it awaited. -/
theorem Event.effect_cases {e : Event} {g : Nat} {before : Option Project} {p : Project}
    (h : e.effect a g before = some p) :
    (∃ layout, e = .attach a layout ∧ p = ⟨layout, .empty, some g, none⟩) ∨
    (∃ q pending, before = some q ∧ p = { q with pending }) ∨
    ∃ q c, before = some q ∧ e = .completion c ∧ c.project = a ∧
      q.pending = some c.generation ∧ p = q.settle c (c.report q.index) := by
  have hsame (hb : before = some p) : ∃ q pending, before = some q ∧ p = { q with pending } :=
    ⟨p, p.pending, hb, rfl⟩
  cases e with
  | attach b layout =>
    simp only [effect] at h
    split at h
    · next hb =>
      subst hb
      exact .inl ⟨layout, rfl, (Option.some.inj h).symm⟩
    · exact .inr (.inl (hsame h))
  | detach b =>
    simp only [effect] at h
    split at h
    · cases h
    · exact .inr (.inl (hsame h))
  | reimport b =>
    simp only [effect] at h
    split at h
    · obtain ⟨q, hq, rfl⟩ := Option.map_eq_some_iff.mp h
      exact .inr (.inl ⟨q, some g, hq, rfl⟩)
    · exact .inr (.inl (hsame h))
  | sourceChanged fs path =>
    obtain ⟨q, hq, rfl⟩ := Option.map_eq_some_iff.mp h
    split
    · exact .inr (.inl ⟨q, some g, hq, rfl⟩)
    · exact .inr (.inl ⟨q, q.pending, hq, rfl⟩)
  | jobEnded job => exact .inr (.inl (hsame h))
  | completion c =>
    simp only [effect] at h
    split at h
    · next hc =>
      obtain ⟨q, hq, rfl⟩ := Option.map_eq_some_iff.mp h
      split
      · next hg => exact .inr (.inr ⟨q, c, hq, rfl, hc, hg, rfl⟩)
      · exact .inr (.inl ⟨q, q.pending, hq, rfl⟩)
    · exact .inr (.inl (hsame h))

/-- The event neither attaches nor detaches the project. -/
def Event.Keeps (a : ProjectId) : Event → Prop
  | .attach b _ | .detach b => b ≠ a
  | .reimport _ | .sourceChanged _ _ | .jobEnded _ | .completion _ => True

def Move.Keeps (a : ProjectId) : Move τ → Prop
  | .event e => e.Keeps a
  | .listener _ => True

/-- While a project is kept, only the completions that it takes in change anything of it, but for
what it awaits. -/
theorem Event.map_effect {α : Type} {f : Project → α} {e : Event}
    (hf : ∀ q pending, f { q with pending } = f q) (he : e.Keeps a)
    (hsettle : ∀ q c, e = .completion c → c.project = a → f (q.settle c (c.report q.index)) = f q)
    (g : Nat) (before : Option Project) : (e.effect a g before).map f = before.map f := by
  cases e with
  | attach b layout => rw [effect, if_neg he]
  | detach b => rw [effect, if_neg he]
  | jobEnded job => rfl
  | reimport b =>
    rw [effect]
    split
    · cases before with
      | none => rfl
      | some q => exact congrArg some (hf q (some g))
    · rfl
  | sourceChanged fs path =>
    cases before with
    | none => rfl
    | some q =>
      simp only [effect, Option.map_some]
      split
      · rw [hf]
      · rfl
  | completion c =>
    rw [effect]
    split
    · next hc =>
      cases before with
      | none => rfl
      | some q =>
        simp only [Option.map_some]
        split
        · rw [hsettle q c rfl hc]
        · rfl
    · rfl

theorem mem_affected_iff {fs : FileSystem} {path : Path} :
    a ∈ s.affected fs path ↔ (s.project? a).any (reads fs path) := by
  simp only [affected, List.mem_map, List.mem_filter, Option.any_eq_true]
  constructor
  · rintro ⟨⟨b, p⟩, ⟨hm, hr⟩, rfl⟩
    exact ⟨p, Std.TreeMap.mem_toList_iff_getElem?_eq_some.mp hm, hr⟩
  · rintro ⟨p, hp, hr⟩
    exact ⟨(a, p), ⟨Std.TreeMap.mem_toList_iff_getElem?_eq_some.mpr hp, hr⟩, rfl⟩

theorem mem_scheduled_iff {e : Event} : a ∈ e.scheduled s ↔ e.starts a (s.project? a) := by
  cases e with
  | attach b layout =>
    rw [Event.scheduled, Event.starts, List.mem_singleton, beq_iff_eq]
    exact eq_comm
  | reimport b =>
    by_cases hb : b = a
    · subst hb
      cases hp : s.project? b <;> simp [Event.scheduled, Event.starts, hp]
    · cases hp : s.project? b <;> simp [Event.scheduled, Event.starts, hp, hb, Ne.symm hb]
  | sourceChanged fs path => exact mem_affected_iff
  | detach | jobEnded | completion => simp [Event.scheduled, Event.starts]

theorem scheduled_nodup (s : Session) (e : Event) : (e.scheduled s).Nodup := by
  cases e with
  | attach b layout => exact List.nodup_singleton b
  | reimport b =>
    rw [Event.scheduled]
    split
    · exact List.nodup_singleton b
    · exact .nil
  | sourceChanged fs path => exact affected_nodup s fs path.clean
  | detach | jobEnded | completion => exact .nil

theorem project?_next (trigger : Trigger τ) (s : Session) (t : τ) (e : Event) (a : ProjectId) :
    (s.next trigger t e).2.1.project? a = e.effect a (e.generation s a) (s.project? a) := by
  cases e with
  | attach b layout =>
    refine (project?_attach s b a layout).trans ?_
    rw [Event.effect]
    split
    · next hb => simp [Event.generation, Event.scheduled, hb]
    · rfl
  | detach b => exact project?_detach s b a
  | reimport b =>
    simp only [next, reimport_getD, project?_schedule, Event.effect]
    split
    · next hb =>
      subst hb
      cases hp : s.project? b with
      | none => rfl
      | some p => simp [Event.generation, Event.scheduled, hp]
    · rfl
  | sourceChanged fs path =>
    refine (project?_schedule_all (affected_nodup s fs path.clean) s
      (fun _ h => attached_of_affected h) a).trans ?_
    rw [Event.effect]
    cases hp : s.project? a with
    | none => simp
    | some p =>
      have hmem : a ∈ s.affected fs path.clean ↔ reads fs path.clean p := by
        rw [mem_affected_iff, hp, Option.any_some]
      by_cases hr : reads fs path.clean p
      · simp [hmem.mpr hr, hr, Event.generation, Event.scheduled]
      · simp [mt hmem.mp hr, hr]
  | jobEnded job => rfl
  | completion c =>
    rw [Event.effect]
    by_cases hc : s.Awaits c
    · obtain ⟨p, hp, hg⟩ := hc
      obtain ⟨t', ht⟩ := handle_of_awaits trigger t hp hg
      rw [next, ht]
      refine (ProjectMap.getElem?_insert s.projects c.project a _).trans ?_
      split
      · next ha =>
        subst ha
        simp [hp, hg]
      · rfl
    · rw [next, handle_of_not_awaits trigger t hc]
      split
      · next ha =>
        subst ha
        cases hp : s.project? c.project with
        | none => rfl
        | some p =>
          have hg : p.pending ≠ some c.generation := fun hg => hc ⟨p, hp, hg⟩
          simp [hg]
      · rfl

def History.startedOf (h : History τ) (a : ProjectId) : List Nat :=
  (h.started.filter (·.project = a)).map (·.generation)

theorem schedules_scheduled (trigger : Trigger τ) (s : Session) (t : τ) {e : Event}
    (he : ∀ c, e ≠ .completion c) :
    ∃ s', Schedules s (e.scheduled s) s' ∧ s.next trigger t e = (none, s', t) := by
  cases e with
  | completion c => exact absurd rfl (he c)
  | attach b layout => exact ⟨_, schedules_attach s b layout, rfl⟩
  | detach b => exact ⟨_, schedules_detach s b, rfl⟩
  | jobEnded job => exact ⟨_, schedules_jobEnded s job, rfl⟩
  | sourceChanged fs path =>
    exact ⟨_, schedules_all s (affected_nodup s fs path.clean)
      (fun _ h => attached_of_affected h), rfl⟩
  | reimport b =>
    refine ⟨s.schedule b, ?_, by simp only [next, reimport_getD]⟩
    rw [Event.scheduled]
    split
    · next hb => exact schedules_all s (List.nodup_singleton b) (by simpa using hb)
    · next hb =>
      rw [schedule_of_detached (by simpa using hb)]
      exact schedules_all s .nil (by simp)

/-- A completion that is accepted or discarded schedules nothing. -/
theorem step_completion (trigger : Trigger τ) (h : History τ) (c : Completion) :
    (h.step trigger (.event (.completion c))).started = h.started ∧
      (h.step trigger (.event (.completion c))).session.nextGeneration =
        h.session.nextGeneration := by
  by_cases hc : h.session.Awaits c
  · obtain ⟨p, hp, hg⟩ := hc
    obtain ⟨t, ht⟩ := History.step_accepts trigger hp hg
    simp [ht]
  · simp [History.step_discards trigger hc]

theorem nextGeneration_step (trigger : Trigger τ) (h : History τ) (e : Event) :
    (h.step trigger (.event e)).session.nextGeneration =
      h.session.nextGeneration + (e.scheduled h.session).length := by
  by_cases he : ∃ c, e = .completion c
  · obtain ⟨c, rfl⟩ := he
    exact (step_completion trigger h c).2
  · obtain ⟨s', hs, hnext⟩ := schedules_scheduled trigger h.session h.queue
      (fun c hc => he ⟨c, hc⟩)
    rw [History.step_schedules trigger hnext]
    exact hs.counted

theorem startedOf_step (trigger : Trigger τ) (hh : Accounted h) (e : Event) (a : ProjectId) :
    (h.step trigger (.event e)).startedOf a = h.startedOf a ++
      if e.starts a (h.session.project? a) then [e.generation h.session a] else [] := by
  by_cases he : ∃ c, e = .completion c
  · obtain ⟨c, rfl⟩ := he
    simp [History.startedOf, (step_completion trigger h c).1, Event.starts]
  · obtain ⟨s', hs, hnext⟩ := schedules_scheduled trigger h.session h.queue
      (fun c hc => he ⟨c, hc⟩)
    obtain ⟨kept, source, hkept, hrun⟩ := hs.running
    rw [History.step_schedules trigger hnext, hh.newJobs_eq hkept hrun]
    simp only [History.startedOf, List.filter_append, List.map_append,
      jobsFrom_of_project source _ hs.nodup, ← mem_scheduled_iff]
    split <;> rfl

theorem startedOf_increasing (hh : Accounted h) (a : ProjectId) :
    (h.startedOf a).Pairwise (· < ·) :=
  List.pairwise_map.mpr (hh.started_increasing.filter _)

theorem startedOf_grows (trigger : Trigger τ) (h : History τ) (moves : List (Move τ))
    (a : ProjectId) : h.startedOf a <+: (moves.foldl (History.step trigger) h).startedOf a := by
  induction moves generalizing h with
  | nil => exact List.prefix_refl _
  | cons m rest ih =>
    refine List.IsPrefix.trans ?_ (ih (h.step trigger m))
    cases m with
    | event e => exact ((List.prefix_append _ _).filter _).map _
    | listener f => exact List.prefix_refl _

end CompileIndex.Session
