import CompileIndex.Proofs.Session.Effects

/-!
# Indexes of attached projects

The index of a project is empty when the project is attached. From then on nothing changes it but
the completions that are accepted for the project.
-/
namespace CompileIndex.Session

variable {τ : Type} {h : History τ} {a : ProjectId} {c : Completion} {e : Event}

def index? (s : Session) (a : ProjectId) : Option Index := (s.project? a).map (·.index)

/-- The event is none that attaches or detaches the project or delivers to it. -/
def Event.Spares (a : ProjectId) : Event → Prop
  | .attach b _ | .detach b => b ≠ a
  | .completion c => c.project ≠ a
  | .reimport _ | .sourceChanged _ _ | .jobEnded _ => True

def Move.Spares (a : ProjectId) : Move τ → Prop
  | .event e => e.Spares a
  | .listener _ => True

theorem Event.Spares.keeps (h : e.Spares a) : e.Keeps a := by
  cases e with
  | attach b layout => exact h
  | detach b => exact h
  | reimport | sourceChanged | jobEnded | completion => trivial

theorem index?_next (trigger : Trigger τ) (s : Session) (t : τ) (e : Event) (a : ProjectId) :
    (s.next trigger t e).2.1.index? a =
      (e.effect a (e.generation s a) (s.project? a)).map (·.index) :=
  congrArg (Option.map _) (project?_next trigger s t e a)

theorem index?_next_of_spares (trigger : Trigger τ) (s : Session) (t : τ) (h : e.Spares a) :
    (s.next trigger t e).2.1.index? a = s.index? a := by
  rw [index?_next]
  refine Event.map_effect (fun _ _ => rfl) h.keeps (fun q c he hc => ?_) _ _
  subst he
  exact absurd hc h

theorem index?_step_of_spares (trigger : Trigger τ) (h : History τ) {m : Move τ}
    (hm : m.Spares a) : (h.step trigger m).session.index? a = h.session.index? a := by
  cases m with
  | event e => exact index?_next_of_spares trigger h.session h.queue hm
  | listener f => rfl

theorem index?_foldl_of_spares (trigger : Trigger τ) (h : History τ) {moves : List (Move τ)}
    (hm : ∀ m ∈ moves, m.Spares a) :
    (moves.foldl (History.step trigger) h).session.index? a = h.session.index? a :=
  List.foldlRecOn (motive := fun h' : History τ => h'.session.index? a = h.session.index? a)
    moves _ rfl fun h' hh m hmem => (index?_step_of_spares trigger h' (hm m hmem)).trans hh

/-- Every snapshot that is held was accepted for its project. -/
def Sourced (h : History τ) : Prop :=
  ∀ a i, h.session.index? a = some i → i.snapshot.isSome →
    ∃ c ∈ h.accepted, c.project = a ∧ c.isValid

theorem sourced_start (queue : τ) : Sourced (History.start queue) := by
  intro a i hi
  simp [History.start, empty, index?, project?] at hi

theorem snapshot_apply_of_invalid {i : Index} (hc : ¬ c.isValid) : (i.apply c.result).2 = i := by
  rw [Completion.isValid] at hc
  cases hr : c.result with
  | ok s => simp [hr, Except.toBool] at hc
  | error failure => rfl

theorem Sourced.step (trigger : Trigger τ) (hs : Sourced h) (m : Move τ) :
    Sourced (h.step trigger m) := by
  intro a i hi hsome
  cases m with
  | listener f => exact hs a i hi hsome
  | event e =>
    obtain ⟨p, hp, rfl⟩ := Option.map_eq_some_iff.mp hi
    -- What was accepted before stays accepted.
    have hold {q : Project} (hq : h.session.project? a = some q)
        (hsome : q.index.snapshot.isSome) :
        ∃ c ∈ (h.step trigger (.event e)).accepted, c.project = a ∧ c.isValid := by
      obtain ⟨c, hc, hv⟩ := hs a q.index (by rw [index?, hq, Option.map_some]) hsome
      exact ⟨c, List.mem_append_left _ hc, hv⟩
    have heffect := (project?_next trigger h.session h.queue e a).symm.trans hp
    rcases Event.effect_cases heffect with
      ⟨layout, rfl, rfl⟩ | ⟨q, pending, hq, rfl⟩ | ⟨q, c, hq, rfl, rfl, hg, rfl⟩
    · cases hsome
    · exact hold hq hsome
    · by_cases hv : c.isValid
      · obtain ⟨t, ht⟩ := History.step_accepts trigger hq hg
        exact ⟨c, by simp [ht], rfl, hv⟩
      · rw [Project.settle, snapshot_apply_of_invalid hv] at hsome
        exact hold hq hsome

theorem sourced_after (trigger : Trigger τ) (queue : τ) (moves : List (Move τ)) :
    Sourced (History.after trigger queue moves) := by
  refine List.foldlRecOn moves _ (sourced_start queue) fun h hs m _ => ?_
  exact hs.step trigger m

end CompileIndex.Session
