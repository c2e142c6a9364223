import CompileIndex.Proofs.Session.Generations

/-!
# What an accepted import leaves behind

A project that awaits nothing is as the latest of its imports left it: the index has taken in the
result, and the report on it is kept.
-/
namespace CompileIndex

/-- What `p` keeps of its imports is what `c` made of the index that was there before. -/
def Project.SettledBy (p : Project) (c : Completion) : Prop :=
  ∃ before : Index, p.index = (before.apply c.result).2 ∧ p.lastImport = some (c.report before)

namespace Session

variable {τ : Type} {h : History τ} {s s' : Session} {c : Completion} {p : Project}
  {a : ProjectId} {ids : List ProjectId}

/-- Every project that awaits nothing was settled by the latest of its imports. -/
def Settled (h : History τ) : Prop :=
  ∀ a p, h.session.project? a = some p → p.pending = none →
    ∃ c ∈ h.accepted, c.project = a ∧ h.latest? a = some c.generation ∧ p.SettledBy c

theorem settled_start (queue : τ) : Settled (History.start queue) := by
  intro a p hp
  simp [History.start, empty, project?] at hp

theorem Settled.schedule (hw : Settled h) (hh : Accounted h) (hs : Schedules h.session ids s') :
    Settled { h with session := s', started := h.started ++ newJobs h.session s' } := by
  intro a p' hp hnone
  obtain ⟨kept, source, hkept, hrun⟩ := hs.running
  rw [hh.newJobs_eq hkept hrun, latest?_append_jobsFrom hs.nodup]
  have ha : a ∉ ids := fun ha => by
    rw [hs.scheduled a ha p' hp] at hnone
    cases hnone
  rw [if_neg ha]
  exact hw a p' (hs.others a ha p' hp) hnone

theorem Settled.accept (hw : Settled h) (hh : Accounted h) (t : τ)
    (hp : h.session.project? c.project = some p) (hg : p.pending = some c.generation) :
    Settled ⟨{ h.session with
        projects := h.session.projects.insert c.project (p.settle c (c.report p.index)) },
      t, h.started, h.accepted ++ [c]⟩ := by
  intro a q hq hnone
  change (h.session.projects.insert c.project _)[a]? = some q at hq
  rw [ProjectMap.getElem?_insert] at hq
  split at hq
  · next ha =>
    subst ha
    obtain rfl := Option.some.inj hq
    obtain ⟨_, hl, _⟩ := (hh.awaits_iff c).mp ⟨p, hp, hg⟩
    exact ⟨c, by simp, rfl, hl, p.index, rfl, rfl⟩
  · obtain ⟨d, hd, hsettled⟩ := hw a q hq hnone
    exact ⟨d, List.mem_append_left _ hd, hsettled⟩

theorem Settled.step (trigger : Trigger τ) (hw : Settled h) (hh : Accounted h) (m : Move τ) :
    Settled (h.step trigger m) := by
  cases m with
  | listener f => exact hw
  | event e =>
    rcases next_cases trigger h.session h.queue e with ⟨c, rfl, -⟩ | ⟨ids, s', hs, he⟩
    · by_cases hc : h.session.Awaits c
      · obtain ⟨p, hp, hg⟩ := hc
        obtain ⟨t, ht⟩ := History.step_accepts trigger hp hg
        rw [ht]
        exact hw.accept hh t hp hg
      · rw [History.step_discards trigger hc]
        exact hw
    · rw [History.step_schedules trigger he]
      exact hw.schedule hh hs

end Session

end CompileIndex
