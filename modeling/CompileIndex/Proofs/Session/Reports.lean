import CompileIndex.Proofs.Session.Generations
import CompileIndex.Session.Workspace
import Mathlib.Data.List.Induction

/-!
# What a run makes known

Nothing is seen of a session but the reports on its imports and the answers about its projects. Both
follow from what happens to the session alone: whom it tells of a change, and what becomes of the
request, leaves no trace in them.
-/
namespace CompileIndex

/-- The points of a run: each step with those before it. -/
def points {α : Type} : List α → List (List α × α)
  | [] => []
  | a :: rest => ([], a) :: (points rest).map fun (before, b) => (a :: before, b)

theorem points_concat {α : Type} (steps : List α) (a : α) :
    points (steps ++ [a]) = points steps ++ [(steps, a)] := by
  induction steps with
  | nil => rfl
  | cons b rest ih => simp [points, ih]

theorem filterMap_points_concat {α β : Type} (f : List α × α → Option β) (steps : List α)
    (a : α) :
    (points (steps ++ [a])).filterMap f =
      (points steps).filterMap f ++ (f (steps, a)).toList := by
  rw [points_concat, List.filterMap_append, List.filterMap_cons, List.filterMap_nil]
  cases f (steps, a) <;> rfl

namespace Session

variable {σ τ : Type} {s s' : Session} {a : ProjectId}

/-- No question about a project tells the two sessions apart. -/
structure AnswersAlike (a : ProjectId) (s s' : Session) : Prop where
  pending : s.isPending a = s'.isPending a
  lastImport : (s.project? a).map (·.lastImport) = (s'.project? a).map (·.lastImport)
  status : s.status a = s'.status a
  metadata : ∀ fs item, s.resolve fs a item = s'.resolve fs a item
  hasMetadata : ∀ fs item, s.hasMetadata fs a item = s'.hasMetadata fs a item
  field : ∀ fs item f, s.field fs a item f = s'.field fs a item f
  report : ∀ fs item, s.report fs a item = s'.report fs a item

theorem AnswersAlike.refl (a : ProjectId) (s : Session) : AnswersAlike a s s where
  pending := rfl
  lastImport := rfl
  status := rfl
  metadata := fun _ _ => rfl
  hasMetadata := fun _ _ => rfl
  field := fun _ _ _ => rfl
  report := fun _ _ => rfl

theorem report_handle (trigger : Trigger τ) (s : Session) (c : Completion) (t : τ) :
    (s.handle trigger c t).1 = (s.accept c).1 := by
  simp only [handle]
  split <;> rfl

theorem session_handle (trigger : Trigger τ) (s : Session) (c : Completion) (t : τ) :
    (s.handle trigger c t).2.1 = (s.accept c).2 := by
  simp only [handle]
  split <;> rfl

theorem queue_handle (trigger : Trigger τ) (s : Session) (c : Completion) (t : τ) :
    (s.handle trigger c t).2.2 =
      if (s.accept c).1.any (·.changed) then (trigger c.project t).2 else t := by
  simp only [handle]
  split <;> rfl

theorem project_of_accept {s : Session} {c : Completion} {f : Finished}
    (h : (s.accept c).1 = some f) : f.project = c.project := by
  by_cases hc : s.Awaits c
  · obtain ⟨p, hp, hg⟩ := hc
    rw [accept_of_awaits hp hg] at h
    exact congrArg Finished.project (Option.some.inj h).symm
  · rw [accept_of_not_awaits hc] at h
    cases h

def History.report? (trigger : Trigger τ) (h : History τ) : Move τ → Option Finished
  | .event e => (h.session.next trigger h.queue e).1
  | .listener _ => none

/-- The reports on accepted completions, in their order. -/
def reports (trigger : Trigger τ) (queue : τ) (moves : List (Move τ)) : List Finished :=
  (points moves).filterMap fun (before, m) =>
    (History.after trigger queue before).report? trigger m

theorem after_concat (trigger : Trigger τ) (queue : τ) (moves : List (Move τ)) (m : Move τ) :
    History.after trigger queue (moves ++ [m]) =
      (History.after trigger queue moves).step trigger m := by
  simp only [History.after, List.foldl_append, List.foldl_cons, List.foldl_nil]

theorem reports_concat (trigger : Trigger τ) (queue : τ) (moves : List (Move τ)) (m : Move τ) :
    reports trigger queue (moves ++ [m]) = reports trigger queue moves ++
      ((History.after trigger queue moves).report? trigger m).toList :=
  filterMap_points_concat _ moves m

def Move.event? : Move τ → Option Event
  | .event e => some e
  | .listener _ => none

def events (moves : List (Move τ)) : List Event := moves.filterMap Move.event?

theorem events_concat (moves : List (Move τ)) (m : Move τ) :
    events (moves ++ [m]) = events moves ++ m.event?.toList := by
  cases m <;> simp [events, Move.event?]

/-- Nobody is told anything. -/
def untold : Trigger Unit := fun _ t => (.ok (), t)

def bare (moves : List (Move τ)) : List (Move Unit) := (events moves).map .event

theorem bare_concat_event (moves : List (Move τ)) (e : Event) :
    bare (moves ++ [.event e]) = bare moves ++ [.event e] := by
  simp [bare, events_concat, Move.event?]

theorem bare_concat_listener (moves : List (Move τ)) (f : τ → τ) :
    bare (moves ++ [.listener f]) = bare moves := by
  simp [bare, events_concat, Move.event?]

/-- A request is made after the import is settled, and its result is not looked at. -/
theorem next_untold (trigger : Trigger τ) (s : Session) (t : τ) (e : Event) :
    (s.next trigger t e).1 = (s.next untold () e).1 ∧
      (s.next trigger t e).2.1 = (s.next untold () e).2.1 := by
  cases e with
  | completion c =>
    simp only [next, handle]
    split <;> exact ⟨rfl, rfl⟩
  | attach | detach | reimport | sourceChanged | jobEnded => exact ⟨rfl, rfl⟩

def History.unqueued (h : History τ) : History Unit := ⟨h.session, (), h.started, h.accepted⟩

theorem unqueued_step (trigger : Trigger τ) (h : History τ) (e : Event) :
    (h.step trigger (.event e)).unqueued = h.unqueued.step untold (.event e) := by
  obtain ⟨hreport, hsession⟩ := next_untold trigger h.session h.queue e
  simp only [History.step, History.unqueued, hreport, hsession]

theorem unqueued_after (trigger : Trigger τ) (queue : τ) (moves : List (Move τ)) :
    (History.after trigger queue moves).unqueued = History.after untold () (bare moves) := by
  induction moves using List.reverseRecOn with
  | nil => rfl
  | append_singleton moves m ih =>
    rw [after_concat]
    cases m with
    | event e => rw [unqueued_step, ih, bare_concat_event, after_concat]
    | listener f =>
      rw [bare_concat_listener]
      exact ih

theorem session_after_bare (trigger : Trigger τ) (queue : τ) (moves : List (Move τ)) :
    (History.after trigger queue moves).session = (History.after untold () (bare moves)).session :=
  congrArg History.session (unqueued_after trigger queue moves)

theorem reports_bare (trigger : Trigger τ) (queue : τ) (moves : List (Move τ)) :
    reports trigger queue moves = reports untold () (bare moves) := by
  induction moves using List.reverseRecOn with
  | nil => rfl
  | append_singleton moves m ih =>
    rw [reports_concat, ih]
    cases m with
    | event e =>
      rw [bare_concat_event, reports_concat, History.report?, History.report?,
        (next_untold trigger _ _ e).1, session_after_bare]
    | listener f => rw [bare_concat_listener, History.report?, Option.toList_none, List.append_nil]

/-- Two runs see the same events. Whoever is told of changes in either of them, and whatever becomes
of the requests, the reports are the same, and so are all answers about all projects. -/
theorem refusals_change_nothing (trigger : Trigger σ) (trigger' : Trigger τ) (queue : σ)
    (queue' : τ) (moves : List (Move σ)) (moves' : List (Move τ))
    (hevents : events moves = events moves') :
    reports trigger queue moves = reports trigger' queue' moves' ∧
      ∀ a, AnswersAlike a (History.after trigger queue moves).session
        (History.after trigger' queue' moves').session := by
  have hbare : bare moves = bare moves' := by simp only [bare, hevents]
  refine ⟨?_, fun a => ?_⟩
  · rw [reports_bare trigger, reports_bare trigger', hbare]
  · rw [session_after_bare trigger, session_after_bare trigger', hbare]
    exact .refl a _

/-- The first listener takes what it is told and leaves; the second refuses to be told anything. -/
theorem refusals_change_nothing_refused :
    let a : ProjectId := ⟨"p0"⟩
    let happens : List Event := [.attach a ⟨⟨"/w"⟩, ⟨"/w/db.json"⟩⟩,
      .completion ⟨a, 0, .ok (.ofFiles ∅ [])⟩]
    let refusing : Trigger Unit := fun _ t => (.error .tooMany, t)
    let moves := happens.map .event ++ [.listener fun q => q.receive.2, .listener .close]
    let moves' := happens.map .event
    events moves = events moves' ∧
      reports Trigger.queue (.empty 1) moves = reports refusing () moves' ∧
      AnswersAlike a (History.after Trigger.queue (.empty 1) moves).session
        (History.after refusing () moves').session ∧
      reports refusing () moves' = [⟨a, .merged true, 0, 0⟩] := by
  intro a happens refusing moves moves'
  have hevents : events moves = events moves' := rfl
  obtain ⟨hreports, hanswers⟩ :=
    refusals_change_nothing Trigger.queue refusing (.empty 1) () moves moves' hevents
  exact ⟨hevents, hreports, hanswers a, by decide +kernel⟩

end Session

end CompileIndex
