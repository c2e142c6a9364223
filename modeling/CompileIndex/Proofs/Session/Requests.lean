import CompileIndex.Proofs.Session.Reports

/-!
# What becomes of requests for re-analysis

A session requests the re-analysis of every project that a merge changes. The requests wait in a
queue with a limited number of places until the listener takes them, or leaves.
-/
namespace CompileIndex

namespace RequestQueue

variable {α : Type}

theorem request_refused {q : RequestQueue α}
    (h : q.listening = false ∨ q.capacity ≤ q.waiting.length) (a : α) : (q.request a).2 = q := by
  unfold request
  split
  · rfl
  · next hl =>
    have hc : q.capacity ≤ q.waiting.length := h.resolve_left (by simpa using hl)
    rw [if_pos hc]

theorem request_accepted {q : RequestQueue α} (hl : q.listening = true)
    (hc : q.waiting.length < q.capacity) (a : α) :
    (q.request a).2 = { q with waiting := q.waiting ++ [a] } := by
  have hnot : ¬ q.capacity ≤ q.waiting.length := Nat.not_le.mpr hc
  simp [request, hl, hnot]

end RequestQueue

namespace Session

/-- A step of a session and of the one who listens to its requests. -/
inductive Step
  | event (e : Event)
  | receive
  | leave

namespace Step

def move : Step → Move (RequestQueue ProjectId)
  | .event e => .event e
  | .receive => .listener fun q => q.receive.2
  | .leave => .listener .close

def isLeave : Step → Bool
  | .leave => true
  | .event _ | .receive => false

end Step

/-- A merge that changed its project, and what it met: the requests that were waiting, and whether
the listener had left. -/
structure Change where
  project : ProjectId
  waiting : Nat
  left : Bool
  deriving DecidableEq, Repr

/-- The change came when all places were taken, or when nobody was there to hear of it. -/
def Change.missed (places : Nat) (c : Change) : Bool := c.waiting = places || c.left

/-- The session and its queue after these steps, when no project was attached before them. -/
def told (places : Nat) (steps : List Step) : History (RequestQueue ProjectId) :=
  History.after Trigger.queue (.empty places) (steps.map Step.move)

def change? (h : History (RequestQueue ProjectId)) (x : Step) : Option Finished :=
  (h.report? Trigger.queue x.move).filter (·.changed)

def changes (places : Nat) (steps : List Step) : List Change :=
  (points steps).filterMap fun (before, x) =>
    (change? (told places before) x).map fun f =>
      ⟨f.project, (told places before).queue.waiting.length, before.any Step.isLeave⟩

def received (places : Nat) (steps : List Step) : List ProjectId :=
  (points steps).filterMap fun (before, x) =>
    match x with
    | .receive => (told places before).queue.receive.1
    | .event _ | .leave => none

def lost (places : Nat) (steps : List Step) : List ProjectId :=
  (points steps).flatMap fun (before, x) =>
    if x.isLeave then (told places before).queue.waiting else []

variable {places : Nat} {steps : List Step}

theorem told_concat (places : Nat) (steps : List Step) (x : Step) :
    told places (steps ++ [x]) = (told places steps).step Trigger.queue x.move := by
  rw [told, List.map_append, List.map_singleton, after_concat]
  rfl

theorem changes_concat (places : Nat) (steps : List Step) (x : Step) :
    changes places (steps ++ [x]) = changes places steps ++
      ((change? (told places steps) x).map fun f =>
        (⟨f.project, (told places steps).queue.waiting.length, steps.any Step.isLeave⟩ :
          Change)).toList :=
  filterMap_points_concat _ steps x

theorem received_concat_receive (places : Nat) (steps : List Step) :
    received places (steps ++ [.receive]) =
      received places steps ++ (told places steps).queue.receive.1.toList :=
  filterMap_points_concat _ steps .receive

theorem received_concat_other {x : Step} (h : x ≠ .receive) :
    received places (steps ++ [x]) = received places steps := by
  rw [received, filterMap_points_concat]
  cases x with
  | receive => exact absurd rfl h
  | event | leave => exact List.append_nil _

theorem lost_concat (places : Nat) (steps : List Step) (x : Step) :
    lost places (steps ++ [x]) = lost places steps ++
      if x.isLeave then (told places steps).queue.waiting else [] := by
  simp only [lost, points_concat, List.flatMap_append, List.flatMap_cons, List.flatMap_nil,
    List.append_nil]

/-- The session turns to its queue for a change, and for nothing else. -/
theorem queue_event (h : History (RequestQueue ProjectId)) (e : Event) :
    (h.step Trigger.queue (.event e)).queue =
      (change? h (.event e)).elim h.queue fun f => (h.queue.request f.project).2 := by
  cases e with
  | attach | detach | reimport | sourceChanged | jobEnded => rfl
  | completion c =>
    change (h.session.handle Trigger.queue c h.queue).2.2 =
      ((h.session.handle Trigger.queue c h.queue).1.filter (·.changed)).elim _ _
    rw [queue_handle, report_handle]
    cases hf : (h.session.accept c).1 with
    | none => rfl
    | some f =>
      cases hchanged : f.changed <;>
        simp [Option.filter_some, hchanged, Trigger.queue, project_of_accept hf]

/-- All changes are accounted for: each was missed, or its request was received, is lost, or
waits. -/
structure Kept (places : Nat) (q : RequestQueue ProjectId) (received lost : List ProjectId)
    (changes : List Change) (left : Bool) : Prop where
  capacity : q.capacity = places
  listening : q.listening = !left
  bounded : q.waiting.length ≤ places
  emptied : left = true → q.waiting = []
  unlost : left = false → lost = []
  account : received ++ lost ++ q.waiting =
    (changes.filter (!·.missed places)).map (·.project)

variable {q : RequestQueue ProjectId} {taken gone : List ProjectId} {cs : List Change} {left : Bool}

theorem missed_iff {c : Change} : c.missed places ↔ c.waiting = places ∨ c.left = true := by
  simp [Change.missed]

theorem Kept.request (hk : Kept places q taken gone cs left) (a : ProjectId) :
    Kept places (q.request a).2 taken gone (cs ++ [⟨a, q.waiting.length, left⟩]) left := by
  by_cases hmissed : (⟨a, q.waiting.length, left⟩ : Change).missed places
  · have hrefused : (q.request a).2 = q := by
      refine RequestQueue.request_refused ?_ a
      have hcapacity := hk.capacity
      rcases missed_iff.mp hmissed with hfull | rfl
      · exact .inr (by dsimp only at hfull; omega)
      · exact .inl hk.listening
    rw [hrefused]
    exact { hk with account := by simpa [hmissed] using hk.account }
  · have hfull : q.waiting.length ≠ places := fun h => hmissed (missed_iff.mpr (.inl h))
    have hhere : left = false := Bool.eq_false_iff.mpr fun h => hmissed (missed_iff.mpr (.inr h))
    subst hhere
    have hbounded := hk.bounded
    have hcapacity := hk.capacity
    rw [RequestQueue.request_accepted hk.listening (by omega)]
    constructor
    case capacity => exact hk.capacity
    case listening => exact hk.listening
    case bounded =>
      rw [List.length_append, List.length_singleton]
      omega
    case emptied => simp
    case unlost => exact hk.unlost
    case account => simp [hmissed, ← hk.account]

theorem Kept.receive (hk : Kept places q taken gone cs left) :
    Kept places q.receive.2 (taken ++ q.receive.1.toList) gone cs left := by
  cases hw : q.waiting with
  | nil => simpa [RequestQueue.receive, hw] using hk
  | cons a rest =>
    -- Something waits, so the listener has not left, and nothing is lost so far.
    have hstays : left = false := by
      by_contra hleft
      have hnone := hk.emptied (by simpa using hleft)
      simp [hw] at hnone
    have hbounded := hk.bounded
    have haccount := hk.account
    rw [hw] at hbounded haccount
    rw [RequestQueue.receive, hw]
    constructor
    case capacity => exact hk.capacity
    case listening => exact hk.listening
    case bounded => exact Nat.le_of_succ_le hbounded
    case emptied => simp [hstays]
    case unlost => exact hk.unlost
    case account => simpa [hk.unlost hstays] using haccount

theorem Kept.leave (hk : Kept places q taken gone cs left) :
    Kept places q.close taken (gone ++ q.waiting) cs true where
  capacity := hk.capacity
  listening := rfl
  bounded := Nat.zero_le _
  emptied := fun _ => rfl
  unlost := by simp
  account := by simpa [RequestQueue.close] using hk.account

theorem kept_told (places : Nat) (steps : List Step) :
    Kept places (told places steps).queue (received places steps) (lost places steps)
      (changes places steps) (steps.any Step.isLeave) := by
  induction steps using List.reverseRecOn with
  | nil => exact ⟨rfl, rfl, Nat.zero_le _, fun _ => rfl, fun _ => rfl, rfl⟩
  | append_singleton steps x ih =>
    rw [told_concat, lost_concat, changes_concat, List.any_append]
    cases x with
    | event e =>
      rw [received_concat_other (by simp), Step.move, queue_event]
      simp only [List.any_cons, Step.isLeave, Bool.false_eq_true, if_false, List.append_nil,
        List.any_nil, Bool.or_false]
      cases change? (told places steps) (.event e) with
      | none => simpa using ih
      | some f => exact ih.request f.project
    | receive =>
      rw [received_concat_receive]
      simpa [Step.isLeave, change?, History.report?, Step.move, History.step] using ih.receive
    | leave =>
      rw [received_concat_other (by simp)]
      simpa [Step.isLeave, change?, History.report?, Step.move, History.step] using ih.leave

theorem projects_changes (places : Nat) (steps : List Step) :
    (changes places steps).map (·.project) =
      ((reports Trigger.queue (.empty places) (steps.map Step.move)).filter (·.changed)).map
        (·.project) := by
  induction steps using List.reverseRecOn with
  | nil => rfl
  | append_singleton steps x ih =>
    rw [changes_concat, List.map_append, ih, List.map_append, List.map_singleton, reports_concat,
      List.filter_append, List.map_append, change?, told]
    cases History.report? Trigger.queue _ x.move with
    | none => rfl
    | some f => cases hf : f.changed <;> simp [Option.filter_some, hf]

/-- The projects whose requests were received, those whose requests were lost because they waited
when the listener left, and those whose requests wait are, in this order, the projects that were
changed by a merge, without the changes that came while all places were taken or after the listener
had left. No more requests wait than there are places, and nothing but a change makes a request. -/
theorem requests_accounted (places : Nat) (steps : List Step) :
    let now := told places steps
    received places steps ++ lost places steps ++ now.queue.waiting =
      ((changes places steps).filter (!·.missed places)).map (·.project) ∧
    (changes places steps).map (·.project) =
      ((reports Trigger.queue (.empty places) (steps.map Step.move)).filter (·.changed)).map
        (·.project) ∧
    (¬ steps.any Step.isLeave → lost places steps = []) ∧
    now.queue.waiting.length ≤ places ∧
    ∀ e, ¬ (now.report? Trigger.queue (.event e)).any (·.changed) →
      (now.step Trigger.queue (.event e)).queue = now.queue := by
  intro now
  have hk := kept_told places steps
  refine ⟨hk.account, projects_changes places steps, fun h => hk.unlost (by simpa using h),
    hk.bounded, fun e he => ?_⟩
  have hnone : change? now (.event e) = none :=
    Option.filter_eq_none_iff.mpr fun f hf hchanged =>
      he ((Option.any_eq_true _ _).mpr ⟨f, hf, hchanged⟩)
  rw [queue_event, hnone, Option.elim_none]

/-- A request that waits when the listener leaves is neither received nor waiting any more. -/
theorem waiting_lost_on_leaving :
    let a : ProjectId := ⟨"p0"⟩
    let steps : List Step := [.event (.attach a ⟨⟨"/w"⟩, ⟨"/w/db.json"⟩⟩),
      .event (.completion ⟨a, 0, .ok (.ofFiles ∅ [])⟩), .leave]
    received 1 steps ++ (told 1 steps).queue.waiting ≠
      ((changes 1 steps).filter (!·.missed 1)).map (·.project) := by
  decide +kernel

end Session

end CompileIndex
