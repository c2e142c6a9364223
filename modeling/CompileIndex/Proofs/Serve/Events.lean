import CompileIndex.Proofs.Serve.Replies

/-!
# Events in order

Besides replies, a service writes what comes of completions and passes requests for re-analysis on.
A request waits until its turn comes, but it is made where its import is reported: in the output it
never comes before this report.
-/
namespace CompileIndex

theorem RequestQueue.waiting_request_sublist {α : Type} (q : RequestQueue α) (a : α) :
    (q.request a).2.waiting.Sublist (q.waiting ++ [a]) := by
  unfold request
  split
  · exact List.sublist_append_left _ _
  · split
    · exact List.sublist_append_left _ _
    · exact List.Sublist.refl _

namespace Session

/-- The report on what a session is given; there is none on a line or a discarded completion. -/
def verdict? (s : Session) : Input → Option Finished
  | .line _ _ => none
  | .completion c => (s.accept c).1

/-- The reports on all that a session is given, in their order. -/
def verdicts (project : ProjectId) (root : Path) (s : Session) (inputs : List Input) :
    List Finished :=
  (points inputs).filterMap fun (before, input) =>
    (before.foldl (take project root) s).verdict? input

variable {s s' : Session}

theorem verdicts_concat (project : ProjectId) (root : Path) (s : Session) (inputs : List Input)
    (input : Input) :
    s.verdicts project root (inputs ++ [input]) = s.verdicts project root inputs ++
      ((inputs.foldl (take project root) s).verdict? input).toList :=
  filterMap_points_concat _ inputs input

theorem SameBooks.verdict? (h : SameBooks s s') (input : Input) :
    s.verdict? input = s'.verdict? input := by
  cases input with
  | line fs text => rfl
  | completion c => exact (h.accept c).1

end Session

namespace Service

def finished? : Output → Option Finished
  | .importFinished f => some f
  | _ => none

def reanalyzed? : Output → Option ProjectId
  | .reanalyze a => some a
  | _ => none

def imports (written : List Output) : List Finished := written.filterMap finished?

def reanalyzed (written : List Output) : List ProjectId := written.filterMap reanalyzed?

/-- The projects that were changed, by the reports on imports among what is written. -/
def changedProjects (written : List Output) : List ProjectId :=
  ((imports written).filter (·.changed)).map (·.project)

variable {s : Service} {h : Happening} {written os : List Output} {q : RequestQueue ProjectId}
  {waiting : List ProjectId} {o : Output}

theorem finished?_of_reply (ho : o.isEvent = false) : finished? o = none := by
  cases o <;> first | rfl | cases ho

theorem reanalyzed?_of_reply (ho : o.isEvent = false) : reanalyzed? o = none := by
  cases o <;> first | rfl | cases ho

def verdict? (s : Service) (h : Happening) : Option Finished :=
  (s.given? h).bind s.workspace.session.verdict?

/-- All that can be written when something happens, with the requests that wait then. -/
inductive Writes (s : Service) (h : Happening) : List Output → RequestQueue ProjectId → Prop
  | nothing (hv : s.verdict? h = none) : Writes s h [] s.workspace.requests
  | reply (o : Output) (ho : o.isEvent = false) (hv : s.verdict? h = none) :
    Writes s h [o] s.workspace.requests
  | report (f : Finished) (hv : s.verdict? h = some f) :
    Writes s h [.importFinished f] (if f.changed then (s.workspace.requests.request f.project).2
      else s.workspace.requests)
  | request (a : ProjectId) (rest : List ProjectId) (hv : s.verdict? h = none)
      (hq : s.workspace.requests.waiting = a :: rest) :
    Writes s h [.reanalyze a] { s.workspace.requests with waiting := rest }

theorem writes_line (hs : s.serving = true) (env : Shell.Environment) (fs : FileSystem)
    (line : String) :
    Writes s (.turn env fs (.line line)) (s.answer fs line).1
      (s.answer fs line).2.workspace.requests := by
  have hv : s.verdict? (.turn env fs (.line line)) = none := by
    rw [verdict?, given?_line hs]
    rfl
  cases hblank : isBlankLine line with
  | true =>
    rw [answer_of_blank hblank]
    exact .nothing hv
  | false =>
    cases hquits : quits line with
    | true =>
      rw [answer_of_quits hquits]
      exact .nothing hv
    | false =>
      obtain ⟨o, _, ho, hanswer⟩ := @answer_of_question s fs line hs hblank hquits
      rw [hanswer]
      split
      · exact .reply o ho hv
      · exact .nothing hv

theorem writes_completion (hs : s.serving = true) (env : Shell.Environment) (fs : FileSystem) :
    Writes s (.turn env fs .completion)
      ((s.workspace.handleNext.1.bind (·.2)).map .importFinished).toList
      s.workspace.handleNext.2.requests := by
  have hv : s.verdict? (.turn env fs .completion) =
      s.workspace.arrived.head?.bind fun c => (s.workspace.session.accept c).1 := by
    rw [verdict?, given?_completion hs, Option.bind_map]
    rfl
  cases harrived : s.workspace.arrived with
  | nil =>
    simp only [Workspace.handleNext, harrived]
    exact .nothing (by simp [hv, harrived])
  | cons c rest =>
    rw [harrived, List.head?_cons, Option.bind_some] at hv
    simp only [Workspace.handleNext, harrived, Workspace.deliver, Session.report_handle,
      Session.queue_handle, Option.bind_some]
    cases hf : (s.workspace.session.accept c).1 with
    | none => exact .nothing (hv.trans hf)
    | some f =>
      have hproject := Session.project_of_accept hf
      simp only [Option.any_some, Trigger.queue, ← hproject]
      exact .report f (hv.trans hf)

theorem writes_request (env : Shell.Environment) (fs : FileSystem) :
    Writes s (.turn env fs .request) (s.workspace.receive.1.map .reanalyze).toList
      s.workspace.receive.2.requests := by
  have hv : s.verdict? (.turn env fs .request) = none := by
    rw [verdict?, given?_request]
    rfl
  cases hq : s.workspace.requests.waiting with
  | nil =>
    simp only [Workspace.receive, RequestQueue.receive, hq]
    exact .nothing hv
  | cons a rest =>
    simp only [Workspace.receive, RequestQueue.receive, hq]
    exact .request a rest hv hq

theorem writes_happen (s : Service) (h : Happening) :
    Writes s h (s.happen h).1 (s.happen h).2.workspace.requests := by
  cases h with
  | arrival c => exact .nothing (by rw [verdict?, given?_arrival]; rfl)
  | turn env fs t =>
    cases hs : s.serving with
    | false =>
      rw [happen_of_stopped hs]
      exact .nothing (by rw [verdict?, given?_of_stopped hs]; rfl)
    | true =>
      cases t with
      | line text =>
        rw [happen_line hs]
        exact writes_line hs env fs text
      | job job =>
        have hrequests : (s.workspace.finishJob env fs job).requests = s.workspace.requests := by
          rw [Workspace.finishJob]
          split <;> rfl
        rw [happen_job hs, hrequests]
        exact .nothing (by rw [verdict?, given?_job]; rfl)
      | completion =>
        rw [happen_completion hs]
        exact writes_completion hs env fs
      | request =>
        rw [happen_request hs]
        exact writes_request env fs

/-! ## Reports on imports -/

theorem imports_append (written os : List Output) :
    imports (written ++ os) = imports written ++ imports os :=
  List.filterMap_append

theorem Writes.imports_eq (hw : Writes s h os q) : imports os = (s.verdict? h).toList := by
  cases hw with
  | nothing hv => rw [hv]; rfl
  | reply o ho hv => simp [imports, finished?_of_reply ho, hv]
  | report f hv => rw [hv]; rfl
  | request a rest hv hq => rw [hv]; rfl

theorem imports_live (hs : s.serving = true) (happened : List Happening) :
    imports (s.live happened).1 =
      s.workspace.session.verdicts s.project s.root (s.handled happened) := by
  induction happened using List.reverseRecOn with
  | nil => rfl
  | append_singleton before h ih =>
    have hfollows : Follows s before (s.live before).2 := follows_live hs before
    rw [live_concat, imports_append, ih, (writes_happen _ h).imports_eq, handled_concat, verdict?]
    cases (s.live before).2.given? h with
    | none => simp
    | some input =>
      rw [Option.toList_some, Session.verdicts_concat, Option.bind_some,
        hfollows.session.verdict? input]

/-! ## Requests for re-analysis -/

theorem reanalyzed_append (written os : List Output) :
    reanalyzed (written ++ os) = reanalyzed written ++ reanalyzed os :=
  List.filterMap_append

theorem changedProjects_append (written os : List Output) :
    changedProjects (written ++ os) = changedProjects written ++ changedProjects os := by
  simp only [changedProjects, imports_append, List.filter_append, List.map_append]

/-- All requests that were passed on, and after them those that wait, were reported as changes in
this order, at the end of the output and at every point before. -/
structure Announced (written : List Output) (waiting : List ProjectId) : Prop where
  before : ∀ p, p <+: written → (reanalyzed p).Sublist (changedProjects p)
  now : (reanalyzed written ++ waiting).Sublist (changedProjects written)

theorem announced_nil : Announced [] [] where
  before := by
    intro p hp
    obtain rfl := List.prefix_nil.mp hp
    exact .slnil
  now := .slnil

theorem Announced.concat (ha : Announced written waiting) {waiting' : List ProjectId}
    (hnow : (reanalyzed (written ++ [o]) ++ waiting').Sublist (changedProjects (written ++ [o]))) :
    Announced (written ++ [o]) waiting' where
  before := by
    intro p hp
    rcases List.prefix_concat_iff.mp hp with rfl | hp
    · exact (List.sublist_append_left _ _).trans hnow
    · exact ha.before p hp
  now := hnow

theorem Announced.writes (ha : Announced written s.workspace.requests.waiting)
    (hw : Writes s h os q) : Announced (written ++ os) q.waiting := by
  have hnow := ha.now
  cases hw with
  | nothing hv => rwa [List.append_nil]
  | reply o ho hv =>
    refine ha.concat ?_
    simpa [reanalyzed_append, changedProjects_append, reanalyzed, changedProjects, imports,
      finished?_of_reply ho, reanalyzed?_of_reply ho] using hnow
  | report f hv =>
    have hreanalyzed : reanalyzed [.importFinished f] = [] := rfl
    have hchanges : changedProjects [.importFinished f] =
        ([f].filter (·.changed)).map (·.project) := rfl
    refine ha.concat ?_
    rw [reanalyzed_append, changedProjects_append, hreanalyzed, hchanges, List.append_nil]
    cases hchanged : f.changed with
    | false => simpa [hchanged] using hnow
    | true =>
      have hqueued := s.workspace.requests.waiting_request_sublist f.project
      have hgrown := hqueued.append_left (reanalyzed written)
      rw [← List.append_assoc] at hgrown
      simpa [hchanged] using hgrown.trans (hnow.append_right [f.project])
  | request a rest hv hq =>
    have hreanalyzed : reanalyzed [.reanalyze a] = [a] := rfl
    have hchanges : changedProjects [.reanalyze a] = [] := rfl
    refine ha.concat ?_
    rw [hq] at hnow
    rw [reanalyzed_append, changedProjects_append, hreanalyzed, hchanges, List.append_nil,
      List.append_assoc, List.singleton_append]
    exact hnow

theorem announced_live (hempty : s.workspace.requests.waiting = []) (happened : List Happening) :
    Announced (s.live happened).1 (s.live happened).2.workspace.requests.waiting := by
  induction happened using List.reverseRecOn with
  | nil =>
    change Announced [] s.workspace.requests.waiting
    rw [hempty]
    exact announced_nil
  | append_singleton before h ih =>
    rw [live_concat]
    exact ih.writes (writes_happen _ h)

/-- Each accepted completion is reported once, in the order in which the completions were handled,
and nothing else is reported. When no request waits at first, then at every point of the output the
projects of the requests that were passed on are, in their order, among those that were reported as
changed before; so no project is passed on more often than it was reported as changed. -/
theorem events_in_order (session : Session) (arrived : List Completion) (capacity : Nat)
    (project : ProjectId) (root : Path) (hs : List Happening) :
    let s : Service := ⟨⟨session, arrived, .empty capacity⟩, project, root, true⟩
    let written := (s.live hs).1
    imports written = session.verdicts project root (s.handled hs) ∧
      ∀ p, p <+: written →
        (reanalyzed p).Sublist (changedProjects p) ∧
        ∀ a, (reanalyzed p).count a ≤ (changedProjects p).count a := by
  intro s written
  have hannounced : Announced written (s.live hs).2.workspace.requests.waiting :=
    announced_live rfl hs
  refine ⟨imports_live rfl hs, fun p hp => ?_⟩
  have hsub := hannounced.before p hp
  exact ⟨hsub, fun a => hsub.count_le a⟩

end Service

end CompileIndex
