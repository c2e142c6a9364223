import CompileIndex.Proofs.Session.Tickets
import CompileIndex.Session.Workspace

/-!
# Traffic between a session and its jobs

The host calls the session, jobs come to their end, and their completions wait to be handled. A
job that is called off may already be on its way to deliver, so that its completion arrives all the
same, at any later time. Nothing but jobs delivers completions. No import is lost on the way.
-/
namespace CompileIndex

/-- How the work of a job ends. -/
inductive Job.Ending
  | parsed (env : Shell.Environment) (fs : FileSystem)
  | panicked

def Job.deliver (job : Job) : Job.Ending → Completion
  | .parsed env fs => job.run env fs
  | .panicked => ⟨job.project, job.generation, .error .taskFailed⟩

@[simp] theorem Job.ticket_deliver (job : Job) (ending : Job.Ending) :
    (job.deliver ending).ticket = job.ticket := by
  cases ending <;> rfl

namespace Session

variable {τ : Type}

structure Traffic (τ : Type) where
  history : History τ
  /-- Jobs that were called off and may still deliver. -/
  calledOff : List Job
  /-- Completions that wait to be handled, oldest first. -/
  arrived : List Completion
  /-- The jobs that have delivered, each with the end it came to. -/
  ended : List (Job × Job.Ending)

namespace Traffic

def session (w : Traffic τ) : Session := w.history.session

/-- The tickets for which something is under way: a job that was not called off, or a completion. -/
def carriers (w : Traffic τ) : List Ticket :=
  w.session.running.map (·.ticket) ++ w.arrived.map (·.ticket)

inductive Move (τ : Type)
  | call (call : Call)
  | ended (job : Job) (ending : Job.Ending)
  /-- A job delivers although it was called off. -/
  | overtaken (job : Job) (ending : Job.Ending)
  /-- A job that was called off is gone without a word. -/
  | gone (job : Job)
  /-- The oldest completion is handled. -/
  | handled
  | listener (f : τ → τ)

/-- The traffic after a move. Moves that cannot be made change nothing. -/
def step (trigger : Trigger τ) (w : Traffic τ) : Move τ → Traffic τ
  | .call call =>
    if call.Allowed w.session then
      let history := w.history.step trigger (.event call.event)
      let stopped := w.session.running.filter (· ∉ history.session.running)
      { w with history, calledOff := w.calledOff ++ stopped }
    else w
  | .ended job ending =>
    if job ∈ w.session.running then
      { w with
        history := w.history.step trigger (.event (.jobEnded job))
        arrived := w.arrived ++ [job.deliver ending]
        ended := w.ended ++ [(job, ending)] }
    else w
  | .overtaken job ending =>
    if job ∈ w.calledOff then
      { w with
        calledOff := w.calledOff.erase job
        arrived := w.arrived ++ [job.deliver ending]
        ended := w.ended ++ [(job, ending)] }
    else w
  | .gone job => { w with calledOff := w.calledOff.erase job }
  | .handled =>
    match w.arrived with
    | [] => w
    | c :: rest =>
      { w with history := w.history.step trigger (.event (.completion c)), arrived := rest }
  | .listener f => { w with history := w.history.step trigger (.listener f) }

def start (queue : τ) : Traffic τ := ⟨.start queue, [], [], []⟩

/-- The traffic after these moves, when no project was attached before them. -/
def after (trigger : Trigger τ) (queue : τ) (moves : List (Move τ)) : Traffic τ :=
  moves.foldl (step trigger) (start queue)

end Traffic

/-- A completion that a job of the session has delivered. -/
def Delivered (w : Traffic τ) (c : Completion) : Prop :=
  ∃ job ∈ w.history.started, ∃ ending, (job, ending) ∈ w.ended ∧ c = job.deliver ending

/-- Every awaited import is under way exactly once, and nothing else is that still counts. -/
structure Carried (w : Traffic τ) : Prop where
  accounted : Accounted w.history
  settled : Settled w.history
  running_expected : ∀ job ∈ w.session.running, w.session.expects job.ticket
  calledOff_started : ∀ job ∈ w.calledOff, job ∈ w.history.started
  calledOff_unexpected : ∀ job ∈ w.calledOff, ¬ w.session.expects job.ticket
  arrived_delivered : ∀ c ∈ w.arrived, Delivered w c
  accepted_delivered : ∀ c ∈ w.history.accepted, Delivered w c
  one_carrier : ∀ t, w.session.expects t → w.carriers.count t = 1

variable {w w' : Traffic τ} {c : Completion} {job : Job} {s' : Session}

theorem Delivered.mono (hd : Delivered w c) (hs : w.history.started ⊆ w'.history.started)
    (he : w.ended ⊆ w'.ended) : Delivered w' c := by
  obtain ⟨job, hj, ending, hm, hc⟩ := hd
  exact ⟨job, hs hj, ending, he hm, hc⟩

theorem Delivered.before (hd : Delivered w c) (hh : Accounted w.history) :
    c.generation < w.session.nextGeneration := by
  obtain ⟨job, hj, ending, -, rfl⟩ := hd
  have hlt : job.generation < w.session.nextGeneration := hh.started_before job hj
  have hg : (job.deliver ending).generation = job.generation :=
    congrArg Prod.snd (job.ticket_deliver ending)
  omega

theorem carried_start (queue : τ) : Carried (Traffic.start queue) where
  accounted := accounted_start queue
  settled := settled_start queue
  running_expected := by simp [Traffic.start, Traffic.session, History.start, empty]
  calledOff_started := by simp [Traffic.start]
  calledOff_unexpected := by simp [Traffic.start]
  arrived_delivered := by simp [Traffic.start]
  accepted_delivered := by simp [Traffic.start, History.start]
  one_carrier := by
    intro t ht
    obtain ⟨p, hp, -⟩ := expects_iff.mp ht
    simp [Traffic.start, Traffic.session, History.start, empty, project?] at hp

theorem Carried.orderly (hw : Carried w) : w.session.Orderly where
  expected := hw.running_expected
  counted := fun job hj => hw.accounted.started_before job (hw.accounted.running_started job hj)

theorem Carried.carrier_before (hw : Carried w) {t : Ticket} (ht : t ∈ w.carriers) :
    t.2 < w.session.nextGeneration := by
  rcases List.mem_append.mp ht with ht | ht
  · obtain ⟨job, hj, rfl⟩ := List.mem_map.mp ht
    exact hw.orderly.counted job hj
  · obtain ⟨c, hc, rfl⟩ := List.mem_map.mp ht
    exact (hw.arrived_delivered c hc).before hw.accounted

theorem Carried.call (hw : Carried w) {ids : List ProjectId}
    (hr : Renews w.session ids s') :
    Carried
      ⟨{ w.history with session := s', started := w.history.started ++ newJobs w.session s' },
        w.calledOff ++ w.session.running.filter (· ∉ s'.running), w.arrived, w.ended⟩ := by
  obtain ⟨source, hrun⟩ := hr.renewed
  have hearlier : ∀ {t : Ticket}, t.2 < w.session.nextGeneration → s'.expects t →
      w.session.expects t := fun hlt h => hr.expects_earlier hlt h
  constructor
  case accounted => exact hw.accounted.schedule hr.toSchedules
  case settled => exact hw.settled.schedule hw.accounted hr.toSchedules
  case running_expected =>
    intro job hj
    change job ∈ s'.running at hj
    rw [hrun] at hj
    rcases List.mem_append.mp hj with hj | hj
    · exact (List.mem_filter.mp hj).2
    · have hm := (mem_tickets_jobsFrom hr.nodup).mp (List.mem_map_of_mem hj)
      exact (hr.expects_iff_new hm.1).mpr hm.2
  case calledOff_started =>
    intro job hj
    rcases List.mem_append.mp hj with hj | hj
    · exact List.mem_append_left _ (hw.calledOff_started job hj)
    · have hrunning := (List.mem_filter.mp hj).1
      exact List.mem_append_left _ (hw.accounted.running_started job hrunning)
  case calledOff_unexpected =>
    intro job hj he
    rcases List.mem_append.mp hj with hj | hj
    · have hlt := hw.accounted.started_before job (hw.calledOff_started job hj)
      exact hw.calledOff_unexpected job hj (hearlier hlt he)
    · obtain ⟨hrunning, hstopped⟩ := List.mem_filter.mp hj
      have hkept : job ∈ s'.running := by
        rw [hrun]
        exact List.mem_append_left _ (List.mem_filter.mpr ⟨hrunning, he⟩)
      exact of_decide_eq_true hstopped hkept
  case arrived_delivered =>
    intro c hc
    exact (hw.arrived_delivered c hc).mono (List.subset_append_left _ _) (List.Subset.refl _)
  case accepted_delivered =>
    intro c hc
    exact (hw.accepted_delivered c hc).mono (List.subset_append_left _ _) (List.Subset.refl _)
  case one_carrier =>
    intro t ht
    change s'.expects t at ht
    change (s'.running.map (·.ticket) ++ w.arrived.map (·.ticket)).count t = 1
    -- What goes on of the old jobs has the ticket `t` as often as before.
    have hold : ((w.session.running.filter fun job => s'.expects job.ticket).map
        (·.ticket)).count t = (w.session.running.map (·.ticket)).count t := by
      have hfilter := List.count_filter (l := w.session.running.map (·.ticket)) ht
      rwa [List.filter_map] at hfilter
    have hcarriers : w.carriers.count t = (w.session.running.map (·.ticket)).count t +
        (w.arrived.map (·.ticket)).count t := List.count_append
    rw [hrun, List.map_append, List.count_append, List.count_append, hold]
    by_cases ha : t.1 ∈ ids
    · have hg := (hr.expects_iff_new ha).mp ht
      have hnew : ((jobsFrom source w.session.nextGeneration ids).map (·.ticket)).count t = 1 :=
        List.count_eq_one_of_mem (nodup_tickets_jobsFrom _ _ _)
          ((mem_tickets_jobsFrom hr.nodup).mpr ⟨ha, hg⟩)
      have hnone : w.carriers.count t = 0 := by
        refine List.count_eq_zero_of_not_mem fun hm => ?_
        have hlt := hw.carrier_before hm
        omega
      omega
    · have hnew : ((jobsFrom source w.session.nextGeneration ids).map (·.ticket)).count t = 0 :=
        List.count_eq_zero_of_not_mem fun hm => ha ((mem_tickets_jobsFrom hr.nodup).mp hm).1
      have hone := hw.one_carrier t (hr.expects_old ha ht)
      omega

theorem newJobs_jobEnded (s : Session) (job : Job) :
    newJobs s { s with running := s.running.erase job } = [] := by
  refine List.filter_eq_nil_iff.mpr fun other ho => ?_
  simpa using List.mem_of_mem_erase ho

theorem step_jobEnded (trigger : Trigger τ) (h : History τ) (job : Job) :
    h.step trigger (.event (.jobEnded job)) =
      { h with session := { h.session with running := h.session.running.erase job } } := by
  have hnext : h.session.next trigger h.queue (.jobEnded job) =
      (none, { h.session with running := h.session.running.erase job }, h.queue) := rfl
  rw [History.step_schedules trigger hnext, newJobs_jobEnded, List.append_nil]

theorem Carried.ended (hw : Carried w) (hj : job ∈ w.session.running) (ending : Job.Ending) :
    Carried
      ⟨{ w.history with session := { w.session with running := w.session.running.erase job } },
        w.calledOff, w.arrived ++ [job.deliver ending], w.ended ++ [(job, ending)]⟩ := by
  have hs := schedules_jobEnded w.history.session job
  constructor
  case accounted =>
    have hh := hw.accounted.schedule hs
    rwa [newJobs_jobEnded, List.append_nil] at hh
  case settled =>
    have hd := hw.settled.schedule hw.accounted hs
    rwa [newJobs_jobEnded, List.append_nil] at hd
  case running_expected =>
    intro other ho
    exact hw.running_expected other (List.mem_of_mem_erase ho)
  case calledOff_started => exact hw.calledOff_started
  case calledOff_unexpected => exact hw.calledOff_unexpected
  case arrived_delivered =>
    intro c hc
    rcases List.mem_append.mp hc with hc | hc
    · exact (hw.arrived_delivered c hc).mono (List.Subset.refl _) (List.subset_append_left _ _)
    · have hstarted := hw.accounted.running_started job hj
      exact ⟨job, hstarted, ending, by simp, List.mem_singleton.mp hc⟩
  case accepted_delivered =>
    intro c hc
    exact (hw.accepted_delivered c hc).mono (List.Subset.refl _) (List.subset_append_left _ _)
  case one_carrier =>
    intro t ht
    have hone := hw.one_carrier t ht
    -- The ticket of the job moves on to its completion.
    have hperm := ((List.perm_cons_erase hj).map (·.ticket)).count_eq t
    simp only [Traffic.carriers, List.map_append, List.map_cons, List.map_nil, List.count_append,
      List.count_cons, List.count_nil, Job.ticket_deliver] at hone hperm ⊢
    change ((w.session.running.erase job).map (·.ticket)).count t + _ = 1
    omega

theorem Carried.overtaken (hw : Carried w) (hj : job ∈ w.calledOff) (ending : Job.Ending) :
    Carried
      { w with
        calledOff := w.calledOff.erase job
        arrived := w.arrived ++ [job.deliver ending]
        ended := w.ended ++ [(job, ending)] } where
  accounted := hw.accounted
  settled := hw.settled
  running_expected := hw.running_expected
  calledOff_started := fun other ho => hw.calledOff_started other (List.mem_of_mem_erase ho)
  calledOff_unexpected := fun other ho => hw.calledOff_unexpected other (List.mem_of_mem_erase ho)
  arrived_delivered := by
    intro c hc
    rcases List.mem_append.mp hc with hc | hc
    · exact (hw.arrived_delivered c hc).mono (List.Subset.refl _) (List.subset_append_left _ _)
    · exact ⟨job, hw.calledOff_started job hj, ending, by simp, List.mem_singleton.mp hc⟩
  accepted_delivered := by
    intro c hc
    exact (hw.accepted_delivered c hc).mono (List.Subset.refl _) (List.subset_append_left _ _)
  one_carrier := by
    intro t ht
    have hone := hw.one_carrier t ht
    have hne : job.ticket ≠ t := by
      rintro rfl
      exact hw.calledOff_unexpected job hj ht
    have hcount : ([job.deliver ending].map (·.ticket)).count t = 0 := by simp [hne]
    simp only [Traffic.carriers, List.map_append, List.count_append] at hone ⊢
    change (w.session.running.map (·.ticket)).count t + _ = 1
    omega

theorem Carried.gone (hw : Carried w) (job : Job) :
    Carried { w with calledOff := w.calledOff.erase job } :=
  { hw with
    calledOff_started := fun other ho => hw.calledOff_started other (List.mem_of_mem_erase ho)
    calledOff_unexpected := fun other ho =>
      hw.calledOff_unexpected other (List.mem_of_mem_erase ho) }

theorem count_carriers_of_arrived {rest : List Completion} (harr : w.arrived = c :: rest)
    {t : Ticket} (hne : t ≠ c.ticket) :
    w.carriers.count t = (w.session.running.map (·.ticket) ++ rest.map (·.ticket)).count t := by
  have hhead : c.ticket ≠ t := Ne.symm hne
  simp [Traffic.carriers, harr, List.count_append, hhead]

/-- The job of a completion that has arrived runs no more. -/
theorem Carried.not_running_of_arrived (hw : Carried w) (hc : c ∈ w.arrived)
    (he : w.session.expects c.ticket) : ∀ job ∈ w.session.running, job.ticket ≠ c.ticket := by
  intro job hj heq
  have hone := hw.one_carrier c.ticket he
  have hrun : 0 < (w.session.running.map (·.ticket)).count c.ticket :=
    List.count_pos_iff.mpr (heq ▸ List.mem_map_of_mem hj)
  have harr : 0 < (w.arrived.map (·.ticket)).count c.ticket :=
    List.count_pos_iff.mpr (List.mem_map_of_mem hc)
  rw [Traffic.carriers, List.count_append] at hone
  omega

theorem Carried.accept (hw : Carried w) {rest : List Completion} (harr : w.arrived = c :: rest)
    {p : Project} (queue : τ) (hp : w.session.project? c.project = some p)
    (hg : p.pending = some c.generation) :
    Carried
      ⟨⟨{ w.session with
            projects := w.session.projects.insert c.project (p.settle c (c.report p.index)) },
          queue, w.history.started, w.history.accepted ++ [c]⟩, w.calledOff, rest, w.ended⟩ := by
  have hmem : c ∈ w.arrived := by simp [harr]
  have hexpects : ∀ t, ({ w.session with
      projects := w.session.projects.insert c.project (p.settle c (c.report p.index)) } :
      Session).expects t ↔ w.session.expects t ∧ t ≠ c.ticket := fun t =>
    expects_settle hp hg rfl
  have hawaited : w.session.expects c.ticket := expects_ticket_iff.mpr ⟨p, hp, hg⟩
  constructor
  case accounted => exact hw.accounted.accept queue hp hg rfl
  case settled => exact hw.settled.accept hw.accounted queue hp hg
  case running_expected =>
    intro job hj
    refine (hexpects job.ticket).mpr ⟨hw.running_expected job hj, ?_⟩
    exact hw.not_running_of_arrived hmem hawaited job hj
  case calledOff_started => exact hw.calledOff_started
  case calledOff_unexpected =>
    intro job hj he
    exact hw.calledOff_unexpected job hj ((hexpects job.ticket).mp he).1
  case arrived_delivered =>
    intro d hd
    exact hw.arrived_delivered d (by simp [harr, show d ∈ rest from hd])
  case accepted_delivered =>
    intro d hd
    rcases List.mem_append.mp hd with hd | hd
    · exact hw.accepted_delivered d hd
    · obtain rfl := List.mem_singleton.mp hd
      exact hw.arrived_delivered d hmem
  case one_carrier =>
    intro t ht
    obtain ⟨ht, hne⟩ := (hexpects t).mp ht
    exact (count_carriers_of_arrived harr hne).symm.trans (hw.one_carrier t ht)

theorem Carried.discard (hw : Carried w) {rest : List Completion} (harr : w.arrived = c :: rest)
    (hc : ¬ w.session.Awaits c) : Carried { w with arrived := rest } :=
  { hw with
    arrived_delivered := fun d hd =>
      hw.arrived_delivered d (by simp [harr, show d ∈ rest from hd])
    one_carrier := by
      intro t ht
      have hne : t ≠ c.ticket := by
        rintro rfl
        exact hc (expects_ticket_iff.mp ht)
      exact (count_carriers_of_arrived harr hne).symm.trans (hw.one_carrier t ht) }

theorem Carried.step (trigger : Trigger τ) (hw : Carried w) (m : Traffic.Move τ) :
    Carried (w.step trigger m) := by
  cases m with
  | call call =>
    rw [Traffic.step]
    split
    · next hc =>
      obtain ⟨ids, s', hr, hnext⟩ := renews_call trigger hw.orderly w.history.queue hc
      rw [History.step_schedules trigger hnext]
      exact hw.call hr
    · exact hw
  | ended job ending =>
    rw [Traffic.step]
    split
    · next hj =>
      rw [step_jobEnded]
      exact hw.ended hj ending
    · exact hw
  | overtaken job ending =>
    rw [Traffic.step]
    split
    · next hj => exact hw.overtaken hj ending
    · exact hw
  | gone job => exact hw.gone job
  | handled =>
    rw [Traffic.step]
    split
    · exact hw
    · next c rest harr =>
      by_cases hc : w.session.Awaits c
      · obtain ⟨p, hp, hg⟩ := hc
        obtain ⟨queue, hstep⟩ := History.step_accepts trigger hp hg
        rw [hstep]
        exact hw.accept harr queue hp hg
      · rw [History.step_discards trigger hc]
        exact hw.discard harr hc
  | listener f =>
    exact { hw with
      accounted := hw.accounted.step trigger (.listener f)
      settled := hw.settled.step trigger hw.accounted (.listener f) }

theorem carried_after (trigger : Trigger τ) (queue : τ) (moves : List (Traffic.Move τ)) :
    Carried (Traffic.after trigger queue moves) := by
  refine List.foldlRecOn moves _ (carried_start queue) fun w hw m _ => ?_
  exact hw.step trigger m

/-- An awaited import is under way exactly once, as a job that was not called off or as a
completion; the other completions of its project are older. Nothing runs for a project that awaits
nothing. Once no job runs and no completion waits, no project awaits anything, and each is as the
latest of its imports has left it. -/
theorem no_import_lost (trigger : Trigger τ) (queue : τ) (moves : List (Traffic.Move τ)) :
    let w := Traffic.after trigger queue moves
    (∀ a p, w.session.project? a = some p →
      (∀ g, p.pending = some g → w.carriers.count (a, g) = 1 ∧
        ∀ c ∈ w.arrived, c.project = a → c.generation ≠ g → c.generation < g) ∧
      (p.pending = none → ∀ job ∈ w.session.running, job.project ≠ a)) ∧
    (w.session.running = [] → w.arrived = [] →
      ∀ a p, w.session.project? a = some p → p.pending = none ∧
        ∃ job ending, (job, ending) ∈ w.ended ∧ job.project = a ∧
          w.history.latest? a = some job.generation ∧ p.SettledBy (job.deliver ending)) := by
  intro w
  have hw : Carried w := carried_after trigger queue moves
  refine ⟨fun a p hp => ⟨fun g hg => ⟨?_, ?_⟩, fun hnone job hj ha => ?_⟩,
    fun hrun harr a p hp => ?_⟩
  · exact hw.one_carrier (a, g) (expects_iff.mpr ⟨p, hp, hg⟩)
  · intro c hc ha hne
    obtain ⟨job, hj, ending, -, rfl⟩ := hw.arrived_delivered c hc
    have ht := job.ticket_deliver ending
    have hproject : job.project = a := (congrArg Prod.fst ht).symm.trans ha
    have hgeneration : (job.deliver ending).generation = job.generation := congrArg Prod.snd ht
    obtain ⟨_, hlatest, _⟩ := (hw.accounted.awaits_iff ⟨a, g, .error .taskFailed⟩).mp ⟨p, hp, hg⟩
    have hle := hw.accounted.started_le_latest hlatest hj hproject
    dsimp only at hle
    omega
  · obtain ⟨q, hq, hg⟩ := expects_iff.mp (hw.running_expected job hj)
    subst ha
    obtain rfl := Option.some.inj (hp.symm.trans hq)
    rw [hnone] at hg
    cases hg
  · have hcarriers : w.carriers = [] := by simp [Traffic.carriers, hrun, harr]
    have hnone : p.pending = none := by
      rw [Option.eq_none_iff_forall_ne_some]
      intro g hg
      have hone := hw.one_carrier (a, g) (expects_iff.mpr ⟨p, hp, hg⟩)
      rw [hcarriers] at hone
      cases hone
    obtain ⟨c, hc, ha, hlatest, hsettled⟩ := hw.settled a p hp hnone
    obtain ⟨job, -, ending, hended, rfl⟩ := hw.accepted_delivered c hc
    have ht := job.ticket_deliver ending
    refine ⟨hnone, job, ending, hended, (congrArg Prod.fst ht).symm.trans ha, ?_, hsettled⟩
    exact hlatest.trans (congrArg (fun t => some t.2) ht)

/-- The completion of an import that was replaced arrives first and is discarded; the import that
replaced it panics, and that is what the project is left with. -/
theorem no_import_lost_overtaken :
    let a : ProjectId := ⟨"p0"⟩
    let layout : Layout := ⟨⟨"/w"⟩, ⟨"/w/db.json"⟩⟩
    let old : Job := ⟨a, 0, ⟨"/w/db.json"⟩⟩
    let new : Job := ⟨a, 1, ⟨"/w/db.json"⟩⟩
    let w := Traffic.after (fun _ t => (.ok (), t)) () [.call (.attach a layout),
      .call (.reimport a), .overtaken old .panicked, .ended new .panicked, .handled, .handled]
    w.session.running = [] ∧ w.arrived = [] ∧ (w.session.project? a).isSome ∧
      ∀ b p, w.session.project? b = some p → p.pending = none ∧
        ∃ job ending, (job, ending) ∈ w.ended ∧ job.project = b ∧
          w.history.latest? b = some job.generation ∧ p.SettledBy (job.deliver ending) := by
  intro a layout old new w
  have hrun : w.session.running = [] := by decide +kernel
  have harr : w.arrived = [] := List.isEmpty_iff.mp (by decide +kernel)
  have ha : (w.session.project? a).isSome := by decide +kernel
  exact ⟨hrun, harr, ha, (no_import_lost _ _ _).2 hrun harr⟩

namespace Traffic

theorem running_handled (trigger : Trigger τ) (w : Traffic τ) :
    (w.step trigger .handled).session.running = w.session.running := by
  rw [step]
  split
  · rfl
  · next c rest harr =>
    by_cases hc : w.session.Awaits c
    · obtain ⟨p, hp, hg⟩ := hc
      obtain ⟨queue, hstep⟩ := History.step_accepts trigger hp hg
      simp only [session, hstep]
    · simp only [session, History.step_discards trigger hc]

/-- The traffic comes to rest whatever the ends are that the running jobs come to. -/
theorem comes_to_rest (trigger : Trigger τ) (w : Traffic τ) (ending : Job → Job.Ending) :
    ∃ moves : List (Move τ), (moves.foldl (step trigger) w).session.running = [] ∧
      (moves.foldl (step trigger) w).arrived = [] := by
  cases hrun : w.session.running with
  | cons job rest =>
    have hj : job ∈ w.session.running := by simp [hrun]
    have hless : (w.step trigger (.ended job (ending job))).session.running = rest := by
      rw [step, if_pos hj, session, step_jobEnded]
      change w.session.running.erase job = rest
      rw [hrun, List.erase_cons_head]
    obtain ⟨moves, hrest⟩ := comes_to_rest trigger (w.step trigger (.ended job (ending job))) ending
    exact ⟨.ended job (ending job) :: moves, hrest⟩
  | nil =>
    cases harr : w.arrived with
    | nil => exact ⟨[], hrun, harr⟩
    | cons c rest =>
      have hless : (w.step trigger .handled).arrived = rest := by
        rw [step]
        simp only [harr]
      have hstill : (w.step trigger .handled).session.running = [] :=
        (running_handled trigger w).trans hrun
      obtain ⟨moves, hrest⟩ := comes_to_rest trigger (w.step trigger .handled) ending
      exact ⟨.handled :: moves, hrest⟩
termination_by (w.session.running.length, w.arrived.length)
decreasing_by
  · rw [hless, hstill, hrun, harr]
    exact Prod.Lex.right _ (by simp)
  · rw [hless, hrun]
    exact Prod.Lex.left _ _ (by simp)

/-- The workspace that the traffic passes through. -/
def workspace (w : Traffic (RequestQueue ProjectId)) : Workspace :=
  ⟨w.session, w.arrived, w.history.queue⟩

theorem workspace_ended (w : Traffic (RequestQueue ProjectId)) (job : Job)
    (env : Shell.Environment) (fs : FileSystem) :
    (w.step Trigger.queue (.ended job (.parsed env fs))).workspace =
      w.workspace.finishJob env fs job := by
  rw [step, Workspace.finishJob]
  by_cases hj : job ∈ w.session.running
  · rw [if_pos hj, if_pos (show job ∈ w.workspace.session.running from hj), step_jobEnded]
    rfl
  · rw [if_neg hj, if_neg (show job ∉ w.workspace.session.running from hj)]

theorem workspace_handled (w : Traffic (RequestQueue ProjectId)) :
    (w.step Trigger.queue .handled).workspace = w.workspace.handleNext.2 := by
  rw [step, Workspace.handleNext]
  have harrived : w.workspace.arrived = w.arrived := rfl
  cases harr : w.arrived with
  | nil => simp only [harrived, harr]
  | cons c rest =>
    simp only [harrived, harr]
    rfl

end Traffic

end Session

end CompileIndex
