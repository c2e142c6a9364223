import CompileIndex.Proofs.Session.Effects
import CompileIndex.Proofs.Session.Reports

/-!
# Projects do not see each other

All projects of a session share one counter of generations, and a changed source concerns them all.
Still a project fares as if it were alone in the session: without the events that concern only other
projects everything about it is the same, but that its imports are numbered without gaps.
-/
namespace CompileIndex

def Job.renumber (f : Nat → Nat) (job : Job) : Job := { job with generation := f job.generation }

def Completion.renumber (f : Nat → Nat) (c : Completion) : Completion :=
  { c with generation := f c.generation }

def Project.renumber (f : Nat → Nat) (p : Project) : Project :=
  { p with pending := p.pending.map f }

namespace Session

variable {τ : Type} {h h' : History τ} {s s' : Session} {a : ProjectId} {f : Nat → Nat}

/-- The event is about the project itself, or may be about any. -/
def Event.concerns (a : ProjectId) : Event → Bool
  | .attach b _ | .detach b | .reimport b => b == a
  | .jobEnded job => job.project == a
  | .completion c => c.project == a
  | .sourceChanged _ _ => true

def Event.renumber (f : Nat → Nat) : Event → Event
  | .jobEnded job => .jobEnded (job.renumber f)
  | .completion c => .completion (c.renumber f)
  | e => e

def Move.concerns (a : ProjectId) : Move τ → Bool
  | .event e => e.concerns a
  | .listener _ => true

def Move.renumber (f : Nat → Nat) : Move τ → Move τ
  | .event e => .event (e.renumber f)
  | .listener g => .listener g

/-- The run without the moves that concern only other projects. -/
def alone (a : ProjectId) (f : Nat → Nat) (moves : List (Move τ)) : List (Move τ) :=
  (moves.filter (·.concerns a)).map (·.renumber f)

theorem starts_renumber (f : Nat → Nat) (e : Event) (p : Option Project) :
    (e.renumber f).starts a (p.map (·.renumber f)) = e.starts a p := by
  cases e with
  | sourceChanged fs path =>
    cases p <;> rfl
  | reimport b => simp [Event.renumber, Event.starts]
  | attach | detach | jobEnded | completion => rfl

theorem effect_of_not_concerns {e : Event} (he : e.concerns a = false) (g : Nat)
    (p : Option Project) : e.effect a g p = p := by
  cases e with
  | sourceChanged fs path => cases he
  | attach b layout => exact if_neg (beq_eq_false_iff_ne.mp he)
  | detach b => exact if_neg (beq_eq_false_iff_ne.mp he)
  | reimport b => exact if_neg (beq_eq_false_iff_ne.mp he)
  | jobEnded job => rfl
  | completion c => exact if_neg (beq_eq_false_iff_ne.mp he)

theorem starts_of_not_concerns {e : Event} (he : e.concerns a = false) (p : Option Project) :
    e.starts a p = false := by
  cases e with
  | sourceChanged fs path => cases he
  | attach b layout => exact he
  | reimport b => exact Bool.and_eq_false_iff.mpr (.inl he)
  | detach | jobEnded | completion => rfl

/-- A generation is of no account to a project whose import is not scheduled. -/
theorem effect_congr {e : Event} {p : Option Project} {g g' : Nat}
    (hg : e.starts a p → g = g') : e.effect a g p = e.effect a g' p := by
  cases e with
  | attach b layout =>
    simp only [Event.effect]
    split
    · next hb => rw [hg (beq_iff_eq.mpr hb)]
    · rfl
  | reimport b =>
    simp only [Event.effect]
    split
    · next hb =>
      cases p with
      | none => rfl
      | some q => rw [hg (by simp [Event.starts, hb])]
    · rfl
  | sourceChanged fs path =>
    cases p with
    | none => rfl
    | some q =>
      simp only [Event.effect, Option.map_some]
      split
      · next hr => rw [hg hr]
      · rfl
  | detach | jobEnded | completion => rfl

theorem effect_renumber (hf : f.Injective) (e : Event) (g : Nat) (p : Option Project) :
    (e.renumber f).effect a (f g) (p.map (·.renumber f)) =
      (e.effect a g p).map (·.renumber f) := by
  cases e with
  | attach b layout =>
    simp only [Event.renumber, Event.effect]
    split <;> rfl
  | detach b =>
    simp only [Event.renumber, Event.effect]
    split <;> rfl
  | reimport b =>
    simp only [Event.renumber, Event.effect]
    split
    · cases p <;> rfl
    · rfl
  | sourceChanged fs path =>
    cases p with
    | none => rfl
    | some q =>
      simp only [Event.renumber, Event.effect, Option.map_some]
      change some (if reads fs path.clean q then _ else _) = _
      split <;> rfl
  | jobEnded job => rfl
  | completion c =>
    simp only [Event.renumber, Event.effect, Completion.renumber]
    split
    · cases p with
      | none => rfl
      | some q =>
        have hpending : (q.renumber f).pending = some (f c.generation) ↔
            q.pending = some c.generation := by
          rw [Project.renumber, ← Option.map_some]
          exact (Option.map_injective hf).eq_iff
        simp only [Option.map_some, hpending]
        split <;> rfl
    · rfl

/-- What the two sessions know of a project is the same, but for the number of its import. -/
def Mirrored (a : ProjectId) (f : Nat → Nat) (s s' : Session) : Prop :=
  s'.project? a = (s.project? a).map (·.renumber f)

theorem Mirrored.answersAlike (hm : Mirrored a f s s') : AnswersAlike a s s' := by
  unfold Mirrored at hm
  have hattached : (s.attached a).map (·.renumber f) = s'.attached a := by
    rw [attached, attached, hm]
    cases s.project? a <;> rfl
  constructor
  case pending =>
    rw [isPending, isPending, hm]
    cases s.project? a <;> simp [Project.renumber]
  case lastImport =>
    rw [hm]
    cases s.project? a <;> rfl
  case status =>
    rw [status, status, ← hattached]
    cases s.attached a <;>
      simp [Except.map, bind, Except.bind, pure, Except.pure, Project.status, Project.renumber]
  case metadata =>
    intro fs item
    rw [resolve, resolve, ← hattached]
    cases s.attached a <;> rfl
  case hasMetadata =>
    intro fs item
    rw [Session.hasMetadata, Session.hasMetadata, ← hattached]
    cases s.attached a <;> rfl
  case field =>
    intro fs item part
    rw [Session.field, Session.field, resolve, resolve, ← hattached]
    cases s.attached a <;> rfl
  case report =>
    intro fs item
    rw [Session.report, Session.report, Session.hasMetadata, Session.hasMetadata, resolve, resolve,
      ← hattached]
    cases s.attached a <;> rfl

theorem Mirrored.awaits_iff (hm : Mirrored a f s s') (hf : f.Injective) {c : Completion}
    (hc : c.project = a) : s'.Awaits (c.renumber f) ↔ s.Awaits c := by
  subst hc
  unfold Mirrored at hm
  simp only [Awaits, Completion.renumber, hm, Option.map_eq_some_iff]
  constructor
  · rintro ⟨_, ⟨p, hp, rfl⟩, hg⟩
    exact ⟨p, hp, Option.map_injective hf hg⟩
  · rintro ⟨p, hp, hg⟩
    exact ⟨_, ⟨p, hp, rfl⟩, congrArg (Option.map f) hg⟩

/-- A completion is accepted or discarded alike, and with the same report. -/
theorem Mirrored.report_accept (hm : Mirrored a f s s') (hf : f.Injective) {c : Completion}
    (hc : c.project = a) : (s'.accept (c.renumber f)).1 = (s.accept c).1 := by
  by_cases h : s.Awaits c
  · obtain ⟨p, hp, hg⟩ := h
    have hp' : s'.project? (c.renumber f).project = some (p.renumber f) := by
      subst hc
      exact hm.trans (congrArg _ hp)
    rw [accept_of_awaits hp hg, accept_of_awaits hp' (congrArg (Option.map f) hg)]
    rfl
  · rw [accept_of_not_awaits h, accept_of_not_awaits (mt (hm.awaits_iff hf hc).mp h)]

/-- The history `h'` is what the history `h` is for a project that is alone in its session. -/
structure Mirrors (a : ProjectId) (f : Nat → Nat) (h h' : History τ) : Prop where
  mirrored : Mirrored a f h.session h'.session
  others : ∀ b, b ≠ a → h'.session.project? b = none
  counted : h'.session.nextGeneration = (h.startedOf a).length
  started : h'.startedOf a = (h.startedOf a).map f
  accepted : h'.accepted = (h.accepted.filter (·.project = a)).map (·.renumber f)

theorem mirrors_start (a : ProjectId) (f : Nat → Nat) (queue : τ) :
    Mirrors a f (History.start queue) (History.start queue) where
  mirrored := by simp [Mirrored, History.start, empty, project?]
  others := by simp [History.start, empty, project?]
  counted := rfl
  started := rfl
  accepted := rfl

theorem scheduled_of_alone {e : Event} (ho : ∀ b, b ≠ a → s.project? b = none)
    (he : e.concerns a) :
    e.scheduled s = if e.starts a (s.project? a) then [a] else [] := by
  have hmem : ∀ b ∈ e.scheduled s, b = a := by
    intro b hb
    by_contra hne
    have hstarts := mem_scheduled_iff.mp hb
    rw [ho b hne] at hstarts
    cases e with
    | attach c layout =>
      exact hne ((beq_iff_eq.mp hstarts).symm.trans (beq_iff_eq.mp he))
    | reimport c => simp [Event.starts] at hstarts
    | sourceChanged | detach | jobEnded | completion => cases hstarts
  split
  · next hs =>
    refine List.perm_singleton.mp ((List.perm_ext_iff_of_nodup (scheduled_nodup s e)
      (List.nodup_singleton a)).mpr fun b => ?_)
    rw [List.mem_singleton]
    exact ⟨hmem b, fun hb => hb ▸ mem_scheduled_iff.mpr hs⟩
  · next hs =>
    refine List.eq_nil_iff_forall_not_mem.mpr fun b hb => ?_
    obtain rfl := hmem b hb
    exact hs (mem_scheduled_iff.mp hb)

theorem accepted_step (trigger : Trigger τ) (h : History τ) (e : Event) :
    (h.step trigger (.event e)).accepted = h.accepted ++
      (e.accepted? (h.session.next trigger h.queue e).1).toList := rfl

/-- Of the events of other projects nothing is kept in what concerns the project. -/
theorem Mirrors.step_other (trigger : Trigger τ) (hm : Mirrors a f h h') (hh : Accounted h)
    {e : Event} (he : e.concerns a = false) : Mirrors a f (h.step trigger (.event e)) h' where
  mirrored := by
    have hproject : (h.step trigger (.event e)).session.project? a = h.session.project? a :=
      (project?_next trigger h.session h.queue e a).trans (effect_of_not_concerns he _ _)
    rw [Mirrored, hproject]
    exact hm.mirrored
  others := hm.others
  counted := by
    rw [startedOf_step trigger hh, starts_of_not_concerns he]
    simpa using hm.counted
  started := by
    rw [startedOf_step trigger hh, starts_of_not_concerns he]
    simpa using hm.started
  accepted := by
    rw [accepted_step]
    cases e with
    | completion c =>
      have hc : c.project ≠ a := beq_eq_false_iff_ne.mp he
      cases (h.session.next trigger h.queue (.completion c)).1 <;>
        simp [Event.accepted?, hc, hm.accepted]
    | attach | detach | reimport | sourceChanged | jobEnded =>
      simpa [Event.accepted?] using hm.accepted

theorem Mirrors.step (trigger : Trigger τ) (hm : Mirrors a f h h') (hh : Accounted h)
    (hh' : Accounted h') (hf : f.Injective) {e : Event} (he : e.concerns a)
    (hnew : e.starts a (h.session.project? a) →
      f (e.generation h.session a) = (h.startedOf a).length) :
    Mirrors a f (h.step trigger (.event e)) (h'.step trigger (.event (e.renumber f))) := by
  have hconcerns : (e.renumber f).concerns a := by cases e <;> exact he
  have hstarts : (e.renumber f).starts a (h'.session.project? a) =
      e.starts a (h.session.project? a) := by
    rw [hm.mirrored]
    exact starts_renumber f e _
  -- With no other project attached, the project has the counter for itself.
  have hscheduled : (e.renumber f).scheduled h'.session =
      if e.starts a (h.session.project? a) then [a] else [] := by
    rw [scheduled_of_alone hm.others hconcerns, hstarts]
  have hgeneration : e.starts a (h.session.project? a) →
      (e.renumber f).generation h'.session a = f (e.generation h.session a) := by
    intro hs
    rw [hnew hs, Event.generation, hscheduled, if_pos hs, hm.counted, List.idxOf_cons_self,
      Nat.add_zero]
  constructor
  case mirrored =>
    change (h'.session.next trigger h'.queue (e.renumber f)).2.1.project? a =
      ((h.session.next trigger h.queue e).2.1.project? a).map (·.renumber f)
    rw [project?_next, project?_next, hm.mirrored, ← effect_renumber hf]
    refine effect_congr fun hs => ?_
    rw [starts_renumber] at hs
    exact hgeneration hs
  case others =>
    intro b hb
    change (h'.session.next trigger h'.queue (e.renumber f)).2.1.project? b = none
    rw [project?_next, hm.others b hb]
    cases e with
    | attach c layout =>
      have hne : c ≠ b := fun hcb => hb (hcb.symm.trans (beq_iff_eq.mp he))
      exact if_neg hne
    | detach c | reimport c | completion c => exact ite_self _
    | sourceChanged | jobEnded => rfl
  case counted =>
    rw [nextGeneration_step, startedOf_step trigger hh, hscheduled, hm.counted, List.length_append]
    split <;> rfl
  case started =>
    rw [startedOf_step trigger hh', startedOf_step trigger hh, hstarts, hm.started, List.map_append]
    congr 1
    split
    · next hs => rw [hgeneration hs, List.map_singleton]
    · rfl
  case accepted =>
    rw [accepted_step, accepted_step, hm.accepted, List.filter_append, List.map_append]
    congr 1
    cases e with
    | completion c =>
      have hc : c.project = a := beq_iff_eq.mp he
      have hreport : (h'.session.next trigger h'.queue (.completion (c.renumber f))).1 =
          (h.session.next trigger h.queue (.completion c)).1 := by
        simp only [next, report_handle]
        exact hm.mirrored.report_accept hf hc
      simp only [Event.renumber, hreport]
      cases (h.session.next trigger h.queue (.completion c)).1 <;> simp [Event.accepted?, hc]
    | attach | detach | reimport | sourceChanged | jobEnded => rfl

/-- Numbers by rank: those of the list by their places in it, and all others behind them. -/
def rank (own : List Nat) (g : Nat) : Nat :=
  if g ∈ own then own.idxOf g else own.length + g

theorem rank_injective (own : List Nat) : (rank own).Injective := by
  intro g g' h
  simp only [rank] at h
  have hlt : ∀ {n : Nat}, n ∈ own → own.idxOf n < own.length := List.idxOf_lt_length_iff.mpr
  split at h
  · next hg =>
    split at h
    · exact (List.idxOf_inj hg).mp h
    · have := hlt hg
      omega
  · split at h
    · next hg' =>
      have := hlt hg'
      omega
    · omega

theorem rank_lt {own : List Nat} (hs : own.Pairwise (· < ·)) {g g' : Nat} (hg : g ∈ own)
    (hg' : g' ∈ own) (hlt : g < g') : rank own g < rank own g' := by
  rw [rank, rank, if_pos hg, if_pos hg']
  by_contra hle
  have hi := List.idxOf_lt_length_iff.mpr hg
  have hi' := List.idxOf_lt_length_iff.mpr hg'
  have hne : own.idxOf g' ≠ own.idxOf g := fun h => by
    rw [(List.idxOf_inj hg').mp h] at hlt
    exact Nat.lt_irrefl g hlt
  have hback := List.pairwise_iff_getElem.mp hs _ _ hi' hi (by omega)
  rw [List.getElem_idxOf, List.getElem_idxOf] at hback
  omega

theorem rank_next {own earlier : List Nat} {g : Nat} (hs : own.Pairwise (· < ·))
    (hp : earlier ++ [g] <+: own) : rank own g = earlier.length := by
  obtain ⟨later, rfl⟩ := hp
  have hg : g ∉ earlier := by
    intro hm
    have hpair := (List.pairwise_append.mp (List.pairwise_append.mp hs).1).2.2 g hm g (by simp)
    exact Nat.lt_irrefl g hpair
  rw [rank, if_pos (by simp), List.append_assoc, List.idxOf_append_of_notMem hg]
  simp

theorem alone_concat (a : ProjectId) (f : Nat → Nat) (moves : List (Move τ)) (m : Move τ) :
    alone a f (moves ++ [m]) =
      alone a f moves ++ if m.concerns a then [m.renumber f] else [] := by
  rw [alone, alone, List.filter_append, List.map_append]
  cases hm : m.concerns a <;> simp [hm]

theorem mirrors_after (trigger : Trigger τ) (queue : τ) (moves : List (Move τ)) (a : ProjectId)
    {own : List Nat} (hs : own.Pairwise (· < ·))
    (hown : (History.after trigger queue moves).startedOf a <+: own) :
    Mirrors a (rank own) (History.after trigger queue moves)
      (History.after trigger queue (alone a (rank own) moves)) := by
  -- The numbering is fixed by the whole run, so it is the same for every beginning of it.
  induction moves using List.reverseRecOn with
  | nil => exact mirrors_start a _ queue
  | append_singleton moves m ih =>
    rw [after_concat] at hown ⊢
    rw [alone_concat]
    set h := History.after trigger queue moves
    have hh : Accounted h := accounted_after trigger queue moves
    have hm := ih ((startedOf_grows trigger h [m] a).trans hown)
    cases m with
    | listener g =>
      rw [if_pos (show Move.concerns a (.listener g) from rfl), after_concat]
      exact ⟨hm.mirrored, hm.others, hm.counted, hm.started, hm.accepted⟩
    | event e =>
      by_cases he : e.concerns a
      · rw [if_pos (show Move.concerns a (.event e) from he), after_concat]
        have hh' := accounted_after trigger queue (alone a (rank own) moves)
        refine hm.step trigger hh hh' (rank_injective own) he fun hstarts => ?_
        rw [startedOf_step trigger hh, if_pos hstarts] at hown
        exact rank_next hs hown
      · rw [if_neg (show ¬ Move.concerns a (.event e) from he), List.append_nil]
        exact hm.step_other trigger hh (Bool.eq_false_iff.mpr he)

/-- A project is not told apart from itself in a run without the moves that concern only other
projects. At every point of the run the same imports of it have been started and the same completions
accepted, any completion is accepted with the same report or else discarded, and all answers about it
are the same. Only the generations have other numbers, but in the same order. -/
theorem unaffected_by_others (trigger : Trigger τ) (queue : τ) (moves : List (Move τ))
    (a : ProjectId) :
    ∃ f : Nat → Nat, f.Injective ∧
      (∀ g ∈ (History.after trigger queue moves).startedOf a,
        ∀ g' ∈ (History.after trigger queue moves).startedOf a, g < g' → f g < f g') ∧
      ∀ before, before <+: moves →
        let h := History.after trigger queue before
        let h' := History.after trigger queue (alone a f before)
        h'.startedOf a = (h.startedOf a).map f ∧
        h'.accepted = (h.accepted.filter (·.project = a)).map (·.renumber f) ∧
        (∀ c, c.project = a → (h'.session.handle trigger (c.renumber f) h'.queue).1 =
          (h.session.handle trigger c h.queue).1) ∧
        AnswersAlike a h.session h'.session := by
  have hs := startedOf_increasing (accounted_after trigger queue moves) a
  set own := (History.after trigger queue moves).startedOf a
  refine ⟨rank own, rank_injective own, fun g hg g' hg' hlt => rank_lt hs hg hg' hlt, ?_⟩
  rintro before ⟨later, rfl⟩ h h'
  have hown : h.startedOf a <+: own := by
    simp only [own, History.after, List.foldl_append]
    exact startedOf_grows trigger h later a
  have hm : Mirrors a (rank own) h h' := mirrors_after trigger queue before a hs hown
  refine ⟨hm.started, hm.accepted, fun c hc => ?_, hm.mirrored.answersAlike⟩
  rw [report_handle, report_handle]
  exact hm.mirrored.report_accept (rank_injective own) hc

end Session

end CompileIndex
