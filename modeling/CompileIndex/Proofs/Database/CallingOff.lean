import CompileIndex.Proofs.Database.Listing

/-!
# Calling off an import

An import takes up the entries one after the other and keeps what they yield. It may be called off
at any moment, also while it is at an entry, but it looks for that only when it takes up the next
one. Then it drops all that it has kept. Otherwise it comes to its end as if nothing had happened.
-/
namespace CompileIndex.Database

open Json (Value)

/-- What the entries that were dealt with have yielded. -/
structure Intake where
  files : PathMap Metadata
  skipped : List SkippedEntry
  count : Nat

namespace Intake

def empty : Intake := ⟨∅, [], 0⟩

def add (i : Intake) : Outcome → Intake
  | .ok (file, m) => { i with files := i.files.put file m, count := i.count + 1 }
  | .error (file, reason) =>
    { i with skipped := i.skipped ++ [⟨i.count, file, reason⟩], count := i.count + 1 }

def ofOutcomes (outcomes : List Outcome) : Intake := outcomes.foldl add empty

def snapshot (i : Intake) : Snapshot := .ofFiles i.files i.skipped

end Intake

/-- Where an import stands. -/
inductive Stage
  | unread
  /-- The next of the entries that are left is about to be taken up. -/
  | between (intake : Intake) (left : List Value)
  /-- At an entry, which has yet to ask for the values of `names`. -/
  | within (names : List String) (entry : Value) (intake : Intake) (left : List Value)
  | ended (result : Except Failure Snapshot)

structure Work where
  stage : Stage
  takenUp : Nat
  calledOff : Bool

inductive Move
  | proceed
  | callOff
  deriving DecidableEq

namespace Work

section Moves

variable (env : Shell.Environment) (fs : FileSystem) (path : Path)

def start : Work := ⟨.unread, 0, false⟩

def proceed (w : Work) : Work :=
  match w.stage with
  | .unread =>
    match readEntries fs path with
    | .ok entries => { w with stage := .between .empty entries }
    | .error failure => { w with stage := .ended (.error failure) }
  | .between intake [] => { w with stage := .ended (.ok intake.snapshot) }
  | .between intake (v :: left) =>
    if w.calledOff then { w with stage := .ended (.error .cancelled) }
    else { w with stage := .within (askedNames v) v intake left, takenUp := w.takenUp + 1 }
  | .within (_ :: names) v intake left => { w with stage := .within names v intake left }
  | .within [] v intake left =>
    { w with stage := .between (intake.add (importEntry env fs (folderOf path) v)) left }
  | .ended _ => w

def step (w : Work) : Move → Work
  | .proceed => w.proceed env fs path
  | .callOff => { w with calledOff := true }

def after (moves : List Move) : Work := moves.foldl (step env fs path) start

end Moves

/-- The import was called off before its entry `i` was taken up. -/
def stopped (w : Work) (i : Nat) : Bool := w.calledOff && decide (w.takenUp ≤ i)

end Work

variable {env : Shell.Environment} {fs : FileSystem} {path : Path} {w : Work}
  {entries : List Value} {outcomes : List Outcome} {result : Except Failure Snapshot}

theorem skippedFrom_concat (n : Nat) (outcomes : List Outcome) (outcome : Outcome) :
    skippedFrom n (outcomes ++ [outcome]) =
      skippedFrom n outcomes ++ skippedFrom (n + outcomes.length) [outcome] := by
  induction outcomes generalizing n with
  | nil => rfl
  | cons first rest ih =>
    have hn : n + (first :: rest).length = n + 1 + rest.length := by
      simp only [List.length_cons]
      omega
    rw [hn]
    cases first with
    | ok entry => exact ih (n + 1)
    | error reason => exact congrArg _ (ih (n + 1))

namespace Intake

theorem ofOutcomes_concat (outcomes : List Outcome) (outcome : Outcome) :
    ofOutcomes (outcomes ++ [outcome]) = (ofOutcomes outcomes).add outcome := by
  simp [ofOutcomes]

theorem ofOutcomes_eq (outcomes : List Outcome) :
    ofOutcomes outcomes = ⟨filesOf outcomes, skippedFrom 0 outcomes, outcomes.length⟩ := by
  induction outcomes using List.reverseRecOn with
  | nil => rfl
  | append_singleton outcomes outcome ih =>
    rw [ofOutcomes_concat, ih, skippedFrom_concat, List.length_append]
    cases outcome <;> simp [add, filesOf, skippedFrom]

theorem snapshot_ofOutcomes (outcomes : List Outcome) :
    (ofOutcomes outcomes).snapshot = snapshotOf outcomes := by
  rw [snapshot, ofOutcomes_eq, snapshotOf]

end Intake

theorem Lists.unique {others : List Value} (h : Lists fs path entries)
    (h' : Lists fs path others) : entries = others := by
  rw [← readEntries_eq_ok_iff] at h h'
  exact Except.ok.inj (h.symm.trans h')

theorem not_lists_of_error {failure : Failure} (h : readEntries fs path = .error failure) :
    ¬ Lists fs path entries := by
  rw [← readEntries_eq_ok_iff, h]
  rintro ⟨⟩

theorem importUntil_of_lists (stopped : Nat → Bool) (h : Lists fs path entries) :
    importUntil stopped env fs path =
      if (List.range entries.length).any stopped then .error .cancelled
      else .ok (snapshotOf (entries.map (importEntry env fs (folderOf path)))) := by
  rw [importUntil, readEntries_eq_ok_iff.mpr h]
  rfl

theorem readEntries_ne_cancelled (fs : FileSystem) (path : Path) :
    readEntries fs path ≠ .error .cancelled := by
  rw [readEntries]
  split
  · split
    · rw [entriesOf]
      split <;> simp
    · simp
    · simp
  · simp

theorem importUntil_of_error (stopped : Nat → Bool) {failure : Failure}
    (h : readEntries fs path = .error failure) :
    importUntil stopped env fs path = .error failure := by
  rw [importUntil, h]
  rfl

namespace Work

section Ends

variable (env : Shell.Environment) (fs : FileSystem) (path : Path) (w : Work)

/-- How an import ends: with the failure of its database, with all entries, or with none. -/
inductive Ends : Except Failure Snapshot → Prop
  | refused (failure : Failure) (h : readEntries fs path = .error failure) :
    Ends (.error failure)
  | whole (entries : List Value) (h : Lists fs path entries) (hall : w.takenUp = entries.length) :
    Ends (.ok (snapshotOf (entries.map (importEntry env fs (folderOf path)))))
  | nothing (entries : List Value) (h : Lists fs path entries) (hcalled : w.calledOff = true)
    (hleft : w.takenUp < entries.length) : Ends (.error .cancelled)

/-- What was kept stems from the entries in front of those that are left. -/
def Agrees : Prop :=
  match w.stage with
  | .unread => w.takenUp = 0
  | .between intake left => ∃ done, Lists fs path (done ++ left) ∧ w.takenUp = done.length ∧
    intake = .ofOutcomes (done.map (importEntry env fs (folderOf path)))
  | .within _ v intake left => ∃ done, Lists fs path (done ++ v :: left) ∧
    w.takenUp = done.length + 1 ∧
    intake = .ofOutcomes (done.map (importEntry env fs (folderOf path)))
  | .ended result => Ends env fs path w result

end Ends

theorem Ends.callOff (h : Ends env fs path w result) :
    Ends env fs path { w with calledOff := true } result := by
  cases h with
  | refused failure h => exact .refused failure h
  | whole entries h hall => exact .whole entries h hall
  | nothing entries h hcalled hleft => exact .nothing entries h rfl hleft

theorem Agrees.proceed (hw : Agrees env fs path w) :
    Agrees env fs path (w.proceed env fs path) := by
  rcases w with ⟨stage, takenUp, calledOff⟩
  cases stage with
  | unread =>
    simp only [Agrees] at hw
    cases hr : readEntries fs path with
    | error failure =>
      simp only [Work.proceed, hr, Agrees]
      exact .refused failure hr
    | ok entries =>
      simp only [Work.proceed, hr, Agrees]
      exact ⟨[], readEntries_eq_ok_iff.mp hr, hw, rfl⟩
  | between intake left =>
    obtain ⟨done, hlists, htaken, rfl⟩ := hw
    cases left with
    | nil =>
      rw [List.append_nil] at hlists
      simp only [Work.proceed, Agrees, Intake.snapshot_ofOutcomes]
      exact .whole done hlists htaken
    | cons v left =>
      -- This is the only stage that looks whether the import was called off.
      by_cases hcalled : calledOff = true
      · simp only [Work.proceed, hcalled, if_true, Agrees]
        refine .nothing _ hlists rfl ?_
        simp only [List.length_append, List.length_cons]
        have htaken : takenUp = done.length := htaken
        omega
      · simp only [Work.proceed, hcalled, Bool.false_eq_true, if_false, Agrees]
        exact ⟨done, hlists, congrArg (· + 1) htaken, rfl⟩
  | within names v intake left =>
    obtain ⟨done, hlists, htaken, rfl⟩ := hw
    cases names with
    | cons name names => exact ⟨done, hlists, htaken, rfl⟩
    | nil =>
      refine ⟨done ++ [v], ?_, ?_, ?_⟩
      · rwa [List.append_assoc]
      · rw [List.length_append]
        exact htaken
      · rw [List.map_append]
        exact (Intake.ofOutcomes_concat _ _).symm
  | ended result => exact hw

theorem Agrees.callOff (hw : Agrees env fs path w) :
    Agrees env fs path { w with calledOff := true } := by
  rcases w with ⟨stage, takenUp, calledOff⟩
  cases stage with
  | unread | between | within => exact hw
  | ended result => exact Ends.callOff hw

section Reached

variable (env fs path)

theorem after_concat (moves : List Move) (m : Move) :
    after env fs path (moves ++ [m]) = (after env fs path moves).step env fs path m := by
  simp [after]

theorem agrees_after (moves : List Move) : Agrees env fs path (after env fs path moves) := by
  have hstart : Agrees env fs path start := rfl
  refine List.foldlRecOn moves _ hstart fun w hw m _ => ?_
  cases m with
  | proceed => exact hw.proceed
  | callOff => exact hw.callOff

end Reached

theorem ends_of_ended {moves : List Move} (h : (after env fs path moves).stage = .ended result) :
    Ends env fs path (after env fs path moves) result := by
  have hagrees := agrees_after env fs path moves
  rwa [Agrees, h] at hagrees

theorem any_stopped (w : Work) (n : Nat) :
    (List.range n).any w.stopped = (w.calledOff && decide (w.takenUp < n)) := by
  rw [Bool.eq_iff_iff]
  simp only [stopped, List.any_eq_true, List.mem_range, Bool.and_eq_true, decide_eq_true_eq]
  constructor
  · rintro ⟨i, hi, hcalled, hle⟩
    exact ⟨hcalled, by omega⟩
  · rintro ⟨hcalled, hlt⟩
    exact ⟨w.takenUp, hlt, hcalled, Nat.le_refl _⟩

/-- The stages of an import amount to an import that is called off in front of an entry. -/
theorem Ends.eq_importUntil (h : Ends env fs path w result) :
    result = importUntil w.stopped env fs path := by
  cases h with
  | refused failure h => rw [importUntil_of_error _ h]
  | whole entries h hall =>
    rw [importUntil_of_lists _ h, any_stopped, hall]
    simp
  | nothing entries h hcalled hleft =>
    rw [importUntil_of_lists _ h, any_stopped, hcalled]
    simp [hleft]

theorem Ends.eq_load_or_dropped (h : Ends env fs path w result) :
    result = load env fs path ∨ result = .error .cancelled ∧ w.calledOff = true := by
  cases h with
  | refused failure h => exact .inl (importUntil_of_error _ h).symm
  | whole entries h hall => exact .inl (load_of_lists h).symm
  | nothing entries h hcalled hleft => exact .inr ⟨rfl, hcalled⟩

section Flag

variable (env fs path)

/-- Apart from its stage, an import that goes on only counts what it takes up, and it takes up
nothing once it was called off. -/
theorem proceed_cases (w : Work) :
    (∃ stage, w.proceed env fs path = { w with stage }) ∨
    w.calledOff = false ∧ ∃ stage, w.proceed env fs path =
      { w with stage, takenUp := w.takenUp + 1 } := by
  rcases w with ⟨stage, takenUp, calledOff⟩
  cases stage with
  | unread =>
    refine .inl ⟨(proceed env fs path ⟨.unread, takenUp, calledOff⟩).stage, ?_⟩
    cases hr : readEntries fs path <;> simp only [proceed, hr]
  | between intake left =>
    cases left with
    | nil => exact .inl ⟨_, rfl⟩
    | cons v left =>
      cases calledOff with
      | true => exact .inl ⟨_, rfl⟩
      | false => exact .inr ⟨rfl, _, rfl⟩
  | within names v intake left =>
    left
    cases names with
    | nil => exact ⟨_, rfl⟩
    | cons name names => exact ⟨_, rfl⟩
  | ended result => exact .inl ⟨_, rfl⟩

@[simp]
theorem calledOff_proceed (w : Work) :
    (w.proceed env fs path).calledOff = w.calledOff := by
  rcases proceed_cases env fs path w with ⟨stage, h⟩ | ⟨-, stage, h⟩ <;> rw [h]

theorem step_of_calledOff (h : w.calledOff = true) (m : Move) :
    (w.step env fs path m).calledOff = true ∧ (w.step env fs path m).takenUp = w.takenUp := by
  cases m with
  | callOff => exact ⟨rfl, rfl⟩
  | proceed =>
    rcases proceed_cases env fs path w with ⟨stage, hw⟩ | ⟨hnot, -⟩
    · rw [step, hw]
      exact ⟨h, rfl⟩
    · rw [hnot] at h
      cases h

/-- What has been taken up when the import is called off is all that ever will be. -/
theorem after_callOff (before later : List Move) :
    let w := after env fs path (before ++ .callOff :: later)
    w.calledOff = true ∧ w.takenUp = (after env fs path before).takenUp := by
  intro w
  let called : Work := { after env fs path before with calledOff := true }
  have hw : w = later.foldl (step env fs path) called := by
    simp only [w, after, List.foldl_append, List.foldl_cons]
    rfl
  rw [hw]
  refine List.foldlRecOn (motive := fun w : Work =>
    w.calledOff = true ∧ w.takenUp = called.takenUp) later _ ⟨rfl, rfl⟩ ?_
  intro w hw m _
  obtain ⟨hcalled, htaken⟩ := step_of_calledOff env fs path hw.1 m
  exact ⟨hcalled, htaken.trans hw.2⟩

theorem calledOff_after (moves : List Move) :
    (after env fs path moves).calledOff = true ↔ .callOff ∈ moves := by
  constructor
  · intro h
    by_contra hnone
    have hproceed : ∀ m ∈ moves, m = .proceed := by
      intro m hm
      cases m with
      | proceed => rfl
      | callOff => exact absurd hm hnone
    have hnot : (after env fs path moves).calledOff = false := by
      refine List.foldlRecOn (motive := fun w : Work => w.calledOff = false) moves _ rfl ?_
      intro w hw m hm
      rw [hproceed m hm, step, calledOff_proceed]
      exact hw
    rw [hnot] at h
    cases h
  · intro h
    obtain ⟨before, later, rfl⟩ := List.append_of_mem h
    exact (after_callOff env fs path before later).1

end Flag

end Work

namespace Stage

/-- An upper bound of the moves that are to come while these entries are left. -/
def movesFor : List Value → Nat
  | [] => 1
  | v :: left => (askedNames v).length + 2 + movesFor left

theorem movesFor_pos (left : List Value) : 0 < movesFor left := by
  cases left with
  | nil => exact Nat.one_pos
  | cons v left =>
    rw [movesFor]
    omega

def movesLeft (fs : FileSystem) (path : Path) : Stage → Nat
  | .unread => 1 + ((readEntries fs path).toOption.map movesFor).getD 0
  | .between _ left => movesFor left
  | .within names _ _ left => names.length + 1 + movesFor left
  | .ended _ => 0

theorem ended_of_movesLeft (fs : FileSystem) (path : Path) {stage : Stage}
    (h : stage.movesLeft fs path = 0) :
    ∃ result, stage = .ended result := by
  cases stage with
  | ended result => exact ⟨result, rfl⟩
  | unread =>
    simp only [movesLeft] at h
    omega
  | between _ left | within _ _ _ left =>
    have hpos := movesFor_pos left
    simp only [movesLeft] at h
    omega

end Stage

namespace Work

section Bound

variable (env fs path)

theorem movesLeft_proceed (w : Work) :
    (w.proceed env fs path).stage.movesLeft fs path ≤ w.stage.movesLeft fs path - 1 := by
  rcases w with ⟨stage, takenUp, calledOff⟩
  cases stage with
  | unread =>
    cases hr : readEntries fs path with
    | ok entries => simp [proceed, Stage.movesLeft, hr, Except.toOption]
    | error failure => simp [proceed, Stage.movesLeft, hr]
  | between intake left =>
    cases left with
    | nil => simp [proceed, Stage.movesLeft]
    | cons v left =>
      cases calledOff with
      | true => simp [proceed, Stage.movesLeft]
      | false =>
        simp only [proceed, Stage.movesLeft, Stage.movesFor, Bool.false_eq_true, if_false]
        omega
  | within names v intake left =>
    cases names with
    | nil => simp [proceed, Stage.movesLeft]
    | cons name names =>
      simp only [proceed, Stage.movesLeft, List.length_cons]
      omega
  | ended result => simp [proceed, Stage.movesLeft]

theorem movesLeft_after (moves : List Move) :
    (after env fs path moves).stage.movesLeft fs path ≤
      Stage.unread.movesLeft fs path - moves.count .proceed := by
  induction moves using List.reverseRecOn with
  | nil => exact Nat.le_refl _
  | append_singleton moves m ih =>
    rw [after_concat, List.count_append]
    cases m with
    | callOff => exact ih
    | proceed =>
      have hproceed := movesLeft_proceed env fs path (after env fs path moves)
      have hone : [Move.proceed].count .proceed = 1 := rfl
      rw [hone]
      change ((after env fs path moves).proceed env fs path).stage.movesLeft fs path ≤ _
      omega

end Bound

/-- An import comes to its end, whenever it is called off. -/
theorem ended_of_enough {moves : List Move}
    (h : Stage.unread.movesLeft fs path ≤ moves.count .proceed) :
    ∃ result, (after env fs path moves).stage = .ended result := by
  have hleft := movesLeft_after env fs path moves
  exact Stage.ended_of_movesLeft fs path (by omega)

end Work

section Asking

variable (env : Shell.Environment) (fs : FileSystem) (path : Path) (name : String)

def Stage.asks? : Stage → Option String
  | .within (name :: _) _ _ _ => some name
  | _ => none

/-- Among these moves the import is called off when the value of `name` is asked for, and at no
other moment. -/
inductive CalledOffBy : List Move → Prop
  | start : CalledOffBy []
  | proceed (moves : List Move) (h : CalledOffBy moves)
    (hpassed : (Work.after env fs path moves).stage.asks? = some name →
      (Work.after env fs path moves).calledOff = true) : CalledOffBy (moves ++ [.proceed])
  | callOff (moves : List Move) (h : CalledOffBy moves)
    (hasks : (Work.after env fs path moves).stage.asks? = some name) :
    CalledOffBy (moves ++ [.callOff])

/-- The import was called off exactly when an entry that it took up has asked for `name`. -/
def Work.Heeds (w : Work) : Prop :=
  ∀ entries, Lists fs path entries →
    (∀ i < w.takenUp, stoppedByName name entries i = false) ∧
    match w.stage with
    | .within names v _ _ => ∃ asked, askedNames v = asked ++ names ∧
      ((w.calledOff = true ↔ name ∈ asked) ∨ w.calledOff = true ∧ names.head? = some name)
    | .unread | .between _ _ | .ended _ => w.calledOff = stoppedByName name entries w.takenUp

end Asking

namespace Work

variable {name : String}

theorem Heeds.proceed (hw : Agrees env fs path w) (hh : Heeds fs path name w)
    (hpassed : w.stage.asks? = some name → w.calledOff = true) :
    Heeds fs path name (w.proceed env fs path) := by
  intro entries hlists
  obtain ⟨hnone, hstage⟩ := hh entries hlists
  rcases w with ⟨stage, takenUp, calledOff⟩
  cases stage with
  | unread =>
    have hr := readEntries_eq_ok_iff.mpr hlists
    simp only [Work.proceed, hr]
    exact ⟨hnone, hstage⟩
  | between intake left =>
    cases left with
    | nil => exact ⟨hnone, hstage⟩
    | cons v left =>
      cases calledOff with
      | true => exact ⟨hnone, hstage⟩
      | false =>
        refine ⟨fun i hi => ?_, [], rfl, .inl (by simp)⟩
        rcases Nat.lt_succ_iff_lt_or_eq.mp hi with hi | rfl
        · exact hnone i hi
        · exact hstage.symm
  | within names v intake left =>
    obtain ⟨asked, hasked, hcalled⟩ := hstage
    cases names with
    | cons other names =>
      refine ⟨hnone, asked ++ [other], by simp [hasked], .inl ?_⟩
      simp only [List.head?_cons, Option.some.injEq] at hcalled
      by_cases hother : other = name
      · -- An import goes on from here only when it has been called off.
        subst hother
        have hoff : calledOff = true := hpassed rfl
        simp [hoff]
      · have hiff : calledOff = true ↔ name ∈ asked :=
          hcalled.resolve_right fun h => hother h.2
        have hne : name ≠ other := Ne.symm hother
        simp [hiff, hne]
    | nil =>
      -- The entry has asked for all that it asks for, so it counts among those in front.
      refine ⟨hnone, ?_⟩
      obtain ⟨done, hdone, htaken, -⟩ := hw
      obtain rfl := hlists.unique hdone
      rw [List.append_nil] at hasked
      have hiff : calledOff = true ↔ name ∈ asked := hcalled.resolve_right fun h => nomatch h.2
      have htaken : takenUp = done.length + 1 := htaken
      subst htaken
      have hearlier : done.any (fun v => (askedNames v).contains name) = false := by
        have hlt := hnone done.length (Nat.lt_succ_self _)
        rwa [stoppedByName, List.take_left'] at hlt
        rfl
      have htake : (done ++ v :: left).take (done.length + 1) = done ++ [v] := by
        rw [List.take_length_add_append]
        rfl
      change calledOff = stoppedByName name (done ++ v :: left) (done.length + 1)
      rw [stoppedByName, htake, List.any_append, hearlier, Bool.false_or, Bool.eq_iff_iff, hiff,
        ← hasked]
      simp
  | ended result => exact ⟨hnone, hstage⟩

theorem Heeds.callOff (hh : Heeds fs path name w) (hasks : w.stage.asks? = some name) :
    Heeds fs path name { w with calledOff := true } := by
  intro entries hlists
  obtain ⟨hnone, hstage⟩ := hh entries hlists
  rcases w with ⟨stage, takenUp, calledOff⟩
  cases stage with
  | within names v intake left =>
    cases names with
    | nil => cases hasks
    | cons other names =>
      cases hasks
      obtain ⟨asked, hasked, -⟩ := hstage
      exact ⟨hnone, asked, hasked, .inr ⟨rfl, rfl⟩⟩
  | unread | between | ended => cases hasks

theorem heeds_after {moves : List Move} (h : CalledOffBy env fs path name moves) :
    Heeds fs path name (after env fs path moves) := by
  induction h with
  | start => exact fun entries _ => ⟨fun i hi => absurd hi (Nat.not_lt_zero i), rfl⟩
  | proceed moves _ hpassed ih =>
    rw [after_concat]
    exact ih.proceed (agrees_after env fs path moves) hpassed
  | callOff moves _ hasks ih =>
    rw [after_concat]
    exact ih.callOff hasks

/-- An import that is called off when a name is asked for goes on to the next entry. -/
theorem importUntilAsked_of_ended {moves : List Move} (h : CalledOffBy env fs path name moves)
    (hended : (after env fs path moves).stage = .ended result) :
    result = importUntilAsked name env fs path := by
  have hheeds := heeds_after h
  cases ends_of_ended hended with
  | refused failure hfailure =>
    rw [importUntilAsked, hfailure]
    rfl
  | whole entries hlists hall =>
    obtain ⟨hnone, -⟩ := hheeds entries hlists
    have hany : (List.range entries.length).any (stoppedByName name entries) = false := by
      rw [List.any_eq_false]
      intro i hi
      rw [hnone i (hall ▸ List.mem_range.mp hi)]
      exact Bool.false_ne_true
    rw [importUntilAsked, readEntries_eq_ok_iff.mpr hlists]
    change _ = importUntil _ env fs path
    rw [importUntil_of_lists _ hlists, hany]
    rfl
  | nothing entries hlists hcalled hleft =>
    obtain ⟨-, hstopped⟩ := hheeds entries hlists
    rw [hended] at hstopped
    have hany : (List.range entries.length).any (stoppedByName name entries) = true :=
      List.any_eq_true.mpr ⟨_, List.mem_range.mpr hleft, hstopped.symm.trans hcalled⟩
    rw [importUntilAsked, readEntries_eq_ok_iff.mpr hlists]
    change _ = importUntil _ env fs path
    rw [importUntil_of_lists _ hlists, hany]
    rfl

theorem exists_calledOffBy (env : Shell.Environment) (fs : FileSystem) (path : Path)
    (name : String) (n : Nat) :
    ∃ moves, CalledOffBy env fs path name moves ∧ n ≤ moves.count .proceed := by
  induction n with
  | zero => exact ⟨[], .start, Nat.zero_le _⟩
  | succ n ih =>
    obtain ⟨moves, h, hcount⟩ := ih
    by_cases hasks : (after env fs path moves).stage.asks? = some name
    · -- Called off a second time, the import stays as it is.
      refine ⟨moves ++ [.callOff] ++ [.proceed], .proceed _ (.callOff moves h hasks) ?_, ?_⟩
      · intro _
        rw [after_concat]
        rfl
      · rw [List.count_append, List.count_append]
        exact Nat.succ_le_succ hcount
    · refine ⟨moves ++ [.proceed], .proceed moves h fun h => absurd h hasks, ?_⟩
      rw [List.count_append]
      exact Nat.succ_le_succ hcount

theorem importUntilAsked_eq_iff :
    importUntilAsked name env fs path = result ↔ ∃ moves, CalledOffBy env fs path name moves ∧
      (after env fs path moves).stage = .ended result := by
  constructor
  · rintro rfl
    obtain ⟨moves, h, hcount⟩ := exists_calledOffBy env fs path name
      (Stage.unread.movesLeft fs path)
    obtain ⟨result, hended⟩ := ended_of_enough hcount
    refine ⟨moves, h, ?_⟩
    rw [← importUntilAsked_of_ended h hended]
    exact hended
  · rintro ⟨moves, h, hended⟩
    exact (importUntilAsked_of_ended h hended).symm

end Work

/-- However the moments at which an import is called off lie among its own moves, it comes to an
end. Its result is that of an import that is called off in front of an entry: it is the same as
without being called off, or else nothing at all is imported. When the database cannot be used,
the result is its own failure in any case. The import that is called off when a name is asked for
is the one whose moves are such. -/
theorem called_off_whole_or_nothing (env : Shell.Environment) (fs : FileSystem) (path : Path) :
    (∃ n, ∀ moves, n ≤ moves.count .proceed →
      ∃ result, (Work.after env fs path moves).stage = .ended result) ∧
    (∀ moves result, (Work.after env fs path moves).stage = .ended result →
      result = importUntil (Work.after env fs path moves).stopped env fs path ∧
      (result = load env fs path ∨ result = .error .cancelled ∧ .callOff ∈ moves) ∧
      ∀ failure, readEntries fs path = .error failure →
        failure ≠ .cancelled ∧ result = .error failure) ∧
    ∀ name result, importUntilAsked name env fs path = result ↔
      ∃ moves, CalledOffBy env fs path name moves ∧
        (Work.after env fs path moves).stage = .ended result := by
  refine ⟨⟨_, fun moves h => Work.ended_of_enough h⟩, fun moves result hended => ?_,
    fun name result => Work.importUntilAsked_eq_iff⟩
  have hends := Work.ends_of_ended hended
  refine ⟨hends.eq_importUntil, ?_, ?_⟩
  · rw [← Work.calledOff_after env fs path moves]
    exact hends.eq_load_or_dropped
  · intro failure hfailure
    constructor
    · rintro rfl
      exact readEntries_ne_cancelled fs path hfailure
    · rw [hends.eq_importUntil, importUntil_of_error _ hfailure]

/-- An import that is called off is valid all the same exactly when it had taken up every entry by
then: it may still be at the last one, and without entries that is so from the start. Its result is
then what it would have been. Called off earlier, it comes to nothing. -/
theorem called_off_valid_iff (env : Shell.Environment) (fs : FileSystem) (path : Path)
    (before later : List Move) (result : Except Failure Snapshot)
    (hended : (Work.after env fs path (before ++ .callOff :: later)).stage = .ended result) :
    let taken := (Work.after env fs path before).takenUp
    ((∃ s, result = .ok s) ↔ ∃ entries, Lists fs path entries ∧ taken = entries.length) ∧
    ((∃ s, result = .ok s) → result = load env fs path) ∧
    ∀ entries, Lists fs path entries → taken < entries.length → result = .error .cancelled := by
  intro taken
  obtain ⟨-, htaken⟩ := Work.after_callOff env fs path before later
  have hends := Work.ends_of_ended hended
  cases hends with
  | refused failure hfailure =>
    refine ⟨⟨?_, ?_⟩, ?_, ?_⟩
    · rintro ⟨s, hs⟩
      cases hs
    · rintro ⟨entries, hlists, -⟩
      exact absurd hlists (not_lists_of_error hfailure)
    · rintro ⟨s, hs⟩
      cases hs
    · intro entries hlists
      exact absurd hlists (not_lists_of_error hfailure)
  | whole entries hlists hall =>
    rw [htaken] at hall
    refine ⟨⟨fun _ => ⟨entries, hlists, hall⟩, fun _ => ⟨_, rfl⟩⟩, fun _ => ?_, ?_⟩
    · exact (load_of_lists hlists).symm
    · intro others hothers hlt
      obtain rfl := hlists.unique hothers
      omega
  | nothing entries hlists hcalled hleft =>
    rw [htaken] at hleft
    refine ⟨⟨?_, ?_⟩, ?_, fun _ _ _ => rfl⟩
    · rintro ⟨s, hs⟩
      cases hs
    · rintro ⟨others, hothers, hall⟩
      obtain rfl := hlists.unique hothers
      omega
    · rintro ⟨s, hs⟩
      cases hs

/-- Called off before it starts, an import of an empty list is valid. -/
theorem called_off_valid_without_entries :
    let env : Shell.Environment := ⟨fun _ => none, "1"⟩
    let fs : FileSystem :=
      { has := fun _ => true
        isFolder := fun _ => false
        read := fun _ => .octets [0x5B, 0x5D]
        canonical? := fun _ => none
        glob := fun _ => [] }
    ∃ result, (Work.after env fs ⟨"/w/db.json"⟩ [.callOff, .proceed, .proceed]).stage =
      .ended result ∧ ∃ s, result = .ok s := by
  intro env fs
  have hlists : Lists fs ⟨"/w/db.json"⟩ [] := ⟨rfl, _, rfl, rfl⟩
  have hended : (Work.after env fs ⟨"/w/db.json"⟩ [.callOff, .proceed, .proceed]).stage =
      .ended (.ok Intake.empty.snapshot) := rfl
  have hvalid := called_off_valid_iff env fs ⟨"/w/db.json"⟩ [] [.proceed, .proceed] _ hended
  exact ⟨_, hended, hvalid.1.mpr ⟨[], hlists, rfl⟩⟩

end CompileIndex.Database
