import CompileIndex.Proofs.Serve.Books
import CompileIndex.Proofs.Session.Reports
import Mathlib.Data.List.TakeWhile

/-!
# Replies in order

Lines, completions and requests take their turns in any order, and what they write goes to one
output. The replies in it are read off the lines alone; what they say depends on the lines and
completions handled before, and on nothing else. The first reply that cannot be written ends the
run.
-/
namespace CompileIndex

/-! ## Lines -/

def quits (line : String) : Bool :=
  (Text.firstWord line).1 = "quit" || (Text.firstWord line).1 = "exit"

def isBlankLine (line : String) : Bool := (Text.trimChars line.toList).isEmpty

theorem Command.ofPath?_ne_quit {verb : String} {command : Path → Command}
    (h : ofPath? verb = some command) (path : Path) : command path ≠ .quit := by
  rw [ofPath?] at h
  split at h
  · rintro hq
    cases h
    cases hq
  · obtain ⟨f, _, rfl⟩ := Option.map_eq_some_iff.mp h
    rintro ⟨⟩

theorem Command.read_eq_quit_iff {line : String} :
    Command.read line = .ok .quit ↔ quits line := by
  simp only [read, quits, Bool.or_eq_true, decide_eq_true_eq]
  generalize (Text.firstWord line).1 = verb
  constructor
  · intro h
    split at h
    · next command hc =>
      split at h
      · cases h
      · exact absurd (Except.ok.inj h) (ofPath?_ne_quit hc _)
    · split at h <;> simp_all
  · rintro (rfl | rfl) <;> rfl

theorem not_quits_of_blank {line : String} (h : isBlankLine line) : quits line = false := by
  have hchars : Text.trimChars line.toList = [] := List.isEmpty_iff.mp h
  simp [quits, Text.firstWord, hchars]

namespace Session

/-- What is written about a line: why it is no command, or what its execution gives. -/
def respond (fs : FileSystem) (project : ProjectId) (root : Path) (s : Session) (line : String) :
    Option Output :=
  match Command.read line with
  | .error error => some (.refused (.command error))
  | .ok command => (s.execute fs project root command).map (Service.reply ·.1)

inductive Input
  | line (fs : FileSystem) (text : String)
  | completion (c : Completion)

def take (project : ProjectId) (root : Path) (s : Session) : Input → Session
  | .line fs text =>
    match Command.read text with
    | .error _ => s
    | .ok command => s.afterCommand fs project root command
  | .completion c => (s.accept c).2

variable {s s' : Session}

theorem SameBooks.respond (h : SameBooks s s') (fs : FileSystem) (a : ProjectId) (root : Path)
    (line : String) : s.respond fs a root line = s'.respond fs a root line := by
  simp only [Session.respond]
  cases Command.read line with
  | error error => rfl
  | ok command =>
    have hexecute := congrArg (Option.map Service.reply) (h.execute fs a root command).1
    simp only [Option.map_map] at hexecute
    exact hexecute

theorem SameBooks.take (h : SameBooks s s') (a : ProjectId) (root : Path) (input : Input) :
    SameBooks (s.take a root input) (s'.take a root input) := by
  cases input with
  | line fs text =>
    simp only [Session.take]
    cases Command.read text with
    | error error => exact h
    | ok command => exact (h.execute fs a root command).2
  | completion c => exact (h.accept c).2

theorem isEvent_reply_map {α : Type} {f : α → Output} (hf : ∀ x, (f x).isEvent = false)
    (result : Except SessionError α) : (Service.reply (result.map f)).isEvent = false := by
  cases result with
  | error error => rfl
  | ok x => exact hf x

theorem isEvent_of_execute {fs : FileSystem} {a : ProjectId} {root : Path} {command : Command}
    {result : Except SessionError Output} {after : Session}
    (h : s.execute fs a root command = some (result, after)) :
    (Service.reply result).isEvent = false := by
  cases command with
  | query path => cases h; exact isEvent_reply_map (fun _ => rfl) _
  | field f path => cases h; exact isEvent_reply_map (fun _ => rfl) _
  | changed path =>
    cases path with
    | some path => cases h; rfl
    | none =>
      simp only [execute, reimportAll_eq] at h
      cases h
      rfl
  | status => cases h; exact isEvent_reply_map (fun _ => rfl) _
  | quit => cases h

theorem SameBooks.take_all (h : SameBooks s s') (a : ProjectId) (root : Path)
    (inputs : List Input) :
    SameBooks (inputs.foldl (Session.take a root) s) (inputs.foldl (Session.take a root) s') := by
  induction inputs generalizing s s' with
  | nil => exact h
  | cons input rest ih => exact ih (h.take a root input)

theorem execute_eq_none_iff {fs : FileSystem} {a : ProjectId} {root : Path} {command : Command} :
    s.execute fs a root command = none ↔ command = .quit := by
  cases command with
  | changed path =>
    cases path with
    | some path => simp [execute]
    | none => simp [execute, reimportAll_eq]
  | query | field | status | quit => simp [execute]

end Session

/-! ## Turns -/

namespace Service

variable {s : Service} {fs : FileSystem} {line : String}

/-- What goes on around the service, with the surroundings as they are at that moment. -/
inductive Happening
  | turn (env : Shell.Environment) (fs : FileSystem) (t : Turn)
  /-- A job delivers that the session has called off. -/
  | arrival (c : Completion)

def Happening.line? : Happening → Option (FileSystem × String)
  | .turn _ fs (.line text) => some (fs, text)
  | _ => none

def happen (s : Service) : Happening → List Output × Service
  | .turn env fs t => s.turn env fs t
  | .arrival c => ([], { s with workspace.arrived := s.workspace.arrived ++ [c] })

def live (s : Service) (hs : List Happening) : List Output × Service :=
  hs.foldl (fun (written, s) h =>
    let (now, s) := s.happen h
    (written ++ now, s)) ([], s)

theorem live_concat (s : Service) (hs : List Happening) (h : Happening) :
    s.live (hs ++ [h]) =
      ((s.live hs).1 ++ ((s.live hs).2.happen h).1, ((s.live hs).2.happen h).2) := by
  simp only [live, List.foldl_append, List.foldl_cons, List.foldl_nil]

theorem run_eq_live (env : Shell.Environment) (fs : FileSystem) (s : Service)
    (turns : List Turn) : s.run env fs turns = s.live (turns.map (.turn env fs)) := by
  simp only [run, live, List.foldl_map, happen]

/-- What the session is given when something happens. -/
def given? (s : Service) (h : Happening) : Option Session.Input :=
  if s.serving then
    match h with
    | .turn _ _ .completion => s.workspace.arrived.head?.map .completion
    | _ => h.line?.map fun (fs, text) => .line fs text
  else none

def handled (s : Service) (hs : List Happening) : List Session.Input :=
  (points hs).filterMap fun (before, h) => (s.live before).2.given? h

/-- A line that is neither blank nor the last. -/
def Happening.question? (h : Happening) : Option (FileSystem × String) :=
  h.line?.filter fun (_, text) => !isBlankLine text && !quits text

def Happening.stops (h : Happening) : Bool := h.line?.any fun (_, text) => quits text

/-- The line cannot be answered, and the run ends with an error. -/
def fails (s : Service) (h : Happening) : Bool :=
  s.serving && h.line?.any fun (fs, text) => s.breaksOff fs text

def failed (s : Service) (hs : List Happening) : Bool :=
  (points hs).any fun (before, h) => (s.live before).2.fails h

/-- The reply that is due when something happens to a service that is serving, if one is. -/
def due (s : Service) (h : Happening) : List (Option Output) :=
  h.question?.toList.map fun (fs, text) =>
    s.workspace.session.respond fs s.project s.root text

def Written (reply : Option Output) : Bool := reply.any (·.isWritable)

/-- The lines that are to be replied to, each with all that happens before it. -/
def questions (hs : List Happening) : List (List Happening × FileSystem × String) :=
  (points hs).filterMap fun (before, h) =>
    if before.any (·.stops) then none else h.question?.map (before, ·)

/-! What a turn comes to, and what it gives to the session. -/

theorem happen_of_stopped (hs : s.serving = false) (env : Shell.Environment) (fs : FileSystem)
    (t : Turn) : s.happen (.turn env fs t) = ([], s) := by
  simp [happen, turn, hs]

theorem happen_line (hs : s.serving = true) (env : Shell.Environment) (fs : FileSystem)
    (text : String) : s.happen (.turn env fs (.line text)) = s.answer fs text := by
  simp [happen, turn, hs]

theorem happen_job (hs : s.serving = true) (env : Shell.Environment) (fs : FileSystem)
    (job : Job) : s.happen (.turn env fs (.job job)) =
      ([], { s with workspace := s.workspace.finishJob env fs job }) := by
  simp [happen, turn, hs]

theorem happen_completion (hs : s.serving = true) (env : Shell.Environment) (fs : FileSystem) :
    s.happen (.turn env fs .completion) =
      (((s.workspace.handleNext.1.bind (·.2)).map .importFinished).toList,
        { s with workspace := s.workspace.handleNext.2 }) := by
  simp [happen, turn, hs]

theorem happen_request (hs : s.serving = true) (env : Shell.Environment) (fs : FileSystem) :
    s.happen (.turn env fs .request) =
      ((s.workspace.receive.1.map .reanalyze).toList,
        { s with workspace := s.workspace.receive.2 }) := by
  simp [happen, turn, hs]

theorem given?_of_stopped (hs : s.serving = false) (h : Happening) : s.given? h = none := by
  simp [given?, hs]

theorem given?_line (hs : s.serving = true) (env : Shell.Environment) (fs : FileSystem)
    (text : String) : s.given? (.turn env fs (.line text)) = some (.line fs text) := by
  simp [given?, hs, Happening.line?]

theorem given?_completion (hs : s.serving = true) (env : Shell.Environment) (fs : FileSystem) :
    s.given? (.turn env fs .completion) = s.workspace.arrived.head?.map .completion := by
  simp [given?, hs]

theorem given?_job (env : Shell.Environment) (fs : FileSystem) (job : Job) :
    s.given? (.turn env fs (.job job)) = none := by
  simp [given?, Happening.line?]

theorem given?_request (env : Shell.Environment) (fs : FileSystem) :
    s.given? (.turn env fs .request) = none := by
  simp [given?, Happening.line?]

theorem given?_arrival (c : Completion) : s.given? (.arrival c) = none := by
  simp [given?, Happening.line?]

theorem handled_concat (s : Service) (hs : List Happening) (h : Happening) :
    s.handled (hs ++ [h]) = s.handled hs ++ ((s.live hs).2.given? h).toList :=
  filterMap_points_concat _ hs h

theorem questions_concat (hs : List Happening) (h : Happening) :
    questions (hs ++ [h]) = questions hs ++
      if hs.any (·.stops) then [] else h.question?.toList.map (hs, ·) := by
  rw [questions, filterMap_points_concat]
  dsimp only
  split
  · rfl
  · cases h.question? <;> rfl

theorem failed_concat (s : Service) (hs : List Happening) (h : Happening) :
    s.failed (hs ++ [h]) = (s.failed hs || (s.live hs).2.fails h) := by
  rw [failed, points_concat, List.any_append, List.any_cons, List.any_nil, Bool.or_false]
  rfl

theorem breaksOff_eq (s : Service) (fs : FileSystem) (line : String) :
    s.breaksOff fs line =
      (s.workspace.session.respond fs s.project s.root line).any (!·.isWritable) := by
  rw [breaksOff, Session.respond]
  cases Command.read line with
  | error error => rfl
  | ok command =>
    dsimp only
    rw [Option.any_map]

theorem answer_of_blank (h : isBlankLine line) : s.answer fs line = ([], s) := by
  rw [answer, if_pos (List.isEmpty_iff.mp h)]

theorem answer_of_quits (h : quits line) :
    s.answer fs line = ([], { s with serving := false }) := by
  have hblank : ¬ Text.trimChars line.toList = [] := fun hchars =>
    absurd (not_quits_of_blank (List.isEmpty_iff.mpr hchars)) (by simp [h])
  rw [answer, if_neg hblank, Command.read_eq_quit_iff.mpr h]
  rfl

/-- A line that is neither blank nor the last has one reply, which depends on the session. The
service goes on when the reply is written. -/
theorem answer_of_question (hs : s.serving = true) (hblank : isBlankLine line = false)
    (hquits : quits line = false) :
    ∃ o, s.workspace.session.respond fs s.project s.root line = some o ∧ o.isEvent = false ∧
      s.answer fs line = (if o.isWritable then [o] else [], { s with
        workspace.session := s.workspace.session.take s.project s.root (.line fs line)
        serving := o.isWritable }) := by
  have hchars : ¬ Text.trimChars line.toList = [] := by simpa [isBlankLine] using hblank
  rw [answer, if_neg hchars, Session.respond, Session.take]
  cases hread : Command.read line with
  | error error => exact ⟨_, rfl, rfl, by simp [Output.isWritable, Output.paths, ← hs]⟩
  | ok command =>
    have hcommand : command ≠ .quit := by
      rintro rfl
      rw [Command.read_eq_quit_iff.mp hread] at hquits
      cases hquits
    cases hexecute : s.workspace.session.execute fs s.project s.root command with
    | none => exact absurd (Session.execute_eq_none_iff.mp hexecute) hcommand
    | some result =>
      refine ⟨reply result.1, ?_, Session.isEvent_of_execute hexecute, ?_⟩
      · simp only [hexecute, Option.map_some]
      · simp only [Session.afterCommand, hexecute, Option.map_some, Option.getD_some]

theorem read_of_blank (h : isBlankLine line) : Command.read line = .error (.unknown "") := by
  simp only [Command.read, Text.firstWord, List.isEmpty_iff.mp h]
  rfl

theorem take_of_blank (a : ProjectId) (root : Path) (session : Session)
    (h : isBlankLine line) : session.take a root (.line fs line) = session := by
  rw [Session.take, read_of_blank h]

theorem take_of_quits (a : ProjectId) (root : Path) (session : Session)
    (h : quits line) : session.take a root (.line fs line) = session := by
  rw [Session.take, Command.read_eq_quit_iff.mpr h]
  rfl

theorem not_breaksOff_of_blank (h : isBlankLine line) : s.breaksOff fs line = false := by
  rw [breaksOff, read_of_blank h]

theorem not_breaksOff_of_quits (h : quits line) : s.breaksOff fs line = false := by
  rw [breaksOff, Command.read_eq_quit_iff.mpr h]
  rfl

theorem session_handleNext (w : Workspace) :
    w.handleNext.2.session = w.arrived.head?.elim w.session fun c => (w.session.accept c).2 := by
  cases h : w.arrived with
  | nil => simp only [Workspace.handleNext, h, List.head?_nil, Option.elim_none]
  | cons c rest =>
    simp only [Workspace.handleNext, Workspace.deliver, h, Session.session_handle,
      List.head?_cons, Option.elim_some]

structure Happens (s : Service) (h : Happening) (written : List Output) (s' : Service) :
    Prop where
  project : s'.project = s.project
  root : s'.root = s.root
  serving : s'.serving = (s.serving && !h.stops && !s.fails h)
  session : s'.workspace.session.SameBooks
    ((s.given? h).toList.foldl (Session.take s.project s.root) s.workspace.session)
  replies : (written.filter (!·.isEvent)).map some =
    if s.serving then (s.due h).takeWhile Written else []
  fails : s.fails h = (s.serving && !(s.due h).all Written)

/-- After the last line nothing is read, whatever happens. -/
theorem happens_stopped (hs : s.serving = false) (h : Happening) :
    Happens s h (s.happen h).1 (s.happen h).2 := by
  have hgiven := given?_of_stopped hs h
  have hstays : (s.happen h).1 = [] ∧ (s.happen h).2.serving = false ∧
      (s.happen h).2.project = s.project ∧ (s.happen h).2.root = s.root ∧
      (s.happen h).2.workspace.session = s.workspace.session := by
    cases h with
    | turn env fs t =>
      rw [happen_of_stopped hs]
      exact ⟨rfl, hs, rfl, rfl, rfl⟩
    | arrival c => exact ⟨rfl, hs, rfl, rfl, rfl⟩
  obtain ⟨hwritten, hserving, hproject, hroot, hsession⟩ := hstays
  exact {
    project := hproject
    root := hroot
    serving := by simp [hserving, hs]
    session := by
      rw [hgiven, hsession]
      exact .refl _
    replies := by simp [hwritten, hs]
    fails := by simp [Service.fails, hs] }

theorem happens_line (hs : s.serving = true) (env : Shell.Environment) (fs : FileSystem)
    (line : String) :
    Happens s (.turn env fs (.line line)) (s.answer fs line).1 (s.answer fs line).2 := by
  have hgiven : (s.given? (.turn env fs (.line line))).toList = [.line fs line] := by
    rw [given?_line hs, Option.toList_some]
  have hfails : s.fails (.turn env fs (.line line)) = s.breaksOff fs line := by
    simp [Service.fails, Happening.line?, hs]
  cases hblank : isBlankLine line with
  | true =>
    have hquits := not_quits_of_blank hblank
    have hnone : s.due (.turn env fs (.line line)) = [] := by
      simp [due, Happening.question?, Happening.line?, hblank]
    have hgoes : s.breaksOff fs line = false := not_breaksOff_of_blank hblank
    rw [answer_of_blank hblank]
    exact {
      project := rfl
      root := rfl
      serving := by simp [hs, Happening.stops, Happening.line?, hquits, hfails, hgoes]
      session := by
        rw [hgiven, List.foldl_cons, List.foldl_nil, take_of_blank _ _ _ hblank]
        exact .refl _
      replies := by simp [hnone]
      fails := by simp [hnone, hfails, hgoes] }
  | false =>
    cases hquits : quits line with
    | true =>
      have hnone : s.due (.turn env fs (.line line)) = [] := by
        simp [due, Happening.question?, Happening.line?, hquits]
      have hgoes : s.breaksOff fs line = false := not_breaksOff_of_quits hquits
      rw [answer_of_quits hquits]
      exact {
        project := rfl
        root := rfl
        serving := by simp [Happening.stops, Happening.line?, hquits]
        session := by
          rw [hgiven, List.foldl_cons, List.foldl_nil, take_of_quits _ _ _ hquits]
          exact .refl _
        replies := by simp [hnone]
        fails := by simp [hnone, hfails, hgoes] }
    | false =>
      obtain ⟨o, hrespond, hevent, hanswer⟩ := @answer_of_question s fs line hs hblank hquits
      have hdue : s.due (.turn env fs (.line line)) = [some o] := by
        simp [due, Happening.question?, Happening.line?, Option.filter, hblank, hquits, hrespond]
      have hbreaks : s.breaksOff fs line = !o.isWritable := by
        rw [breaksOff_eq, hrespond, Option.any_some]
      rw [hanswer]
      exact {
        project := rfl
        root := rfl
        serving := by simp [hs, Happening.stops, Happening.line?, hquits, hfails, hbreaks]
        session := by
          simp only [hgiven, List.foldl_cons, List.foldl_nil]
          exact .refl _
        replies := by cases hwritable : o.isWritable <;> simp [hs, hdue, hevent, Written, hwritable]
        fails := by simp [hs, hdue, hfails, hbreaks, Written] }

/-- Whatever is no line writes events at most. -/
theorem happens_aside {h : Happening} {written : List Output} {w : Workspace}
    (hline : h.line? = none) (hwritten : ∀ o ∈ written, o.isEvent)
    (hsession : w.session.SameBooks
      ((s.given? h).toList.foldl (Session.take s.project s.root) s.workspace.session)) :
    Happens s h written { s with workspace := w } where
  project := rfl
  root := rfl
  serving := by simp [Happening.stops, Service.fails, hline]
  session := hsession
  replies := by
    have hnone : written.filter (!·.isEvent) = [] :=
      List.filter_eq_nil_iff.mpr fun o ho => by simp [hwritten o ho]
    simp [hnone, due, Happening.question?, hline]
  fails := by simp [Service.fails, due, Happening.question?, hline]

theorem isEvent_of_mem {α : Type} {f : α → Output} (hf : ∀ x, (f x).isEvent) (x : Option α) :
    ∀ o ∈ (x.map f).toList, o.isEvent := by
  intro o ho
  obtain ⟨y, -, rfl⟩ := Option.map_eq_some_iff.mp (Option.mem_toList.mp ho)
  exact hf y

theorem sameBooks_finishJob (env : Shell.Environment) (fs : FileSystem) (w : Workspace)
    (job : Job) : (w.finishJob env fs job).session.SameBooks w.session := by
  rw [Workspace.finishJob]
  split
  · exact ⟨rfl, rfl⟩
  · exact .refl _

theorem happens_happen (s : Service) (h : Happening) :
    Happens s h (s.happen h).1 (s.happen h).2 := by
  cases hs : s.serving with
  | false => exact happens_stopped hs h
  | true =>
    cases h with
    | arrival c =>
      exact happens_aside rfl (by simp [happen]) (by rw [given?_arrival]; exact .refl _)
    | turn env fs t =>
      cases t with
      | line text =>
        rw [happen_line hs]
        exact happens_line hs env fs text
      | job job =>
        rw [happen_job hs]
        refine happens_aside rfl (by simp) ?_
        rw [given?_job]
        exact sameBooks_finishJob env fs s.workspace job
      | completion =>
        rw [happen_completion hs]
        refine happens_aside rfl (isEvent_of_mem (fun _ => rfl) _) ?_
        rw [given?_completion hs, session_handleNext]
        cases s.workspace.arrived.head? <;> exact .refl _
      | request =>
        rw [happen_request hs]
        refine happens_aside rfl (isEvent_of_mem (fun _ => rfl) _) ?_
        rw [given?_request]
        exact .refl _

structure Follows (s : Service) (hs : List Happening) (s' : Service) : Prop where
  project : s'.project = s.project
  root : s'.root = s.root
  serving : s'.serving = (!hs.any (·.stops) && !s.failed hs)
  session : s'.workspace.session.SameBooks
    ((s.handled hs).foldl (Session.take s.project s.root) s.workspace.session)

theorem follows_live (hs : s.serving = true) (happened : List Happening) :
    Follows s happened (s.live happened).2 := by
  induction happened using List.reverseRecOn with
  | nil => exact ⟨rfl, rfl, hs, .refl _⟩
  | append_singleton before h ih =>
    have hstep := happens_happen (s.live before).2 h
    rw [live_concat]
    refine ⟨hstep.project.trans ih.project, hstep.root.trans ih.root, ?_, ?_⟩
    · rw [hstep.serving, ih.serving, List.any_append, List.any_cons, List.any_nil, Bool.or_false,
        Bool.not_or, failed_concat, Bool.not_or]
      ac_rfl
    -- The session has lost the jobs that have ended; in the fold they are still there.
    · have hsession := hstep.session
      rw [ih.project, ih.root] at hsession
      rw [handled_concat, List.foldl_append]
      exact hsession.trans (ih.session.take_all s.project s.root _)

theorem map_questions (hs : List Happening) :
    (questions hs).map (·.2) = (points hs).filterMap fun (before, h) =>
      if before.any (·.stops) then none else h.question? := by
  rw [questions, List.map_filterMap]
  refine List.filterMap_congr fun (before, h) _ => ?_
  dsimp only
  split
  · rfl
  · cases h.question? <;> rfl

theorem questions_cons (h : Happening) (rest : List Happening) :
    (questions (h :: rest)).map (·.2) =
      h.question?.toList ++ if h.stops then [] else (questions rest).map (·.2) := by
  rw [map_questions, map_questions, points, List.filterMap_cons, List.filterMap_map]
  by_cases hstops : h.stops = true <;> cases hquestion : h.question? <;>
    simp [hstops, hquestion]

theorem lines_of_questions (hs : List Happening) :
    (questions hs).map (·.2) =
      ((hs.filterMap (·.line?)).takeWhile (!quits ·.2)).filter (!isBlankLine ·.2) := by
  induction hs with
  | nil => rfl
  | cons h rest ih =>
    rw [questions_cons, ih]
    cases hline : h.line? with
    | none => simp [Happening.question?, Happening.stops, hline]
    | some line =>
      simp only [Happening.question?, Happening.stops, hline, List.filterMap_cons,
        List.takeWhile_cons]
      cases hquits : quits line.2 <;> cases hblank : isBlankLine line.2 <;>
        simp [hquits, hblank, Option.filter]

/-- The replies that the lines ask for, each from the session that the lines and completions handled
before have left. -/
def replies (s : Service) (hs : List Happening) : List (Option Output) :=
  (questions hs).map fun (before, fs, line) =>
    ((s.handled before).foldl (Session.take s.project s.root) s.workspace.session).respond
      fs s.project s.root line

theorem replies_concat (hs : s.serving = true) (before : List Happening) (h : Happening) :
    s.replies (before ++ [h]) =
      s.replies before ++ if before.any (·.stops) then [] else (s.live before).2.due h := by
  have hfollows := follows_live hs before
  rw [replies, questions_concat, List.map_append]
  congr 1
  split
  · rfl
  · rw [List.map_map, due, hfollows.project, hfollows.root]
    refine List.map_congr_left fun (fs, line) _ => ?_
    dsimp only [Function.comp_apply]
    rw [hfollows.session.respond fs s.project s.root line]

theorem takeWhile_append_of_not_all {α : Type} {p : α → Bool} {l : List α} (h : l.all p = false)
    (m : List α) : (l ++ m).takeWhile p = l.takeWhile p := by
  induction l with
  | nil => cases h
  | cons a rest ih =>
    rw [List.cons_append, List.takeWhile_cons, List.takeWhile_cons]
    split
    · next ha => rw [ih (by simpa [ha] using h)]
    · rfl

/-- The lines before the first that tells the service to stop ask for one reply each unless they are
blank, in the order of the lines. The replies of a service, among all that is written, are these up
to the first that cannot be written, where the run ends with an error. Each is what its line gives
in the session that the lines and completions handled before have left. -/
theorem answers_in_order (w : Workspace) (project : ProjectId) (root : Path)
    (hs : List Happening) :
    let s : Service := ⟨w, project, root, true⟩
    ((s.live hs).1.filter (!·.isEvent)).map some = (s.replies hs).takeWhile Written ∧
      s.failed hs = !(s.replies hs).all Written ∧
      (questions hs).map (·.2) =
        ((hs.filterMap (·.line?)).takeWhile (!quits ·.2)).filter (!isBlankLine ·.2) := by
  intro s
  rw [← and_assoc]
  refine ⟨?_, lines_of_questions hs⟩
  induction hs using List.reverseRecOn with
  | nil => exact ⟨rfl, rfl⟩
  | append_singleton before h ih =>
    obtain ⟨hwritten, hfailed⟩ := ih
    have hfollows : Follows s before (s.live before).2 := follows_live rfl before
    have hstep := happens_happen (s.live before).2 h
    rw [live_concat, List.filter_append, List.map_append, hwritten, hstep.replies, failed_concat,
      hstep.fails, hfollows.serving, replies_concat rfl, hfailed]
    cases before.any (·.stops) with
    | true => simp
    | false =>
      cases hall : (s.replies before).all Written with
      | false =>
        -- The run has failed before, so that nothing is added on either side.
        rw [if_neg Bool.false_ne_true, takeWhile_append_of_not_all hall]
        simp [hall]
      | true =>
        have hevery : ∀ reply ∈ s.replies before, Written reply := List.all_eq_true.mp hall
        rw [if_neg Bool.false_ne_true, List.takeWhile_append_of_pos hevery,
          List.takeWhile_eq_self_iff.mpr hevery]
        simp [hall]

/-- A reply to the line is due. The root in it is no text, so that nothing is written and the run
has failed. -/
theorem status_unwritten :
    let fs : FileSystem :=
      ⟨fun _ => false, fun _ => false, fun _ => .failed "", fun _ => none, fun _ => []⟩
    let root : Path := (Path.mk "/tmp").join (.ofOctets [0xFF])
    let w := Workspace.empty 64
    let s : Service :=
      ⟨{ w with session := w.session.attach (.nth 0) (.conventional root) }, .nth 0, root, true⟩
    let hs : List Happening := [.turn ⟨fun _ => none, ""⟩ fs (.line "status")]
    (questions hs).map (·.2.2) = ["status"] ∧ (s.live hs).1 = [] ∧ s.failed hs := by
  intro fs root w s hs
  have hline : (questions hs).map (·.2.2) = ["status"] := by decide +kernel
  have hsilent : (s.live hs).1.isEmpty := by decide +kernel
  have hfailed : s.failed hs := by decide +kernel
  exact ⟨hline, List.isEmpty_iff.mp hsilent, hfailed⟩

end Service

end CompileIndex
