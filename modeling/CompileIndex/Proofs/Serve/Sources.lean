import CompileIndex.Proofs.Path.Clean
import CompileIndex.Proofs.Session.Effects
import CompileIndex.Serve.Service

/-!
# Word of a changed database

The host names a database in the words that laid out the project: the path that it gave, or the
conventional one. Both are resolved alike, so the word reaches the project, whatever the file system
says about links.
-/
namespace CompileIndex

namespace Layout

/-- How the database of a project is named: by the path given with the command, by the environment
if that names one, or by convention. -/
inductive NamedBy : Option Path → Option String → Path → Prop
  | given (path : Path) (environment : Option String) : NamedBy (some path) environment path
  | environment (text : String) (h : text ≠ "") : NamedBy none (some text) ⟨text⟩
  | convention (environment : Option String) (h : environment = none ∨ environment = some "") :
    NamedBy none environment ⟨"../build/compile_commands.json"⟩

variable {given : Option Path} {environment : Option String} {path : Path}

theorem commandsFile_conventional (root : Path) :
    (conventional root).commandsFile = root.resolve ⟨"../build/compile_commands.json"⟩ := by
  have hbuild : (root.join ⟨".."⟩).join ⟨"build"⟩ = root.join ⟨"../build"⟩ :=
    Path.join_join root (by decide) (by decide) ⟨dot, by decide, by decide⟩
  have hfile : (root.join ⟨"../build"⟩).join ⟨"compile_commands.json"⟩ =
      root.join ⟨"../build/compile_commands.json"⟩ :=
    Path.join_join root (by decide) (by decide) ⟨0x64, by decide, by decide⟩
  rw [conventional, Path.resolve, hbuild, hfile]

theorem commandsFile_of_namedBy (root : Path) (h : NamedBy given environment path) :
    (ofOverrides root given environment).commandsFile = root.resolve path := by
  cases h with
  | given path environment =>
    simp only [ofOverrides, override?, Option.some_or, withCommandsFile, conventional]
  | environment text h =>
    have hnamed : override? none (some text) = some ⟨text⟩ := by simp [override?, h]
    simp only [ofOverrides, hnamed, withCommandsFile, conventional]
  | convention environment h =>
    have hnone : override? none environment = none := by rcases h with rfl | rfl <;> rfl
    simp only [ofOverrides, hnone]
    exact commandsFile_conventional root

end Layout

namespace Session

variable {τ : Type} {s : Session} {a : ProjectId} {p : Project}

def layout? (s : Session) (a : ProjectId) : Option Layout := (s.project? a).map (·.layout)

theorem layout?_step_of_keeps (trigger : Trigger τ) (h : History τ) {m : Move τ}
    (hm : m.Keeps a) : (h.step trigger m).session.layout? a = h.session.layout? a := by
  cases m with
  | listener f => rfl
  | event e =>
    exact (congrArg (Option.map _) (project?_next trigger h.session h.queue e a)).trans
      (Event.map_effect (fun _ _ => rfl) hm (fun _ _ _ _ => rfl) _ _)

/-- The layout of a project is the one that it was attached with. -/
theorem layout?_after_attach (trigger : Trigger τ) (queue : τ) (moves later : List (Move τ))
    (layout : Layout) (hlater : ∀ m ∈ later, m.Keeps a) :
    (History.after trigger queue (moves ++ .event (.attach a layout) :: later)).session.layout? a =
      some layout := by
  rw [History.after, List.foldl_append, List.foldl_cons]
  set attached := (moves.foldl (History.step trigger) (History.start queue)).step trigger
    (.event (.attach a layout))
  have hattached : attached.session.layout? a = some layout :=
    congrArg (Option.map _) ((project?_attach _ a a layout).trans (if_pos rfl))
  exact List.foldlRecOn (motive := fun h : History τ => h.session.layout? a = some layout)
    later _ hattached fun h hh m hm => (layout?_step_of_keeps trigger h (hlater m hm)).trans hh

/-- The project awaits a new import, later than all before, and the job for it has started. -/
def Restarts (s : Session) (a : ProjectId) (s' : Session) : Prop :=
  ∃ p g, s.project? a = some p ∧ s.nextGeneration ≤ g ∧
    s'.project? a = some { p with pending := some g } ∧
    (⟨a, g, p.layout.commandsFile⟩ : Job) ∈ s'.running

theorem restarts_all {ids : List ProjectId} (hd : ids.Nodup)
    (ha : ∀ b ∈ ids, (s.project? b).isSome) (hmem : a ∈ ids) :
    s.Restarts a (ids.foldl schedule s) := by
  obtain ⟨p, hp⟩ := Option.isSome_iff_exists.mp (ha a hmem)
  refine ⟨p, s.nextGeneration + ids.idxOf a, hp, Nat.le_add_right _ _, ?_, ?_⟩
  · rw [project?_schedule_all hd s ha, if_pos hmem, hp]
    rfl
  · have hjobs := jobsFrom_of_project s.source s.nextGeneration hd a
    rw [if_pos hmem] at hjobs
    have hjob := (List.mem_filter.mp (hjobs ▸ List.mem_singleton_self _)).1
    have hsource : s.source a = p.layout.commandsFile := by simp [source, hp]
    rw [running_schedule_all hd s ha, ← hsource]
    exact List.mem_append_right _ hjob

theorem reads_resolved {root path : Path} (fs : FileSystem)
    (hp : p.layout.commandsFile = root.resolve path) : reads fs (root.resolve path).clean p := by
  have hclean : (root.resolve path).clean = root.resolve path := Path.clean_clean _
  rw [reads, hclean, hp, Path.same_refl, Bool.true_or]

/-- Since a project was attached, it has been kept. When the host says that the database changed by
which the project was laid out, in the words that named it and with the root of the project, then
the project is among those that are imported again. -/
theorem change_reaches_project (trigger : Trigger τ) (queue : τ) (moves later : List (Move τ))
    (a served : ProjectId) (root : Path) (given : Option Path) (environment : Option String)
    (path : Path) (fs : FileSystem) (hpath : Layout.NamedBy given environment path)
    (hlater : ∀ m ∈ later, m.Keeps a) :
    let s := (History.after trigger queue
      (moves ++ .event (.attach a (.ofOverrides root given environment)) :: later)).session
    ∃ ids s', s.execute fs served root (.changed (some path)) =
      some (.ok (.rescheduled ids), s') ∧ a ∈ ids ∧ s.Restarts a s' := by
  intro s
  have hlayout : s.layout? a = some (.ofOverrides root given environment) :=
    layout?_after_attach trigger queue moves later _ hlater
  obtain ⟨p, hp, hl⟩ := Option.map_eq_some_iff.mp hlayout
  have hreads : reads fs (root.resolve path).clean p := by
    refine reads_resolved fs ?_
    rw [hl]
    exact Layout.commandsFile_of_namedBy root hpath
  have hmem : a ∈ s.affected fs (root.resolve path).clean := by
    rw [mem_affected_iff, hp, Option.any_some]
    exact hreads
  exact ⟨_, _, rfl, hmem, restarts_all (affected_nodup s fs _)
    (fun _ => attached_of_affected) hmem⟩

/-- The root is relative, the path is spelled in a roundabout way, and no path has a canonical
form. -/
theorem change_reaches_project_respelled :
    let fs : FileSystem :=
      ⟨fun _ => false, fun _ => false, fun _ => .failed "", fun _ => none, fun _ => []⟩
    let a : ProjectId := ⟨"p0"⟩
    let path : Path := ⟨".././/out/../../db.json/"⟩
    let s := (History.after (fun _ t => (.ok (), t)) ()
      [.event (.attach a (.ofOverrides ⟨"w"⟩ (some path) (some "other.json"))),
        .event (.completion ⟨a, 0, .error .cancelled⟩)]).session
    ∃ ids s', s.execute fs a ⟨"w"⟩ (.changed (some path)) = some (.ok (.rescheduled ids), s') ∧
      a ∈ ids ∧ s.Restarts a s' := by
  intro fs a path s
  have hkeeps : ∀ m ∈ [Move.event (.completion ⟨a, 0, .error .cancelled⟩)],
      (m : Move Unit).Keeps a := by
    simp [Move.Keeps, Event.Keeps]
  exact change_reaches_project (fun _ t => (.ok (), t)) () []
    [.event (.completion ⟨a, 0, .error .cancelled⟩)] a a ⟨"w"⟩ (some path) (some "other.json") path
    fs (.given path _) hkeeps

end Session

end CompileIndex
