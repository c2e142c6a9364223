import CompileIndex.Proofs.Arguments.Reading
import Mathlib.Logic.Relation

/-!
# Invocations with the same metadata

What an invocation says can be written in more than one way: the value of an option may stand in the
same word or in the next one. And some words say nothing: the compiler, source files, output paths
and the options that only tell what to produce. Changes of both kinds keep the metadata.
-/
namespace CompileIndex.Arguments

/-- The options whose value may stand in the same word. -/
def joinable : List String :=
  ["-isystem", "-idirafter", "-iquote", "-I", "-iframework", "-F", "-D", "-U"]

/-- The same words, but some options with their value in one word are written in two. -/
inductive Spread : List String → List String → Prop
  | nil : Spread [] []
  | same {words words'} (word : String) (h : Spread words words') :
    Spread (words ++ [word]) (words' ++ [word])
  | apart {words words'} (option text : String) (h : Spread words words')
    (hready : stateAfter .ready words = .ready) (hoption : option ∈ joinable)
    (htext : text ≠ "") : Spread (words ++ [option ++ text]) (words' ++ [option, text])

/-- Words that say nothing where an option is expected: a source file, an option without value that
carries no metadata, or an option for an output path with this path, whatever it is. -/
inductive Mute : List String → Prop
  | nothing : Mute []
  | source (word : String) (h : word.toList.head? ≠ some '-') : Mute [word]
  | discarded (word : String) (h : word ∈ ["-c", "-MD", "-MMD", "-MP"]) : Mute [word]
  | output (option path : String) (h : option ∈ ["-o", "-MF", "-MT", "-MQ"]) :
    Mute [option, path]

/-- A step from one invocation to another: another compiler, or other mute words in the place of
mute words. -/
inductive MuteStep : List String → List String → Prop
  | compiler (old new : String) (words : List String) : MuteStep (old :: words) (new :: words)
  | words (compiler : String) (before old new after : List String)
    (hready : stateAfter .ready before = .ready) (hold : Mute old) (hnew : Mute new) :
    MuteStep (compiler :: (before ++ old ++ after)) (compiler :: (before ++ new ++ after))

variable {words words' before : List String} {word : String}

theorem exists_awaited_of_joinable :
    ∀ option ∈ joinable, ∃ awaited, (option, awaited) ∈ valued := by
  intro option h
  have hmem : option ∈ valued.map (·.1) := h
  obtain ⟨⟨_, awaited⟩, hvalued, rfl⟩ := List.mem_map.mp hmem
  exact ⟨awaited, hvalued⟩

theorem Spread.alike (h : Spread words words') :
    actionsFrom .ready words = actionsFrom .ready words' ∧
      stateAfter .ready words = stateAfter .ready words' := by
  induction h with
  | nil => exact ⟨rfl, rfl⟩
  | same word _ ih =>
    obtain ⟨hactions, hstate⟩ := ih
    constructor
    · rw [actionsFrom_concat, actionsFrom_concat, hactions, hstate]
    · rw [stateAfter_concat, stateAfter_concat, hstate]
  | apart option text _ hready hoption htext ih =>
    obtain ⟨hactions, hstate⟩ := ih
    obtain ⟨awaited, hvalued⟩ := exists_awaited_of_joinable option hoption
    have hone := readOption_inline hvalued htext
    have htwo := readOption_bare hvalued
    constructor
    · rw [actionsFrom_append, actionsFrom_append, hactions, ← hstate, hready]
      simp [actionsFrom, readWord, hone, htwo]
    · rw [stateAfter_append, stateAfter_append, ← hstate, hready]
      simp [stateAfter, readWord, hone, htwo]

/-- Whether the values of options stand in the same word or in the next one makes no difference,
whatever the values are. -/
theorem classify_spread (folder : Path) (compiler : String) (h : Spread words words') :
    classify folder (compiler :: words) = classify folder (compiler :: words') := by
  rw [classify_cons, classify_cons, read, read, h.alike.1]

/-- A value may look like an option, and the value of `-o` is not read as one. -/
theorem classify_spread_dashes :
    let inOne := ["-I-c", "-o", "-DX", "-D-o", "-isystem=", "a.c"]
    let inTwo := ["-I", "-c", "-o", "-DX", "-D", "-o", "-isystem", "=", "a.c"]
    Spread inOne inTwo ∧ classify ⟨"/w"⟩ ("cc" :: inOne) = classify ⟨"/w"⟩ ("cc" :: inTwo) := by
  intro inOne inTwo
  have h : Spread inOne inTwo := by
    have hfolder : Spread ["-I-c"] ["-I", "-c"] :=
      .apart "-I" "-c" .nil rfl (by decide) (by decide)
    have houtput := (hfolder.same "-o").same "-DX"
    have hmacro := houtput.apart "-D" "-o" rfl (by decide) (by decide)
    have hsystem := hmacro.apart "-isystem" "=" rfl (by decide) (by decide)
    exact hsystem.same "a.c"
  exact ⟨h, classify_spread ⟨"/w"⟩ "cc" h⟩

theorem readOption_source (h : word.toList.head? ≠ some '-') : readOption word = (none, .ready) := by
  rw [readOption, if_pos h]

theorem readOption_discarded :
    ∀ word ∈ ["-c", "-MD", "-MMD", "-MP"], readOption word = (none, .ready) := by decide

theorem readOption_output :
    ∀ option ∈ ["-o", "-MF", "-MT", "-MQ"], readOption option = (none, .ignored) := by decide

theorem Mute.silent (h : Mute words) :
    actionsFrom .ready words = [] ∧ stateAfter .ready words = .ready := by
  cases h with
  | nothing => exact ⟨rfl, rfl⟩
  | source word h => simp [actionsFrom, stateAfter, readWord, readOption_source h]
  | discarded word h => simp [actionsFrom, stateAfter, readWord, readOption_discarded word h]
  | output option path h => simp [actionsFrom, stateAfter, readWord, readOption_output option h]

theorem actionsFrom_mute (hready : stateAfter .ready before = .ready) (h : Mute words)
    (after : List String) :
    actionsFrom .ready (before ++ words ++ after) = actionsFrom .ready (before ++ after) := by
  obtain ⟨hactions, hstate⟩ := h.silent
  rw [List.append_assoc, actionsFrom_append, hready, actionsFrom_append, hactions, hstate,
    List.nil_append, actionsFrom_append, hready]

theorem MuteStep.classify_eq (folder : Path) (h : MuteStep words words') :
    classify folder words = classify folder words' := by
  cases h with
  | compiler => rfl
  | words compiler before old new after hready hold hnew =>
    rw [classify_cons, classify_cons, read, read, actionsFrom_mute hready hold,
      actionsFrom_mute hready hnew]

/-- The metadata stays the same when the compiler is replaced, and when source files, output paths
and options that carry none are replaced, deleted or inserted where they are read as such, any
number of times. -/
theorem classify_mute (folder : Path) (h : Relation.ReflTransGen MuteStep words words') :
    classify folder words = classify folder words' := by
  induction h with
  | refl => rfl
  | tail _ hstep ih => exact ih.trans (hstep.classify_eq folder)

/-- The values of `-o` and `-D` look like options, and only the first of them says nothing. -/
theorem classify_mute_steps :
    let before := ["cc", "-c", "-o", "-DX", "-D", "-o", "a.c"]
    let after := ["gcc", "-o", "a.o", "-D", "-o", "-MF", "-c"]
    Relation.ReflTransGen MuteStep before after ∧
    classify ⟨"/w"⟩ before = classify ⟨"/w"⟩ after := by
  intro before after
  have hcompiler : MuteStep before ["gcc", "-c", "-o", "-DX", "-D", "-o", "a.c"] := .compiler ..
  have hdeleted : MuteStep ["gcc", "-c", "-o", "-DX", "-D", "-o", "a.c"]
      ["gcc", "-o", "-DX", "-D", "-o", "a.c"] :=
    .words "gcc" [] ["-c"] [] ["-o", "-DX", "-D", "-o", "a.c"] rfl (.discarded _ (by decide))
      .nothing
  have houtput : MuteStep ["gcc", "-o", "-DX", "-D", "-o", "a.c"]
      ["gcc", "-o", "a.o", "-D", "-o", "a.c"] :=
    .words "gcc" [] ["-o", "-DX"] ["-o", "a.o"] ["-D", "-o", "a.c"] rfl (.output _ _ (by decide))
      (.output _ _ (by decide))
  have hsource : MuteStep ["gcc", "-o", "a.o", "-D", "-o", "a.c"] after :=
    .words "gcc" ["-o", "a.o", "-D", "-o"] ["a.c"] ["-MF", "-c"] [] rfl (.source _ (by decide))
      (.output _ _ (by decide))
  have h : Relation.ReflTransGen MuteStep before after :=
    (((Relation.ReflTransGen.single hcompiler).tail hdeleted).tail houtput).tail hsource
  exact ⟨h, classify_mute ⟨"/w"⟩ h⟩

end CompileIndex.Arguments
