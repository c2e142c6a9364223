import CompileIndex.Arguments
import Mathlib.Data.List.Basic
import Mathlib.Data.List.Induction

/-!
# How the words of an invocation are read

Where an option is expected, a word is told by its spelling alone. An option without its value takes
the next word, whatever it is, so that the words of an invocation fall into single words and pairs.
-/
namespace CompileIndex.Arguments

variable {state : State} {words before : List String} {word spelling text : String}
  {awaited : Awaited}

/-- What a word is where an option is expected: the action that it stands for and what the word
behind it will be. -/
inductive Stands : String → Option Action → State → Prop
  | source (word : String) (h : word.toList.head? ≠ some '-') : Stands word none .ready
  | discarded (word : String) (h : word ∈ discarded) : Stands word none .ready
  | output (word : String) (h : word ∈ outputs) : Stands word none .ignored
  | bare (spelling : String) (awaited : Awaited) (h : (spelling, awaited) ∈ valued) :
    Stands spelling none (.value awaited)
  | withValue (spelling text : String) (awaited : Awaited) (h : (spelling, awaited) ∈ valued)
    (ht : text ≠ "") : Stands (spelling ++ text) (some (awaited.action text)) .ready
  | language : Stands "-x" none (.value .language)
  | flag (word : String) (hdash : word.toList.head? = some '-') (hdiscarded : word ∉ discarded)
    (houtput : word ∉ outputs) (hvalued : valued? word = none) (hlanguage : word ≠ "-x") :
    Stands word (some (.flag word)) .ready

theorem valued?_eq_some (h : valued? word = some (awaited, text)) :
    ∃ spelling, (spelling, awaited) ∈ valued ∧ word = spelling ++ text := by
  obtain ⟨⟨spelling, awaited'⟩, hmem, hmap⟩ := List.exists_of_findSome?_eq_some h
  obtain ⟨rest, hrest, heq⟩ := Option.map_eq_some_iff.mp hmap
  cases heq
  refine ⟨spelling, hmem, ?_⟩
  rw [← String.toList_inj, String.toList_append, String.toList_ofList]
  exact (List.isPrefixOf?_eq_some_iff_append_eq.mp hrest).symm

/-- No spelling of a valued option starts with another one, so that the text behind it counts. -/
theorem valued?_append (h : (spelling, awaited) ∈ valued) (text : String) :
    valued? (spelling ++ text) = some (awaited, text) := by
  simp only [valued, List.mem_cons, Prod.mk.injEq, List.not_mem_nil, or_false] at h
  rcases h with ⟨rfl, rfl⟩ | ⟨rfl, rfl⟩ | ⟨rfl, rfl⟩ | ⟨rfl, rfl⟩ | ⟨rfl, rfl⟩ | ⟨rfl, rfl⟩ |
    ⟨rfl, rfl⟩ | ⟨rfl, rfl⟩ <;>
  simp [valued?, valued, List.isPrefixOf?, String.toList_append]

theorem valued?_of_discarded : ∀ word ∈ discarded, valued? word = none := by decide

theorem valued?_of_output : ∀ word ∈ outputs, valued? word = none := by decide

theorem dash_of_valued : ∀ option ∈ valued, option.1.toList.head? = some '-' := by decide

theorem readOption_append (h : (spelling, awaited) ∈ valued) (text : String) :
    readOption (spelling ++ text) =
      if text = "" then (none, .value awaited) else (some (awaited.action text), .ready) := by
  have hvalued := valued?_append h text
  have hdash : (spelling ++ text).toList.head? = some '-' := by
    rw [String.toList_append, List.head?_append, dash_of_valued _ h]
    rfl
  have hdiscarded : spelling ++ text ∉ discarded := by
    intro hmem
    rw [valued?_of_discarded _ hmem] at hvalued
    cases hvalued
  have houtput : spelling ++ text ∉ outputs := by
    intro hmem
    rw [valued?_of_output _ hmem] at hvalued
    cases hvalued
  rw [readOption, if_neg (not_not_intro hdash), if_neg hdiscarded, if_neg houtput, hvalued]

theorem readOption_inline (h : (spelling, awaited) ∈ valued) (htext : text ≠ "") :
    readOption (spelling ++ text) = (some (awaited.action text), .ready) := by
  rw [readOption_append h, if_neg htext]

theorem readOption_bare (h : (spelling, awaited) ∈ valued) :
    readOption spelling = (none, .value awaited) := by
  have hread := readOption_append h ""
  rwa [String.append_empty, if_pos rfl] at hread

theorem exists_stands (word : String) :
    ∃ action state, readOption word = (action, state) ∧ Stands word action state := by
  rw [readOption]
  by_cases hdash : word.toList.head? = some '-'
  case neg =>
    rw [if_pos hdash]
    exact ⟨_, _, rfl, .source word hdash⟩
  rw [if_neg (not_not_intro hdash)]
  by_cases hdiscarded : word ∈ discarded
  · rw [if_pos hdiscarded]
    exact ⟨_, _, rfl, .discarded word hdiscarded⟩
  rw [if_neg hdiscarded]
  by_cases houtput : word ∈ outputs
  · rw [if_pos houtput]
    exact ⟨_, _, rfl, .output word houtput⟩
  rw [if_neg houtput]
  cases hvalued : valued? word with
  | some found =>
    obtain ⟨awaited, text⟩ := found
    obtain ⟨spelling, hmem, rfl⟩ := valued?_eq_some hvalued
    by_cases ht : text = ""
    · subst ht
      refine ⟨_, _, if_pos rfl, ?_⟩
      rw [String.append_empty]
      exact .bare spelling awaited hmem
    · exact ⟨_, _, if_neg ht, .withValue spelling text awaited hmem ht⟩
  | none =>
    by_cases hlanguage : word = "-x"
    · subst hlanguage
      exact ⟨_, _, rfl, .language⟩
    · exact ⟨_, _, if_neg hlanguage,
        .flag word hdash hdiscarded houtput hvalued hlanguage⟩

/-- The options that take the next word, whatever it is, when they stand alone. -/
def takers : List String := outputs ++ valued.map (·.1) ++ ["-x"]

/-- The words fall into single words and options with the word that they take. -/
inductive Complete : List String → Prop
  | nil : Complete []
  | single (before : List String) (word : String) (h : Complete before) (hw : word ∉ takers) :
    Complete (before ++ [word])
  | pair (before : List String) (option value : String) (h : Complete before)
    (ho : option ∈ takers) : Complete (before ++ [option, value])

theorem mem_takers_iff : word ∈ takers ↔ (readOption word).2 ≠ .ready := by
  constructor
  · have htakers : ∀ option ∈ takers, (readOption option).2 ≠ .ready := by decide
    exact htakers word
  · intro h
    obtain ⟨action, state, hread, hstands⟩ := exists_stands word
    rw [hread] at h
    simp only [takers, List.mem_append, List.mem_map, List.mem_singleton]
    cases hstands with
    | output word hmem => exact .inl (.inl hmem)
    | bare spelling awaited hmem => exact .inl (.inr ⟨_, hmem, rfl⟩)
    | language => exact .inr rfl
    | source | discarded | withValue | flag => exact absurd rfl h

theorem action_of_taker : ∀ option ∈ takers, (readOption option).1 = none := by decide

theorem stateAfter_append (state : State) (xs ys : List String) :
    stateAfter state (xs ++ ys) = stateAfter (stateAfter state xs) ys :=
  List.foldl_append

theorem actionsFrom_cons (state : State) (word : String) (words : List String) :
    actionsFrom state (word :: words) =
      (readWord state word).1.toList ++ actionsFrom (readWord state word).2 words :=
  rfl

theorem actionsFrom_append (state : State) (xs ys : List String) :
    actionsFrom state (xs ++ ys) =
      actionsFrom state xs ++ actionsFrom (stateAfter state xs) ys := by
  induction xs generalizing state with
  | nil => rfl
  | cons word xs ih =>
    rw [List.cons_append, actionsFrom_cons, actionsFrom_cons, ih, List.append_assoc]
    rfl

theorem stateAfter_concat (state : State) (words : List String) (word : String) :
    stateAfter state (words ++ [word]) = (readWord (stateAfter state words) word).2 :=
  stateAfter_append state words [word]

theorem actionsFrom_concat (state : State) (words : List String) (word : String) :
    actionsFrom state (words ++ [word]) =
      actionsFrom state words ++ (readWord (stateAfter state words) word).1.toList := by
  rw [actionsFrom_append, actionsFrom_cons, actionsFrom, List.append_nil]

theorem readWord_of_waiting (h : state ≠ .ready) (word : String) :
    (readWord state word).2 = .ready := by
  cases state with
  | ready => exact absurd rfl h
  | value | ignored => rfl

theorem stateAfter_of_complete (h : Complete words) : stateAfter .ready words = .ready := by
  induction h with
  | nil => rfl
  | single before word _ hw ih =>
    rw [stateAfter_concat, ih]
    rwa [mem_takers_iff, not_not] at hw
  | pair before option value _ ho ih =>
    have hsplit : before ++ [option, value] = before ++ [option] ++ [value] := by simp
    rw [hsplit, stateAfter_concat]
    refine readWord_of_waiting ?_ value
    rw [stateAfter_concat, ih]
    exact mem_takers_iff.mp ho

theorem stateAfter_option (h : Complete before) (option : String) :
    stateAfter .ready (before ++ [option]) = (readOption option).2 := by
  rw [stateAfter_concat, stateAfter_of_complete h]
  rfl

/-- Words that are not complete end with an option that waits for its value. -/
theorem complete_or_waiting (words : List String) :
    Complete words ∨
      ∃ before option, words = before ++ [option] ∧ Complete before ∧ option ∈ takers := by
  induction words using List.reverseRecOn with
  | nil => exact .inl .nil
  | append_singleton words word ih =>
    rcases ih with hcomplete | ⟨before, option, rfl, hcomplete, ho⟩
    · by_cases hword : word ∈ takers
      · exact .inr ⟨words, word, rfl, hcomplete, hword⟩
      · exact .inl (.single words word hcomplete hword)
    · left
      rw [List.append_assoc]
      exact .pair before option word hcomplete ho

def read (folder : Path) (words : List String) : Metadata :=
  (actionsFrom .ready words).foldl (apply folder) Metadata.empty

theorem classify_cons (folder : Path) (compiler : String) (words : List String) :
    classify folder (compiler :: words) = read folder words :=
  rfl

theorem read_append (folder : Path) (xs ys : List String) :
    read folder (xs ++ ys) =
      (actionsFrom (stateAfter .ready xs) ys).foldl (apply folder) (read folder xs) := by
  rw [read, actionsFrom_append, List.foldl_append]
  rfl

theorem read_concat (folder : Path) (words : List String) (word : String) :
    read folder (words ++ [word]) =
      (readWord (stateAfter .ready words) word).1.toList.foldl (apply folder)
        (read folder words) := by
  rw [read_append, actionsFrom_cons, actionsFrom, List.append_nil]

end CompileIndex.Arguments
