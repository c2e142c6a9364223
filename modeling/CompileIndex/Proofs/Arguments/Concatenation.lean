import CompileIndex.Proofs.Arguments.Reading

/-!
# Invocations in two parts

Words behind complete ones are read as if they stood alone. The folders and the flags of the two
parts come one after the other, and the language is that of the second part when it sets one.
-/
namespace CompileIndex.Arguments

variable {state : State} {words before : List String} {word option text : String}
  {action : Action} {actions : List Action} {folder : Path} {m n p mn np whole : Metadata}

/-- Two texts with a blank between them; an empty one does not count. -/
def joinFlags (a b : String) : String :=
  if a = "" then b else if b = "" then a else a ++ " " ++ b

/-- The option for the language stands where an option is expected, and has its value. -/
def SetsLanguage (words : List String) : Prop :=
  ∃ before value after,
    words = before ++ ["-x", value] ++ after ∧ stateAfter .ready before = .ready

theorem exists_of_mem_actionsFrom (h : action ∈ actionsFrom state words) :
    ∃ before word after, words = before ++ word :: after ∧
      (readWord (stateAfter state before) word).1 = some action := by
  induction words using List.reverseRecOn with
  | nil => cases h
  | append_singleton words last ih =>
    rw [actionsFrom_concat, List.mem_append, Option.mem_toList] at h
    rcases h with h | h
    · obtain ⟨before, word, after, rfl, hword⟩ := ih h
      exact ⟨before, word, after ++ [last], by simp, hword⟩
    · exact ⟨words, last, [], rfl, h⟩

theorem readWord_eq_some (h : (readWord state word).1 = some action) :
    state = .ready ∧ (readOption word).1 = some action ∨
    ∃ awaited, state = .value awaited ∧ awaited.action word = action := by
  cases state with
  | ready => exact .inl ⟨rfl, h⟩
  | value awaited => exact .inr ⟨awaited, rfl, Option.some.inj h⟩
  | ignored => cases h

theorem flag_ne_empty (h : Action.flag text ∈ actionsFrom state words) : text ≠ "" := by
  obtain ⟨before, word, after, -, hword⟩ := exists_of_mem_actionsFrom h
  rcases readWord_eq_some hword with ⟨-, hoption⟩ | ⟨awaited, -, hvalue⟩
  · obtain ⟨action, next, hread, hstands⟩ := exists_stands word
    rw [hread] at hoption
    cases hstands with
    | flag word hdash =>
      cases hoption
      rintro rfl
      cases hdash
    | withValue spelling text awaited => cases awaited <;> cases hoption
    | source | discarded | output | bare | language => cases hoption
  · cases awaited <;> cases hvalue

theorem language_notMem_valued (spelling : String) : (spelling, Awaited.language) ∉ valued := by
  simp [valued]

theorem readOption_ne_language (word text : String) :
    (readOption word).1 ≠ some (.language text) := by
  obtain ⟨action, next, hread, hstands⟩ := exists_stands word
  rw [hread]
  intro haction
  cases hstands with
  | withValue spelling text awaited hmem =>
    cases awaited with
    | language => exact language_notMem_valued _ hmem
    | includeFolder | frameworkFolder | define | undefine => cases haction
  | source | discarded | output | bare | language | flag => cases haction

theorem eq_of_readOption_language (h : (readOption option).2 = .value .language) :
    option = "-x" := by
  obtain ⟨action, next, hread, hstands⟩ := exists_stands option
  rw [hread] at h
  cases hstands with
  | bare spelling awaited hmem =>
    cases h
    exact absurd hmem (language_notMem_valued _)
  | language => rfl
  | source | discarded | output | withValue | flag => cases h

theorem eq_of_awaits_language (h : stateAfter .ready words = .value .language) :
    ∃ before, words = before ++ ["-x"] ∧ stateAfter .ready before = .ready := by
  rcases complete_or_waiting words with hcomplete | ⟨before, option, rfl, hcomplete, -⟩
  · rw [stateAfter_of_complete hcomplete] at h
    cases h
  · rw [stateAfter_option hcomplete] at h
    exact ⟨before, by rw [eq_of_readOption_language h], stateAfter_of_complete hcomplete⟩

theorem language_mem_iff :
    (∃ text, Action.language text ∈ actionsFrom .ready words) ↔ SetsLanguage words := by
  constructor
  · rintro ⟨text, h⟩
    obtain ⟨before, word, after, rfl, hword⟩ := exists_of_mem_actionsFrom h
    rcases readWord_eq_some hword with ⟨-, hoption⟩ | ⟨awaited, hstate, hvalue⟩
    · exact absurd hoption (readOption_ne_language word text)
    · cases awaited with
      | language =>
        obtain ⟨earlier, rfl, hready⟩ := eq_of_awaits_language hstate
        exact ⟨earlier, word, after, by simp, hready⟩
      | includeFolder | frameworkFolder | define | undefine => cases hvalue
  · rintro ⟨before, value, after, rfl, hready⟩
    refine ⟨value, ?_⟩
    have hpair : actionsFrom .ready ["-x", value] = [.language value] := rfl
    rw [actionsFrom_append, actionsFrom_append, hready, hpair]
    simp

theorem joinFlags_assoc (a b c : String) :
    joinFlags (joinFlags a b) c = joinFlags a (joinFlags b c) := by
  by_cases ha : a = ""
  · simp [joinFlags, ha]
  by_cases hb : b = ""
  · simp [joinFlags, ha, hb]
  by_cases hc : c = ""
  · simp [joinFlags, ha, hb, hc]
  · simp [joinFlags, ha, hb, hc, String.append_assoc]

/-- The folders and the flags of `whole` are those of `m` and then those of `n`. -/
structure Follows (m n whole : Metadata) : Prop where
  includes : whole.includes = m.includes ++ n.includes
  frameworkDirectories :
    whole.frameworkDirectories = m.frameworkDirectories ++ n.frameworkDirectories
  compileFlags : whole.compileFlags = joinFlags m.compileFlags n.compileFlags

theorem follows_empty (m : Metadata) : Follows m .empty m := by
  refine ⟨?_, ?_, ?_⟩
  · exact (List.append_nil _).symm
  · exact (List.append_nil _).symm
  · by_cases h : m.compileFlags = "" <;> simp [joinFlags, Metadata.empty, h]

theorem Follows.assoc (h : Follows m n mn) (k : Follows mn p whole) (l : Follows n p np) :
    Follows m np whole := by
  refine ⟨?_, ?_, ?_⟩
  · rw [k.includes, h.includes, l.includes, List.append_assoc]
  · rw [k.frameworkDirectories, h.frameworkDirectories, l.frameworkDirectories,
      List.append_assoc]
  · rw [k.compileFlags, h.compileFlags, l.compileFlags, joinFlags_assoc]

theorem follows_apply (h : action ≠ .flag "") (m : Metadata) :
    Follows m (apply folder .empty action) (apply folder m action) := by
  have hm := follows_empty m
  cases action with
  | includeFolder text => exact ⟨rfl, hm.frameworkDirectories, hm.compileFlags⟩
  | frameworkFolder text => exact ⟨hm.includes, rfl, hm.compileFlags⟩
  | define text =>
    simp only [apply]
    by_cases hname : (splitDefinition text).1 = ""
    · rw [if_pos hname, if_pos hname]
      exact hm
    · rw [if_neg hname, if_neg hname]
      exact ⟨hm.includes, hm.frameworkDirectories, hm.compileFlags⟩
  | undefine | language => exact ⟨hm.includes, hm.frameworkDirectories, hm.compileFlags⟩
  | flag text =>
    have htext : text ≠ "" := by
      rintro rfl
      exact h rfl
    refine ⟨hm.includes, hm.frameworkDirectories, ?_⟩
    simp [apply, Metadata.empty, joinFlags, htext]

theorem follows_foldl (h : .flag "" ∉ actions) (m : Metadata) :
    Follows m (actions.foldl (apply folder) .empty) (actions.foldl (apply folder) m) := by
  induction actions using List.reverseRecOn with
  | nil => exact follows_empty m
  | append_singleton actions action ih =>
    rw [List.mem_append, not_or] at h
    have haction : action ≠ .flag "" := by
      rintro rfl
      exact h.2 List.mem_cons_self
    rw [List.foldl_append, List.foldl_append]
    exact (ih h.1).assoc (follows_apply haction _) (follows_apply haction _)

/-- The last action for the language counts, and without one the language stays. -/
theorem language_foldl (folder : Path) (actions : List Action) (m m' : Metadata) :
    ((∃ text, .language text ∈ actions) →
      (actions.foldl (apply folder) m).language = (actions.foldl (apply folder) m').language) ∧
    ((¬ ∃ text, .language text ∈ actions) →
      (actions.foldl (apply folder) m).language = m.language) := by
  induction actions using List.reverseRecOn with
  | nil => simp
  | append_singleton actions action ih =>
    simp only [List.foldl_append, List.foldl_cons, List.foldl_nil, List.mem_append,
      List.mem_singleton]
    cases action with
    | language text => exact ⟨fun _ => rfl, fun h => absurd ⟨text, .inr rfl⟩ h⟩
    | define text =>
      have hkeeps : ∀ m, (apply folder m (.define text)).language = m.language := by
        intro m
        simp only [apply]
        by_cases hname : (splitDefinition text).1 = ""
        · rw [if_pos hname]
        · rw [if_neg hname]
      simpa [hkeeps] using ih
    | includeFolder | frameworkFolder | undefine | flag => simpa [apply] using ih

/-- Behind complete words the rest is read as if it stood alone: folders and flags are put one after
the other, and the language is that of the rest when the rest sets it. Words that are not complete
end with an option without its value, which does not count. -/
theorem classify_in_parts (folder : Path) (compiler : String) (xs ys : List String) :
    (stateAfter .ready xs = .ready →
      let whole := classify folder (compiler :: (xs ++ ys))
      let first := classify folder (compiler :: xs)
      let second := classify folder (compiler :: ys)
      whole.includes = first.includes ++ second.includes ∧
      whole.frameworkDirectories = first.frameworkDirectories ++ second.frameworkDirectories ∧
      whole.compileFlags = joinFlags first.compileFlags second.compileFlags ∧
      (SetsLanguage ys → whole.language = second.language) ∧
      (¬ SetsLanguage ys → whole.language = first.language)) ∧
    (stateAfter .ready xs ≠ .ready →
      ∃ before option, xs = before ++ [option] ∧ option ∈ takers ∧
        stateAfter .ready before = .ready ∧
        classify folder (compiler :: xs) = classify folder (compiler :: before)) := by
  constructor
  · intro hready whole first second
    have hwhole : whole = (actionsFrom .ready ys).foldl (apply folder) first := by
      simp only [whole, classify_cons, read_append, hready]
      rfl
    have hflags : Action.flag "" ∉ actionsFrom .ready ys := fun hmem => flag_ne_empty hmem rfl
    have hfollows : Follows first second whole := by
      rw [hwhole]
      exact follows_foldl hflags first
    obtain ⟨hset, hunset⟩ := language_foldl folder (actionsFrom .ready ys) first .empty
    rw [language_mem_iff, ← hwhole] at hset hunset
    exact ⟨hfollows.includes, hfollows.frameworkDirectories, hfollows.compileFlags, hset, hunset⟩
  · intro hwaiting
    rcases complete_or_waiting xs with hcomplete | ⟨before, option, rfl, hcomplete, ho⟩
    · exact absurd (stateAfter_of_complete hcomplete) hwaiting
    · have hready := stateAfter_of_complete hcomplete
      refine ⟨before, option, rfl, ho, hready, ?_⟩
      rw [classify_cons, classify_cons, read_concat, hready, readWord,
        action_of_taker option ho]
      rfl

/-- The language of the second part replaces that of the first, and a bare `-D` adds nothing. -/
theorem classify_in_parts_language :
    let xs := ["-Ia", "-O2", "-x", "c"]
    let ys := ["-x", "c++", "-I", "-x", "-Wall"]
    let whole := classify ⟨"/w"⟩ ("cc" :: (xs ++ ys))
    stateAfter .ready xs = .ready ∧ SetsLanguage ys ∧
    whole.includes = [⟨"/w/a"⟩, ⟨"/w/-x"⟩] ∧ whole.compileFlags = "-O2 -Wall" ∧
    whole.language = "c++" ∧
    stateAfter .ready (xs ++ ["-D"]) ≠ .ready ∧
    (classify ⟨"/w"⟩ ("cc" :: (xs ++ ["-D"]))).language = "c" := by
  intro xs ys whole
  have hready : stateAfter .ready xs = .ready := by decide
  have hsets : SetsLanguage ys := ⟨[], "c++", ["-I", "-x", "-Wall"], rfl, rfl⟩
  have hwaiting : stateAfter .ready (xs ++ ["-D"]) ≠ .ready := by decide
  obtain ⟨hincludes, -, hflags, hlanguage, -⟩ := (classify_in_parts ⟨"/w"⟩ "cc" xs ys).1 hready
  obtain ⟨before, option, hxs, -, -, hclassify⟩ :=
    (classify_in_parts ⟨"/w"⟩ "cc" (xs ++ ["-D"]) ys).2 hwaiting
  obtain ⟨rfl, -⟩ := List.append_inj' hxs rfl
  refine ⟨hready, hsets, ?_, ?_, ?_, hwaiting, ?_⟩
  · rw [hincludes]
    decide +kernel
  · rw [hflags]
    decide +kernel
  · rw [hlanguage hsets]
    decide +kernel
  · rw [hclassify]
    decide +kernel

end CompileIndex.Arguments
