import CompileIndex.Proofs.Shell.Reading

/-!
# Fields of a value

A value that is not quoted is split again. Its fields come out as they are, quotes and backslashes
included, unless one of them begins a comment.
-/
namespace CompileIndex.Shell

variable {q : Quote} {c : Char} {v run : List Char}

/-- The longest runs without a separator. -/
def fields (v : List Char) : List (List Char) := (v.splitOnP isSeparator).filter (· ≠ [])

theorem fields_separator (h : isSeparator c) (v : List Char) : fields (c :: v) = fields v := by
  rw [fields, ← List.nil_append (c :: v), List.splitOnP_append_cons [] v h]
  simp [fields]

theorem fields_run (hne : run ≠ []) (h : ∀ d ∈ run, isSeparator d = false) (hv : EndsWord v) :
    fields (run ++ v) = run :: fields v := by
  cases v with
  | nil =>
    rw [List.append_nil, fields, List.splitOnP_eq_singleton h]
    simp [fields, hne]
  | cons c v =>
    have hc : isSeparator c := hv c rfl
    rw [fields_separator hc, fields, List.splitOnP_append_cons run v hc,
      List.splitOnP_eq_singleton h]
    simp [fields, hne]

/-- A value is read as its fields are: by separators, and by runs that end at one. -/
theorem fields_induction {P : List Char → Prop} (nil : P [])
    (separator : ∀ c v, isSeparator c → P v → P (c :: v))
    (run : ∀ c run v, (∀ d ∈ c :: run, isSeparator d = false) → EndsWord v → P v →
      P (c :: run ++ v)) (v : List Char) : P v := by
  cases v with
  | nil => exact nil
  | cons c v =>
    by_cases hc : isSeparator c
    · exact separator c v hc (fields_induction nil separator run v)
    · have hsplit := List.takeWhile_append_dropWhile (p := (!isSeparator ·)) (l := v)
      have hrun : ∀ d ∈ v.takeWhile (!isSeparator ·), isSeparator d = false := by
        intro d hd
        simpa using List.all_eq_true.mp List.all_takeWhile d hd
      have hends : EndsWord (v.dropWhile (!isSeparator ·)) := by
        intro d hd
        have hstop := List.head?_dropWhile_not (!isSeparator ·) v
        rw [hd] at hstop
        simpa using hstop
      have hlen := (List.dropWhile_sublist (!isSeparator ·) (l := v)).length_le
      have ih := fields_induction nil separator run (v.dropWhile (!isSeparator ·))
      rw [← hsplit, ← List.cons_append]
      exact run c _ _ (List.forall_mem_cons.mpr ⟨by simpa using hc, hrun⟩) hends ih
termination_by v.length

theorem guard_append (s t : List Char) : guard q (s ++ t) = guard q s ++ guard q t :=
  List.flatMap_append

theorem guard_separator (h : isSeparator c) (v : List Char) :
    guard .outside (c :: v) = c :: guard .outside v := by
  have hm : isMark .outside c = false := by
    simp only [isSeparator, Bool.or_eq_true, beq_iff_eq] at h
    rcases h with (rfl | rfl) | rfl <;> rfl
  simp [guard, hm]

theorem EndsWord.guard (h : EndsWord v) : EndsWord (guard .outside v) := by
  cases v with
  | nil => exact endsWord_nil
  | cons c v =>
    have hc : isSeparator c := h c rfl
    rw [guard_separator hc]
    exact endsWord_cons hc _

theorem passes_guard_char (h : isSeparator c = false) (word : List Char) :
    Passes (.bare word) (guard .outside [c]) (.bare (c :: word)) := by
  intro rest
  by_cases hm : isMark .outside c
  · have hn : c ≠ '\n' := by
      rintro rfl
      cases h
    have hg : guard .outside [c] = ['\\', c] := by simp [guard, hm]
    rw [hg]
    simp [splitFrom, isSeparator, Place.enter, hn]
  · have hg : guard .outside [c] = [c] := by simp [guard, hm]
    simp only [isMark, Bool.or_eq_true, Bool.and_eq_true, beq_iff_eq, not_or] at hm
    obtain ⟨⟨hd, hb⟩, hs⟩ := hm
    have hs : c ≠ '\'' := fun hc => hs ⟨rfl, hc⟩
    rw [hg]
    simp [splitFrom, h, Place.enter, hd, hb, hs]

theorem passes_guard_run (h : ∀ d ∈ run, isSeparator d = false) (word : List Char) :
    Passes (.bare word) (guard .outside run) (.bare (run.reverse ++ word)) := by
  induction run generalizing word with
  | nil => exact fun rest => rfl
  | cons c run ih =>
    obtain ⟨hc, hrun⟩ := List.forall_mem_cons.mp h
    have hp := (passes_guard_char hc word).append (ih hrun (c :: word))
    rw [← guard_append] at hp
    simpa using hp

/-- Where a word starts, only separators and `#` are read in another way than inside a word. -/
theorem splitFrom_between (h : isSeparator c = false) (hc : c ≠ '#') (rest : List Char) :
    splitFrom .between (c :: rest) = splitFrom (.bare []) (c :: rest) := by
  simp [splitFrom, h, hc]

theorem exists_guard_cons (h : isSeparator c = false) (hc : c ≠ '#') (v : List Char) :
    ∃ d more, guard .outside (c :: v) = d :: more ∧ isSeparator d = false ∧ d ≠ '#' := by
  by_cases hm : isMark .outside c
  · exact ⟨'\\', c :: guard .outside v, by simp [guard, hm], rfl, by decide⟩
  · exact ⟨c, guard .outside v, by simp [guard, hm], h, hc⟩

theorem passes_guard_field (h : ∀ d ∈ c :: run, isSeparator d = false) (hc : c ≠ '#') :
    Passes .between (guard .outside (c :: run)) (.bare (c :: run).reverse) := by
  intro rest
  obtain ⟨d, more, hg, hd, hne⟩ := exists_guard_cons (h c List.mem_cons_self) hc run
  have hp := passes_guard_run h [] rest
  rw [hg, List.cons_append] at hp ⊢
  rw [splitFrom_between hd hne, hp, List.append_nil]

theorem splitsInto_guard (h : ∀ f ∈ fields v, f.head? ≠ some '#') :
    SplitsInto (guard .outside v) (fields v) := by
  induction v using fields_induction with
  | nil =>
    intro rest _
    cases hs : splitFrom .between rest <;> simp [guard, fields, hs]
  | separator c v hc ih =>
    intro rest hrest
    rw [fields_separator hc] at h ⊢
    rw [guard_separator hc, List.cons_append, splitFrom, if_pos hc]
    exact ih h rest hrest
  | run c run v hrun hv ih =>
    intro rest hrest
    rw [fields_run (by simp) hrun hv] at h ⊢
    obtain ⟨hfield, hfields⟩ := List.forall_mem_cons.mp h
    have hc : c ≠ '#' := by
      rintro rfl
      exact hfield rfl
    rw [guard_append, List.append_assoc, passes_guard_field hrun hc,
      splitFrom_bare_of_endsWord (hv.guard.append hrest), ih hfields rest hrest]
    simp [Function.comp_def]

end CompileIndex.Shell
