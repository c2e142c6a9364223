import CompileIndex.Proofs.Shell.Fields
import CompileIndex.Proofs.Shell.Quoting

/-!
# Comments in values

A field that begins with `#` begins a comment, which is lost together with what follows it. The loss
is seen from the number of these characters: splitting makes no new ones, quoting keeps them, and a
comment drops at least one.
-/
namespace CompileIndex.Shell

variable {q : Quote} {v rest : List Char} {words : List (List Char)}

def Place.word : Place → List Char
  | .between => []
  | .comment => []
  | .bare word => word
  | .escaped word => word
  | .single word => word
  | .double word => word
  | .doubleEscaped word => word

theorem count_enter_le (word : List Char) (c : Char) :
    (Place.enter word c).word.count '#' ≤ word.count '#' + [c].count '#' := by
  unfold Place.enter
  repeat' split
  all_goals simp [Place.word, List.count_cons]

theorem count_unescapeDouble_le (word : List Char) (c : Char) :
    (unescapeDouble word c).count '#' ≤ word.count '#' + [c].count '#' := by
  unfold unescapeDouble
  repeat' split
  all_goals simp [List.count_cons]

/-- A character adds itself at most, to the word that goes on or to the one that it ends. -/
theorem count_next_le (p : Place) (c : Char) :
    (p.next c).word.count '#' + (p.ended c).flatten.count '#' ≤
      p.word.count '#' + [c].count '#' := by
  cases p with
  | between =>
    simp only [Place.next, Place.ended]
    split
    · simp [Place.word]
    split
    · simp [Place.word]
    · simpa [Place.word] using count_enter_le [] c
  | comment =>
    simp only [Place.next, Place.ended]
    split <;> simp [Place.word]
  | bare word =>
    simp only [Place.next, Place.ended]
    split
    · simp [Place.word]
    · exact count_enter_le word c
  | escaped word =>
    by_cases hc : c = '\n' <;> simp [Place.next, Place.ended, Place.word, hc, List.count_cons]
  | single word =>
    simp only [Place.next, Place.ended]
    split <;> simp [Place.word, List.count_cons]
  | double word =>
    simp only [Place.next, Place.ended]
    split
    · simp [Place.word]
    split <;> simp [Place.word, List.count_cons]
  | doubleEscaped word =>
    simpa [Place.next, Place.ended, Place.word] using count_unescapeDouble_le word c

theorem count_splitFrom_le (p : Place) (s : List Char) (h : splitFrom p s = some words) :
    words.flatten.count '#' ≤ p.word.count '#' + s.count '#' := by
  induction s generalizing p words with
  | nil =>
    cases p with
    | between | comment =>
      cases h
      simp
    | bare word =>
      cases h
      simp [Place.word]
    | escaped | single | double | doubleEscaped => cases h
  | cons c rest ih =>
    have hcount : (c :: rest).count '#' = [c].count '#' + rest.count '#' := by
      rw [← List.count_append, List.singleton_append]
    rw [splitFrom_cons] at h
    obtain ⟨later, hlater, rfl⟩ := Option.map_eq_some_iff.mp h
    have hstep := count_next_le p c
    have hrest := ih (p.next c) hlater
    rw [List.flatten_append, List.count_append]
    omega

theorem count_fields (v : List Char) : (fields v).flatten.count '#' = v.count '#' := by
  induction v using fields_induction with
  | nil => rfl
  | separator c v hc ih =>
    have hne : c ≠ '#' := by
      rintro rfl
      cases hc
    rw [fields_separator hc, ih, List.count_cons_of_ne hne]
  | run c run v hrun hv ih =>
    rw [fields_run (by simp) hrun hv, List.flatten_cons, List.count_append, ih,
      List.count_append]

theorem count_guard (v : List Char) : (guard q v).count '#' = v.count '#' := by
  induction v with
  | nil => rfl
  | cons c v ih =>
    rw [← List.singleton_append, guard_append, List.count_append, List.count_append, ih]
    by_cases hm : isMark q c <;> simp [guard, hm]

/-- When a field begins with `#`, this one is lost at least. -/
theorem count_lt_of_comment (h : ∃ f ∈ fields v, f.head? = some '#') (hrest : EndsWord rest)
    (hs : splitFrom .between (guard .outside v ++ rest) = some words) :
    words.flatten.count '#' < v.count '#' + rest.count '#' := by
  induction v using fields_induction generalizing words with
  | nil => simp [fields] at h
  | separator c v hc ih =>
    rw [fields_separator hc] at h
    rw [guard_separator hc, List.cons_append, splitFrom, if_pos hc] at hs
    have hlt := ih h hs
    have hle : v.count '#' ≤ (c :: v).count '#' := List.count_le_count_cons
    omega
  | run c run v hrun hv ih =>
    by_cases hc : c = '#'
    · subst hc
      have hcomment : splitFrom .comment (guard .outside (run ++ v) ++ rest) = some words := hs
      have hle := count_splitFrom_le .comment _ hcomment
      simp only [Place.word, List.count_nil, List.count_append, count_guard] at hle
      simp only [List.count_append, List.count_cons_self]
      omega
    · rw [guard_append, List.append_assoc, passes_guard_field hrun hc,
        splitFrom_bare_of_endsWord (hv.guard.append hrest)] at hs
      obtain ⟨later, hl, rfl⟩ := Option.map_eq_some_iff.mp hs
      have hfields : ∃ f ∈ fields v, f.head? = some '#' := by
        obtain ⟨f, hf, hhead⟩ := h
        rw [fields_run (by simp) hrun hv] at hf
        rcases List.mem_cons.mp hf with rfl | hf
        · exact absurd (Option.some.inj hhead) hc
        · exact ⟨f, hf, hhead⟩
      have hlt := ih hfields hl
      rw [List.reverse_reverse, List.flatten_cons, List.count_append, List.count_append]
      omega

theorem count_gap (g : Gap) : g.text.count '#' = 0 := by
  rw [List.count_eq_zero]
  intro h
  rcases g.blank '#' h with h | h <;> cases h

theorem count_spaced (gap : Nat → Gap) (texts : List (List Char)) :
    (spaced gap texts).count '#' = texts.flatten.count '#' := by
  induction texts with
  | nil => rfl
  | cons s texts ih =>
    cases texts with
    | nil => simp [spaced]
    | cons t texts =>
      have hs : spaced gap (s :: t :: texts) =
          s ++ ((gap (texts.length + 1)).text ++ spaced gap (t :: texts)) := rfl
      rw [hs, List.count_append, List.count_append, count_gap, ih, Nat.zero_add,
        ← List.count_append, ← List.flatten_cons]

theorem count_escape (style : QuoteStyle) (c : Char) :
    (style.escape c).count '#' = [c].count '#' := by
  cases style with
  | single =>
    by_cases hc : c = '\''
    · subst hc
      rfl
    · rw [QuoteStyle.escape, if_neg hc]
  | double =>
    by_cases hc : c = '"' ∨ c = '\\' ∨ c = '$' ∨ c = '\x60'
    · rw [QuoteStyle.escape, if_pos hc]
      rcases hc with rfl | rfl | rfl | rfl <;> rfl
    · rw [QuoteStyle.escape, if_neg hc]

theorem count_quoted (w : QuotedWord) : w.text.count '#' = w.word.toList.count '#' := by
  have hmark : [w.style.mark].count '#' = 0 := by cases w.style <;> rfl
  rw [QuotedWord.text, QuoteStyle.write, List.count_append, List.count_append, hmark,
    Nat.zero_add, Nat.add_zero]
  induction w.word.toList with
  | nil => rfl
  | cons c word ih =>
    rw [List.flatMap_cons, List.count_append, count_escape, ih, ← List.count_append,
      List.singleton_append]

theorem count_quoted_all (words : List QuotedWord) :
    (words.map (·.text)).flatten.count '#' = (words.map (·.word.toList)).flatten.count '#' := by
  induction words with
  | nil => rfl
  | cons w words ih =>
    rw [List.map_cons, List.map_cons, List.flatten_cons, List.flatten_cons, List.count_append,
      List.count_append, count_quoted, ih]

end CompileIndex.Shell
