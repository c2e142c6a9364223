import CompileIndex.Proofs.Shell.Grammar
import Mathlib.Data.List.Induction

/-!
# Commands that cannot be split

The scan and the splitting both keep track of quotes and backslashes. They agree on them in every
command that the scan accepts, values of variables included, up to the first comment: the scan reads
on in it, and the splitting does not. So splitting fails when a backslash ends the command, unless it
stands in a comment, and it may fail behind a comment that hides a quote.
-/
namespace CompileIndex.Shell

/-- The quotes that are open, and whether a backslash waits for its character. -/
structure Standing where
  quote : Quote
  escaping : Bool
  deriving DecidableEq, Repr

namespace Standing

def start : Standing := ⟨.outside, false⟩

def next (s : Standing) (c : Char) : Standing :=
  if s.escaping then ⟨s.quote, false⟩
  else if s.quote ≠ .single ∧ c = '\\' then ⟨s.quote, true⟩
  else ⟨s.quote.after c, false⟩

end Standing

/-- How quotes and backslashes stand behind a text that is read inside the quotes `q`. -/
def standingFrom (q : Quote) (text : List Char) : Standing := text.foldl .next ⟨q, false⟩

def standing (text : List Char) : Standing := standingFrom .outside text

/-- A backslash outside quotes ends the command, and it is not the second one of a pair. -/
def EndsInBackslash (command : String) : Prop := standing command.toList = ⟨.outside, true⟩

/-- A word may start behind the text, and so may a comment. -/
def StartsWord (text : List Char) : Prop :=
  text = [] ∨ ∃ before c, text = before ++ [c] ∧ isSeparator c ∧ standing before = .start

def CommentFree (text : List Char) : Prop :=
  ∀ before after, text = before ++ '#' :: after → ¬ StartsWord before

/-- The text ends inside quotes or behind a backslash. Behind the line of a comment it is read
anew. -/
inductive Unfinished : List Char → Prop
  | ends (text : List Char) (hfree : CommentFree text) (h : standing text ≠ .start) :
    Unfinished text
  | behindComment (before comment after : List Char) (hfree : CommentFree before)
    (hstart : StartsWord before) (hline : '\n' ∉ comment) (h : Unfinished after) :
    Unfinished (before ++ '#' :: (comment ++ '\n' :: after))

variable {env : Environment} {fs : FileSystem} {folder : Path} {q q' : Quote} {c : Char}
  {s rest : List Char} {piece : Piece} {n : Nat} {p : Place} {st : Standing}
  {command : String} {r : Substituted}

/-! ## The scan -/

theorem next_unmarked (hq : q ≠ .single) (hc : isMark q c = false) :
    Standing.next ⟨q, false⟩ c = ⟨q, false⟩ := by
  simp only [isMark, Bool.or_eq_false_iff, beq_eq_false_iff_ne] at hc
  obtain ⟨⟨hd, hb⟩, hs⟩ := hc
  cases q with
  | outside =>
    have hs : c ≠ '\'' := by simpa using hs
    simp [Standing.next, Quote.after, hd, hb, hs]
  | single => exact absurd rfl hq
  | double => simp [Standing.next, Quote.after, hd, hb]

theorem standingFrom_cons (q : Quote) (c : Char) (s : List Char) :
    standingFrom q (c :: s) = s.foldl .next (Standing.next ⟨q, false⟩ c) :=
  rfl

theorem standingFrom_append (h : standingFrom q s = ⟨q', false⟩) (t : List Char) :
    standingFrom q (s ++ t) = standingFrom q' t := by
  rw [standingFrom, List.foldl_append]
  exact congrArg (t.foldl Standing.next) h

theorem standingFrom_unmarked (hq : q ≠ .single) (h : ∀ c ∈ s, isMark .outside c = false) :
    standingFrom q s = ⟨q, false⟩ := by
  induction s with
  | nil => rfl
  | cons c s ih =>
    obtain ⟨hc, hs⟩ := List.forall_mem_cons.mp h
    have hmark : isMark q c = false := by
      cases q with
      | outside | single => exact hc
      | double => simp_all [isMark]
    rw [standingFrom_cons, next_unmarked hq hmark]
    exact ih hs

/-- A value leaves the quotes around it as they are. -/
theorem standingFrom_guard (hq : q ≠ .single) (v : List Char) :
    standingFrom q (guard q v) = ⟨q, false⟩ := by
  induction v with
  | nil => rfl
  | cons c v ih =>
    by_cases hm : isMark q c
    · have hg : guard q (c :: v) = ['\\', c] ++ guard q v := by simp [guard, hm]
      have hpair : standingFrom q ['\\', c] = ⟨q, false⟩ := by
        simp [standingFrom, Standing.next, hq]
      rw [hg, standingFrom_append hpair, ih]
    · have hg : guard q (c :: v) = c :: guard q v := by simp [guard, hm]
      rw [hg, standingFrom_cons, next_unmarked hq (by simpa using hm)]
      exact ih

theorem unmarked_of_isNameChar (h : isNameChar c) : isMark .outside c = false := by
  rw [← Bool.not_eq_true]
  intro hm
  simp only [isMark, Bool.or_eq_true, Bool.and_eq_true, beq_iff_eq] at hm
  rcases hm with (rfl | rfl) | ⟨-, rfl⟩ <;> exact absurd h (by decide)

theorem unmarked_of_special (h : isDigit c ∨ c ∈ specials) : isMark .outside c = false := by
  rcases h with h | h
  · refine unmarked_of_isNameChar ?_
    simp only [isNameChar, Char.isAlphanum, Bool.or_eq_true]
    exact .inr (.inr h)
  · simp only [specials, List.mem_cons, List.not_mem_nil, or_false] at h
    rcases h with rfl | rfl | rfl | rfl | rfl | rfl | rfl <;> rfl

theorem unmarked_of_isReferent (h : IsReferent s) : ∀ c ∈ s, isMark .outside c = false := by
  intro c hc
  rcases h with h | h | ⟨d, hd, rfl⟩
  · exact unmarked_of_isNameChar (h.all c hc)
  · exact unmarked_of_special (.inl (h.2 c hc))
  · rw [List.mem_singleton] at hc
    exact unmarked_of_special (.inr (hc ▸ hd))

/-- A dollar sign is read as itself, or it begins a reference without quotes and backslashes. -/
theorem dollar_cases (h : dollar s = .ok (piece, n)) :
    piece = .char '$' ∧ n = 0 ∨
    (∃ r, piece = .reference r) ∧ ∀ c ∈ s.take n, isMark .outside c = false := by
  obtain ⟨x, rest, hx, heq⟩ := exists_stands_dollar (q := .outside) (by decide) s
  cases hx with
  | plain _ _ _ hd => exact absurd (List.cons.inj heq).1.symm hd
  | dollar _ hrest =>
    obtain rfl : s = rest := (List.cons.inj heq).2
    rw [dollar_plain hrest] at h
    cases h
    exact .inl ⟨rfl, rfl⟩
  | escape | finalSlash => cases heq
  | @name _ text _ _ hname hrest =>
    obtain rfl : s = text ++ rest := (List.cons.inj heq).2
    rw [dollar_name hname hrest] at h
    cases h
    rw [List.take_left]
    exact .inr ⟨⟨_, rfl⟩, fun c hc => unmarked_of_isNameChar (hname.all c hc)⟩
  | @parameter _ c _ _ hc =>
    obtain rfl : s = c :: rest := (List.cons.inj heq).2
    obtain ⟨r, hr⟩ := dollar_parameter hc rest
    rw [hr] at h
    cases h
    refine .inr ⟨⟨r, rfl⟩, fun d hd => ?_⟩
    obtain rfl : d = c := by simpa using hd
    exact unmarked_of_special hc
  | @braces _ text _ _ hclosed =>
    obtain rfl : s = '\x7b' :: (text ++ '\x7d' :: rest) := by
      simpa [Lexeme.tail] using (List.cons.inj heq).2
    rw [dollar_braces hclosed] at h
    cases hb : braced? text with
    | none =>
      rw [hb] at h
      cases h
    | some r =>
      rw [hb] at h
      cases h
      have htext := unmarked_of_isReferent (isSome_braced?_iff.mp (Option.isSome_of_mem hb))
      have htake : ('\x7b' :: (text ++ '\x7d' :: rest)).take (text.length + 2) =
          '\x7b' :: (text ++ ['\x7d']) := by
        rw [List.take_succ_cons, List.take_length_add_append]
        rfl
      rw [htake]
      refine .inr ⟨⟨r, rfl⟩, fun c hc => ?_⟩
      simp only [List.mem_cons, List.mem_append, List.not_mem_nil, or_false] at hc
      rcases hc with rfl | hc | rfl
      · rfl
      · exact htext c hc
      · rfl
  | @openBraces _ text _ hopen =>
    obtain rfl : s = '\x7b' :: text := by simpa [Lexeme.tail] using (List.cons.inj heq).2
    rw [dollar_openBraces hopen] at h
    cases h
  | parenthesis =>
    obtain rfl : s = '(' :: rest := (List.cons.inj heq).2
    cases h

theorem standingFrom_dollar (env : Environment) (hq : q ≠ .single)
    (h : dollar s = .ok (piece, n)) :
    standingFrom q ('$' :: s.take n) = ⟨q, false⟩ ∧
    standingFrom q ((⟨q, piece⟩ : Item).text env) = ⟨q, false⟩ := by
  have hmark : isMark q '$' = false := by cases q <;> rfl
  have hdollar : Standing.next ⟨q, false⟩ '$' = ⟨q, false⟩ := next_unmarked hq hmark
  rcases dollar_cases h with ⟨rfl, rfl⟩ | ⟨⟨r, rfl⟩, hs⟩
  · exact ⟨hdollar, hdollar⟩
  · constructor
    · rw [standingFrom_cons, hdollar]
      exact standingFrom_unmarked hq hs
    · exact standingFrom_guard hq (r.value env).toList

/-- A piece leaves quotes and backslashes as the characters do that it is read from. Only a backslash
that ends the command is left open. -/
theorem standingFrom_piece (env : Environment) (h : readPiece q c s = .ok (piece, q', n)) :
    standingFrom q (c :: s.take n) = standingFrom q ((⟨q, piece⟩ : Item).text env) ∧
    (standingFrom q (c :: s.take n) = ⟨q', false⟩ ∨
      s = [] ∧ standingFrom q (c :: s.take n) = ⟨q', true⟩) := by
  unfold readPiece at h
  by_cases hq : q = .single
  · subst hq
    rw [if_pos rfl] at h
    cases h
    exact ⟨rfl, .inl rfl⟩
  rw [if_neg hq] at h
  by_cases hslash : c = '\\'
  · subst hslash
    rw [if_pos rfl] at h
    cases s with
    | nil =>
      cases h
      exact ⟨rfl, .inr ⟨rfl, by simp [standingFrom, Standing.next, hq]⟩⟩
    | cons d rest =>
      cases h
      exact ⟨rfl, .inl (by simp [standingFrom, Standing.next, hq])⟩
  rw [if_neg hslash] at h
  by_cases htick : c = '\x60'
  · rw [if_pos htick] at h
    cases h
  rw [if_neg htick] at h
  by_cases hdollar : c = '$'
  · subst hdollar
    rw [if_pos rfl] at h
    cases hd : dollar s with
    | error e =>
      rw [hd] at h
      cases h
    | ok found =>
      rw [hd] at h
      cases h
      obtain ⟨hread, htext⟩ := standingFrom_dollar env hq hd
      exact ⟨hread.trans htext.symm, .inl hread⟩
  rw [if_neg hdollar] at h
  by_cases hoperator : q = .outside ∧ isOperator c
  · rw [if_pos hoperator] at h
    cases h
  · rw [if_neg hoperator] at h
    cases h
    exact ⟨rfl, .inl (by simp [standingFrom, Standing.next, hslash])⟩

/-- Behind a command that is accepted, quotes and backslashes stand as behind the command with its
references replaced, and no quotes are open. -/
theorem standingFrom_scan (env : Environment) (s : List Char) (taken : Nat) (q : Quote)
    (h : (scanFrom taken q s).fault = none) :
    standingFrom q (s.drop taken) =
      standingFrom q ((scanFrom taken q s).items.flatMap (·.text env)) ∧
    (standingFrom q (s.drop taken)).quote = .outside := by
  induction s generalizing taken q with
  | nil =>
    cases q with
    | outside => simp [scanFrom, standingFrom]
    | single | double => cases h
  | cons c rest ih =>
    cases taken with
    | succ n => exact ih n q h
    | zero =>
      cases hread : readPiece q c rest with
      | error e =>
        rw [fault_scanFrom_of_error hread] at h
        cases h
      | ok found =>
        obtain ⟨piece, q', n⟩ := found
        have hscan : scanFrom 0 q (c :: rest) =
            { scanFrom n q' rest with items := ⟨q, piece⟩ :: (scanFrom n q' rest).items } := by
          rw [scanFrom, hread]
        rw [hscan] at h ⊢
        obtain ⟨hmore, hquote⟩ := ih n q' h
        obtain ⟨hpiece, hbehind⟩ := standingFrom_piece env hread
        have hsplit : c :: rest = c :: rest.take n ++ rest.drop n := by simp
        rw [List.drop_zero, List.flatMap_cons]
        rcases hbehind with hbehind | ⟨rfl, hbehind⟩
        · rw [hsplit, standingFrom_append hbehind, standingFrom_append (hpiece ▸ hbehind)]
          exact ⟨hmore, hquote⟩
        · -- The piece is the last one, and `q'` is outside because nothing is open at the end.
          rw [List.take_nil] at hpiece hbehind
          rw [List.drop_nil] at hquote
          have hlast : q' = .outside := hquote
          simp [scanFrom, ← hpiece, hbehind, hlast]

theorem standing_substitute (h : substitute env command = .ok r) :
    standing r.text = standing command.toList ∧ (standing r.text).quote = .outside := by
  have hfault := substitute_isOk_iff.mp ⟨r, h⟩
  obtain ⟨hkeeps, hquote⟩ := standingFrom_scan env command.toList 0 .outside hfault
  rw [substitute, hfault] at h
  cases h
  have htext : standing ((scan command).substituted env).text = standing command.toList :=
    hkeeps.symm
  exact ⟨htext, htext ▸ hquote⟩

/-! ## The splitting -/

def placeBehind (text : List Char) : Place := text.foldl .next .between

def Place.isOpen : Place → Bool
  | .escaped _ | .single _ | .double _ | .doubleEscaped _ => true
  | _ => false

theorem splitFrom_eq_none_iff (p : Place) (s : List Char) :
    splitFrom p s = none ↔ (s.foldl Place.next p).isOpen := by
  induction s generalizing p with
  | nil => cases p <;> simp [splitFrom, Place.isOpen]
  | cons c rest ih => rw [splitFrom_cons, Option.map_eq_none_iff, ih, List.foldl_cons]

theorem split?_eq_none_iff (s : List Char) : split? s = none ↔ (placeBehind s).isOpen :=
  splitFrom_eq_none_iff .between s

/-- What a place says of quotes and backslashes. A comment says nothing. -/
def Place.standing? : Place → Option Standing
  | .between | .bare _ => some .start
  | .escaped _ => some ⟨.outside, true⟩
  | .single _ => some ⟨.single, false⟩
  | .double _ => some ⟨.double, false⟩
  | .doubleEscaped _ => some ⟨.double, true⟩
  | .comment => none

theorem standing?_enter (word : List Char) (c : Char) :
    (Place.enter word c).standing? = some (Standing.start.next c) := by
  unfold Place.enter
  repeat' split
  all_goals simp_all [Place.standing?, Standing.next, Standing.start, Quote.after]

theorem next_separator (h : isSeparator c) : Standing.start.next c = .start := by
  simp only [isSeparator, Bool.or_eq_true, beq_iff_eq] at h
  rcases h with (rfl | rfl) | rfl <;> rfl

/-- Splitting reads quotes and backslashes in the same way, unless a comment starts. -/
theorem standing?_next (h : p.standing? = some st) (hc : p = .between → c ≠ '#') :
    (p.next c).standing? = some (st.next c) := by
  cases p with
  | between =>
    cases h
    by_cases hs : isSeparator c
    · rw [Place.next, if_pos hs, next_separator hs, Place.standing?]
    · rw [Place.next, if_neg hs, if_neg (hc rfl)]
      exact standing?_enter [] c
  | comment => cases h
  | bare word =>
    cases h
    by_cases hs : isSeparator c
    · rw [Place.next, if_pos hs, next_separator hs, Place.standing?]
    · rw [Place.next, if_neg hs]
      exact standing?_enter word c
  | single word =>
    cases h
    by_cases hq : c = '\''
    · subst hq
      rfl
    · simp [Place.next, Place.standing?, Standing.next, Quote.after, hq]
  | double word =>
    cases h
    by_cases hq : c = '"'
    · subst hq
      rfl
    by_cases hb : c = '\\'
    · subst hb
      rfl
    · simp [Place.next, Place.standing?, Standing.next, Quote.after, hq, hb]
  | escaped word | doubleEscaped word =>
    cases h
    rfl

theorem enter_ne_between (word : List Char) (c : Char) : Place.enter word c ≠ .between := by
  unfold Place.enter
  repeat' split
  all_goals simp

/-- The next character may start a word exactly when a separator outside quotes came last. -/
theorem next_eq_between_iff (h : p.standing? = some st) (hc : p = .between → c ≠ '#') :
    p.next c = .between ↔ isSeparator c ∧ st = .start := by
  cases p with
  | between =>
    cases h
    by_cases hs : isSeparator c <;> simp [Place.next, hc rfl, hs, enter_ne_between]
  | comment => cases h
  | bare word =>
    cases h
    by_cases hs : isSeparator c <;> simp [Place.next, hs, enter_ne_between]
  | single word =>
    cases h
    by_cases hq : c = '\'' <;> simp [Place.next, hq, Standing.start]
  | double word =>
    cases h
    by_cases hq : c = '"' <;> by_cases hb : c = '\\' <;>
      simp [Place.next, hq, hb, Standing.start]
  | escaped word | doubleEscaped word =>
    cases h
    simp [Place.next, Standing.start]

theorem isOpen_iff (h : p.standing? = some st) : p.isOpen ↔ st ≠ .start := by
  cases p <;> cases h <;> simp [Place.isOpen, Standing.start]

/-! ## Comments -/

theorem standing_concat (s : List Char) (c : Char) :
    standing (s ++ [c]) = (standing s).next c := by
  simp [standing, standingFrom]

theorem placeBehind_concat (s : List Char) (c : Char) :
    placeBehind (s ++ [c]) = (placeBehind s).next c := by
  simp [placeBehind]

theorem startsWord_concat :
    StartsWord (s ++ [c]) ↔ isSeparator c ∧ standing s = .start := by
  constructor
  · rintro (hnil | ⟨before, d, heq, hd, hbefore⟩)
    · simp at hnil
    · obtain ⟨rfl, hc⟩ := List.append_inj' heq rfl
      cases hc
      exact ⟨hd, hbefore⟩
  · rintro ⟨hc, hs⟩
    exact .inr ⟨s, c, rfl, hc, hs⟩

theorem commentFree_concat :
    CommentFree (s ++ [c]) ↔ CommentFree s ∧ (StartsWord s → c ≠ '#') := by
  constructor
  · intro h
    constructor
    · rintro before after rfl
      exact h before (after ++ [c]) (by simp)
    · rintro hstart rfl
      exact h s [] rfl hstart
  · rintro ⟨hs, hc⟩ before after heq hstart
    rcases List.eq_nil_or_concat after with rfl | ⟨more, d, rfl⟩
    · obtain ⟨rfl, hhash⟩ := List.append_inj' heq rfl
      exact hc hstart (List.cons.inj hhash).1
    · have hsplit : s ++ [c] = (before ++ '#' :: more) ++ [d] := by simpa using heq
      obtain ⟨hs', -⟩ := List.append_inj' hsplit rfl
      exact hs before more hs' hstart

theorem commentFree_of_notMem (h : '#' ∉ s) : CommentFree s := by
  rintro before after rfl
  exact absurd (by simp) h

theorem commentFree_or_comment (s : List Char) :
    CommentFree s ∨
      ∃ before after, s = before ++ '#' :: after ∧ CommentFree before ∧ StartsWord before := by
  induction s using List.reverseRecOn with
  | nil => exact .inl (commentFree_of_notMem (by simp))
  | append_singleton s c ih =>
    rcases ih with hfree | ⟨before, after, rfl, hfree, hstart⟩
    · by_cases hc : StartsWord s ∧ c = '#'
      · obtain ⟨hstart, rfl⟩ := hc
        exact .inr ⟨s, [], rfl, hfree, hstart⟩
      · left
        rw [commentFree_concat]
        exact ⟨hfree, fun hstart hhash => hc ⟨hstart, hhash⟩⟩
    · exact .inr ⟨before, after ++ [c], by simp, hfree, hstart⟩

/-- In a text without comments the splitting is in step with quotes and backslashes. -/
theorem placeBehind_of_commentFree (h : CommentFree s) :
    (placeBehind s).standing? = some (standing s) ∧ (placeBehind s = .between ↔ StartsWord s) := by
  induction s using List.reverseRecOn with
  | nil => exact ⟨rfl, iff_of_true rfl (.inl rfl)⟩
  | append_singleton s c ih =>
    obtain ⟨hfree, hc⟩ := commentFree_concat.mp h
    obtain ⟨hstanding, hbetween⟩ := ih hfree
    have hplain : placeBehind s = .between → c ≠ '#' := fun hp => hc (hbetween.mp hp)
    rw [placeBehind_concat, standing_concat, startsWord_concat]
    exact ⟨standing?_next hstanding hplain, next_eq_between_iff hstanding hplain⟩

theorem foldl_next_comment (h : '\n' ∉ s) : s.foldl Place.next .comment = .comment := by
  induction s with
  | nil => rfl
  | cons c s ih =>
    rw [List.mem_cons, not_or] at h
    have hc : Place.next .comment c = .comment := if_neg (Ne.symm h.1)
    rw [List.foldl_cons, hc, ih h.2]

theorem placeBehind_comment {before : List Char} (hfree : CommentFree before)
    (hstart : StartsWord before) (s : List Char) :
    placeBehind (before ++ '#' :: s) = s.foldl Place.next .comment := by
  have hbefore : before.foldl Place.next .between = .between :=
    (placeBehind_of_commentFree hfree).2.mpr hstart
  rw [placeBehind, List.foldl_append, hbefore]
  rfl

/-- The end of its line ends a comment, and what is behind is split as if it stood alone. -/
theorem placeBehind_comment_line {before comment : List Char} (hfree : CommentFree before)
    (hstart : StartsWord before) (hline : '\n' ∉ comment) (after : List Char) :
    placeBehind (before ++ '#' :: (comment ++ '\n' :: after)) = placeBehind after := by
  rw [placeBehind_comment hfree hstart, List.foldl_append, foldl_next_comment hline]
  rfl

theorem Unfinished.isOpen (h : Unfinished s) : (placeBehind s).isOpen := by
  induction h with
  | ends text hfree h => exact (isOpen_iff (placeBehind_of_commentFree hfree).1).mpr h
  | behindComment before comment after hfree hstart hline _ ih =>
    rwa [placeBehind_comment_line hfree hstart hline]

theorem unfinished_of_isOpen (s : List Char) (h : (placeBehind s).isOpen) : Unfinished s := by
  rcases commentFree_or_comment s with hfree | ⟨before, rest, hs, hfree, hstart⟩
  · exact .ends s hfree ((isOpen_iff (placeBehind_of_commentFree hfree).1).mp h)
  · -- The first comment goes on to the end, or a shorter text is left behind its line.
    by_cases hline : '\n' ∈ rest
    · obtain ⟨comment, after, hrest, hcomment⟩ := List.eq_append_cons_of_mem hline
      rw [hs, hrest, placeBehind_comment_line hfree hstart hcomment] at h
      have hlater := unfinished_of_isOpen after h
      rw [hs, hrest]
      exact .behindComment before comment after hfree hstart hcomment hlater
    · rw [hs, placeBehind_comment hfree hstart, foldl_next_comment hline] at h
      cases h
termination_by s.length
decreasing_by
  rw [hs, hrest]
  simp
  omega

theorem split?_eq_none_iff_unfinished (s : List Char) : split? s = none ↔ Unfinished s :=
  (split?_eq_none_iff s).trans ⟨unfinished_of_isOpen s, Unfinished.isOpen⟩

theorem expandWords_of_substitute (fs : FileSystem) (folder : Path)
    (h : substitute env command = .ok r) :
    (expandWords env fs folder command = .error .split ↔ split? r.text = none) ∧
    (split? r.text ≠ none → ∃ words, expandWords env fs folder command = .ok words) := by
  cases hsplit : split? r.text with
  | none => simp [expandWords, commandWords, h, hsplit, bind, Except.bind]
  | some words =>
    simp [expandWords, commandWords, h, hsplit, bind, Except.bind, pure, Except.pure]

/-- A command that the scan accepts fails to be split exactly when it is unfinished, and else it is
expanded. Without a comment it is unfinished exactly when it ends in a backslash outside quotes. -/
theorem expandWords_eq_split_iff (env : Environment) (fs : FileSystem) (folder : Path)
    (command : String) {r : Substituted} (h : substitute env command = .ok r) :
    (expandWords env fs folder command = .error .split ↔ Unfinished r.text) ∧
    (¬ Unfinished r.text → ∃ words, expandWords env fs folder command = .ok words) ∧
    (CommentFree r.text → (Unfinished r.text ↔ EndsInBackslash command)) := by
  obtain ⟨hfails, hwords⟩ := expandWords_of_substitute fs folder h
  rw [split?_eq_none_iff_unfinished] at hfails
  rw [Ne, split?_eq_none_iff_unfinished] at hwords
  refine ⟨hfails, hwords, fun hfree => ?_⟩
  obtain ⟨hstanding, hquote⟩ := standing_substitute h
  have hopen := isOpen_iff (placeBehind_of_commentFree hfree).1
  rw [← split?_eq_none_iff_unfinished, split?_eq_none_iff, hopen, EndsInBackslash, ← hstanding]
  generalize standing r.text = st at hquote
  obtain ⟨quote, escaping⟩ := st
  cases hquote
  cases escaping <;> simp [Standing.start]

/-- A backslash in a comment is not missed, and a comment that hides a quote leaves another one
open. -/
theorem expandWords_comment :
    let env : Environment := ⟨fun _ => none, ""⟩
    let fs : FileSystem :=
      ⟨fun _ => false, fun _ => false, fun _ => .failed "", fun _ => none, fun _ => []⟩
    let slash := "cc #\\"
    let quotes := "cc #'\n'"
    substitute env slash = .ok ⟨slash.toList, true⟩ ∧ EndsInBackslash slash ∧
    (∃ words, expandWords env fs ⟨"/"⟩ slash = .ok words) ∧
    substitute env quotes = .ok ⟨quotes.toList, true⟩ ∧ ¬ EndsInBackslash quotes ∧
    expandWords env fs ⟨"/"⟩ quotes = .error .split := by
  intro env fs slash quotes
  have hslash : substitute env slash = .ok ⟨slash.toList, true⟩ := by decide
  have hquotes : substitute env quotes = .ok ⟨quotes.toList, true⟩ := by decide
  have hfinished : ¬ Unfinished slash.toList := by
    rw [← split?_eq_none_iff_unfinished]
    decide
  have hunfinished : Unfinished quotes.toList := by
    rw [← split?_eq_none_iff_unfinished]
    decide
  have hwords := (expandWords_eq_split_iff env fs ⟨"/"⟩ slash hslash).2.1 hfinished
  have hsplit := (expandWords_eq_split_iff env fs ⟨"/"⟩ quotes hquotes).1.mpr hunfinished
  have hends : EndsInBackslash slash := by
    unfold EndsInBackslash
    decide
  have hnot : ¬ EndsInBackslash quotes := by
    unfold EndsInBackslash
    decide
  exact ⟨hslash, hends, hwords, hquotes, hnot, hsplit⟩

end CompileIndex.Shell
