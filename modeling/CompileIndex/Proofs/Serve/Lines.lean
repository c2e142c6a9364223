import Mathlib.Data.List.Basic
import CompileIndex.Serve.Command

/-!
# Lines of the host

A line is read by its first word and by what follows it, without the blanks around the two. The path
that a command carries stands in the line as it is: blanks inside it are kept, and neither those
around it nor the verb are added to it.
-/
namespace CompileIndex

namespace Text

/-! ## Blanks at the ends -/

def Blank (s : List Char) : Prop := ∀ c ∈ s, isBlank c

instance (s : List Char) : Decidable (Blank s) := List.decidableBAll (isBlank ·) s

/-- No blank stands at either end. -/
structure Trimmed (s : List Char) : Prop where
  head : ∀ c ∈ s.head?, isBlank c = false
  last : ∀ c ∈ s.getLast?, isBlank c = false

variable {a b c s t word rest : List Char} {line : String}

theorem Blank.append (ha : Blank a) (hb : Blank b) : Blank (a ++ b) := fun d hd =>
  (List.mem_append.mp hd).elim (ha d) (hb d)

theorem Blank.reverse (ha : Blank a) : Blank a.reverse := fun d hd => ha d (List.mem_reverse.mp hd)

theorem dropWhile_append {p : Char → Bool} (ha : ∀ c ∈ a, p c) (h : ∀ c ∈ s.head?, p c = false) :
    (a ++ s).dropWhile p = s := by
  rw [List.dropWhile_append_of_pos ha]
  cases s with
  | nil => rfl
  | cons d s => rw [List.dropWhile_cons, h d rfl]; rfl

theorem head_dropWhile (p : Char → Bool) (s : List Char) :
    ∀ c ∈ (s.dropWhile p).head?, p c = false := by
  intro c hc
  have hstop := List.head?_dropWhile_not p s
  rw [hc] at hstop
  simpa using hstop

theorem of_mem_takeWhile (p : Char → Bool) (s : List Char) : ∀ c ∈ s.takeWhile p, p c :=
  List.all_eq_true.mp List.all_takeWhile

theorem trimmed_trimChars (s : List Char) :
    Trimmed (trimChars s) ∧ ∃ a c, Blank a ∧ Blank c ∧ s = a ++ trimChars s ++ c := by
  -- What is left after the blanks in front, and what of it is left after those behind.
  let u := s.dropWhile isBlank
  have hs : s.takeWhile isBlank ++ u = s := List.takeWhile_append_dropWhile
  have hu : trimChars s ++ (u.reverse.takeWhile isBlank).reverse = u := by
    rw [trimChars, ← List.reverse_append, List.takeWhile_append_dropWhile, List.reverse_reverse]
  refine ⟨⟨fun c hc => ?_, ?_⟩, _, _, of_mem_takeWhile isBlank s,
    Blank.reverse (of_mem_takeWhile isBlank u.reverse), ?_⟩
  · have hhead : u.head? = some c := by
      rw [← hu, List.head?_append, hc]
      rfl
    exact head_dropWhile isBlank s c hhead
  · rw [trimChars, List.getLast?_reverse]
    exact head_dropWhile isBlank u.reverse
  · rw [List.append_assoc, hu, hs]

theorem trimChars_append (ht : Trimmed t) (ha : Blank a) (hc : Blank c) :
    trimChars (a ++ t ++ c) = t := by
  by_cases htnil : t = []
  · subst htnil
    have hnil : (a ++ [] ++ c).dropWhile isBlank = [] := by
      rw [List.append_nil, ← List.append_nil (a ++ c)]
      exact dropWhile_append (ha.append hc) (by simp)
    rw [trimChars, hnil]
    rfl
  · have hhead : ∀ d ∈ (t ++ c).head?, isBlank d = false := by
      rw [List.head?_append_of_ne_nil t htnil]
      exact ht.head
    have hlast : ∀ d ∈ t.reverse.head?, isBlank d = false := by
      rw [List.head?_reverse]
      exact ht.last
    rw [trimChars, List.append_assoc, dropWhile_append ha hhead, List.reverse_append,
      dropWhile_append hc.reverse hlast, List.reverse_reverse]

/-- Trimming finds the one part of the text that blanks stand around and no blank ends. -/
theorem trimChars_eq_iff :
    trimChars s = t ↔ Trimmed t ∧ ∃ a c, Blank a ∧ Blank c ∧ s = a ++ t ++ c := by
  constructor
  · rintro rfl
    exact trimmed_trimChars s
  · rintro ⟨ht, a, c, ha, hc, rfl⟩
    exact trimChars_append ht ha hc

theorem trimChars_append_blank (s : List Char) (hc : Blank c) :
    trimChars (s ++ c) = trimChars s := by
  obtain ⟨htrimmed, a, d, ha, hd, hs⟩ := trimmed_trimChars s
  refine trimChars_eq_iff.mpr ⟨htrimmed, a, d ++ c, ha, hd.append hc, ?_⟩
  rw [← List.append_assoc, ← hs]

theorem trimChars_eq_nil_iff : trimChars s = [] ↔ Blank s := by
  rw [trimChars_eq_iff]
  constructor
  · rintro ⟨-, a, c, ha, hc, rfl⟩
    rw [List.append_nil]
    exact ha.append hc
  · intro hs
    exact ⟨⟨by simp, by simp⟩, s, [], hs, by simp [Blank], by simp⟩

theorem trim_eq_iff {s text : String} : trim s = text ↔ Trimmed text.toList ∧
    ∃ a c : String, Blank a.toList ∧ Blank c.toList ∧ s = a ++ text ++ c := by
  rw [trim, ← String.toList_inj, String.toList_ofList, trimChars_eq_iff]
  refine and_congr_right fun _ => ⟨?_, ?_⟩
  · rintro ⟨a, c, ha, hc, hs⟩
    exact ⟨.ofList a, .ofList c, by simpa using ha, by simpa using hc,
      String.toList_inj.mp (by simpa using hs)⟩
  · rintro ⟨a, c, ha, hc, rfl⟩
    exact ⟨a.toList, c.toList, ha, hc, by simp⟩

theorem trim_eq_empty_iff {s : String} : trim s = "" ↔ Blank s.toList := by
  rw [trim, String.ofList_eq_empty_iff, trimChars_eq_nil_iff]

/-! ## First words -/

/-- The line begins with `word`, up to blanks in front of it, and `rest` follows. The word ends where
the line ends or a blank stands, and it is empty only in a line that is blank. -/
structure FirstWord (line word rest : List Char) : Prop where
  spelled : ∃ a, Blank a ∧ line = a ++ (word ++ rest)
  unbroken : ∀ c ∈ word, isBlank c = false
  ended : ∀ c ∈ rest.head?, isBlank c
  nonempty : word = [] → rest = []

theorem Trimmed.firstWord (h : Trimmed s) :
    FirstWord s (s.takeWhile (!isBlank ·)) (s.dropWhile (!isBlank ·)) where
  spelled := ⟨[], by simp [Blank], List.takeWhile_append_dropWhile.symm⟩
  unbroken c hc := by simpa using of_mem_takeWhile (!isBlank ·) s c hc
  ended c hc := by simpa using head_dropWhile (!isBlank ·) s c hc
  nonempty hword := by
    cases s with
    | nil => rfl
    | cons c s => simp [h.head c rfl] at hword

theorem FirstWord.surround (h : FirstWord s word rest) (hword : word ≠ []) (ha : Blank a)
    (hc : Blank c) : FirstWord (a ++ s ++ c) word (rest ++ c) where
  spelled := by
    obtain ⟨b, hb, rfl⟩ := h.spelled
    exact ⟨a ++ b, ha.append hb, by simp⟩
  unbroken := h.unbroken
  ended d hd := by
    obtain hd | ⟨-, hd⟩ := Option.or_eq_some_iff.mp (List.head?_append.symm.trans hd)
    · exact h.ended d hd
    · exact hc d (List.mem_of_mem_head? hd)
  nonempty hnil := absurd hnil hword

theorem firstWord_of_blank (h : Blank s) : FirstWord s [] [] :=
  ⟨⟨s, h, by simp⟩, by simp, by simp, fun _ => rfl⟩

theorem exists_firstWord (line : String) :
    ∃ word rest : String, FirstWord line.toList word.toList rest.toList ∧
      firstWord line = (word, trim rest) := by
  obtain ⟨htrimmed, a, c, ha, hc, hline⟩ := trimmed_trimChars line.toList
  rw [firstWord]
  generalize trimChars line.toList = s at htrimmed hline
  have hdrop : s.drop (s.takeWhile (!isBlank ·)).length = s.dropWhile (!isBlank ·) :=
    (congrArg (List.drop _) List.takeWhile_append_dropWhile.symm).trans List.drop_left
  by_cases hword : s.takeWhile (!isBlank ·) = []
  · have hrest := htrimmed.firstWord.nonempty hword
    refine ⟨"", "", ?_, by rw [hdrop, hword, hrest]; rfl⟩
    obtain rfl : s = [] := by
      rw [← List.takeWhile_append_dropWhile (p := (!isBlank ·)) (l := s), hword, hrest]
      rfl
    rw [hline, List.append_nil]
    exact firstWord_of_blank (ha.append hc)
  · refine ⟨.ofList (s.takeWhile (!isBlank ·)), .ofList (s.dropWhile (!isBlank ·) ++ c), ?_, ?_⟩
    · rw [hline, String.toList_ofList, String.toList_ofList]
      exact htrimmed.firstWord.surround hword ha hc
    · rw [trim, String.toList_ofList, trimChars_append_blank _ hc, hdrop]

theorem FirstWord.dropWhile_eq (h : FirstWord s word rest) : s.dropWhile isBlank = word ++ rest := by
  obtain ⟨a, ha, rfl⟩ := h.spelled
  refine dropWhile_append ha ?_
  by_cases hword : word = []
  · rw [hword, h.nonempty hword]
    simp
  · rw [List.head?_append_of_ne_nil word hword]
    exact fun c hc => h.unbroken c (List.mem_of_mem_head? hc)

theorem FirstWord.rest_eq (h : FirstWord s word rest) :
    rest = (s.dropWhile isBlank).dropWhile (!isBlank ·) := by
  rw [h.dropWhile_eq]
  refine (dropWhile_append ?_ ?_).symm
  · exact fun c hc => by simp [h.unbroken c hc]
  · exact fun c hc => by simp [h.ended c hc]

theorem FirstWord.unique {word' rest' : List Char} (h : FirstWord s word rest)
    (h' : FirstWord s word' rest') : word = word' ∧ rest = rest' := by
  have hrest : rest = rest' := h.rest_eq.trans h'.rest_eq.symm
  subst hrest
  exact ⟨List.append_cancel_right (h.dropWhile_eq.symm.trans h'.dropWhile_eq), rfl⟩

theorem FirstWord.firstWord_eq {word rest : String}
    (h : FirstWord line.toList word.toList rest.toList) : firstWord line = (word, trim rest) := by
  obtain ⟨word', rest', h', hfirst⟩ := exists_firstWord line
  obtain ⟨hword, hrest⟩ := h.unique h'
  rw [String.toList_inj.mp hword, String.toList_inj.mp hrest]
  exact hfirst

/-- The line consists of the two texts, with blanks between them and up to blanks around them. -/
def Spells (line word text : String) : Prop :=
  ∃ a b c : String, Blank a.toList ∧ Blank b.toList ∧ b ≠ "" ∧ Blank c.toList ∧
    line = a ++ word ++ b ++ text ++ c

theorem firstWord_eq_iff {word text : String} (hword : word ≠ "")
    (hunbroken : ∀ c ∈ word.toList, isBlank c = false) (htext : text ≠ "") :
    firstWord line = (word, text) ↔ Trimmed text.toList ∧ Spells line word text := by
  constructor
  · intro h
    obtain ⟨_, rest, hfirst, heq⟩ := exists_firstWord line
    obtain ⟨rfl, htrim⟩ := Prod.mk.inj (heq.symm.trans h)
    obtain ⟨htrimmed, b, c, hb, hc, hrest⟩ := trim_eq_iff.mp htrim
    obtain ⟨a, ha, hline⟩ := hfirst.spelled
    refine ⟨htrimmed, .ofList a, b, c, by simpa using ha, hb, ?_, hc, ?_⟩
    · -- Without a blank between them the text after the word would begin with one.
      rintro rfl
      obtain ⟨d, t, ht⟩ := List.exists_cons_of_ne_nil (mt String.toList_eq_nil_iff.mp htext)
      have hblank : isBlank d := hfirst.ended d (by simp [hrest, ht])
      have hnot : isBlank d = false := htrimmed.head d (by simp [ht])
      exact absurd hblank (by simp [hnot])
    · rw [← String.toList_inj, hline, hrest]
      simp
  · rintro ⟨htrimmed, a, b, c, ha, hb, hbne, hc, rfl⟩
    have hbnil : b.toList ≠ [] := mt String.toList_eq_nil_iff.mp hbne
    have hfirst : FirstWord (a ++ word ++ b ++ text ++ c).toList word.toList
        (b ++ text ++ c).toList := by
      refine ⟨⟨a.toList, ha, by simp⟩, hunbroken, fun d hd => ?_, fun hnil => ?_⟩
      · rw [String.toList_append, String.toList_append, List.append_assoc,
          List.head?_append_of_ne_nil _ hbnil] at hd
        exact hb d (List.mem_of_mem_head? hd)
      · exact absurd (String.toList_eq_nil_iff.mp hnil) hword
    rw [hfirst.firstWord_eq, trim_eq_iff.mpr ⟨htrimmed, b, c, hb, hc, rfl⟩]

end Text

namespace Command

/-! ## Reading lines -/

variable {command : Command} {path : Path} {line text : String} {error : CommandError}

/-- The verbs that are refused without a path. -/
def verbsOfPaths : List String := ["query", "includes", "frameworks", "defines", "flags"]

def verbs : List String := verbsOfPaths ++ ["changed", "status", "quit", "exit"]

def verb : Command → String
  | query _ => "query"
  | field .includes _ => "includes"
  | field .frameworks _ => "frameworks"
  | field .defines _ => "defines"
  | field .flags _ => "flags"
  | changed _ => "changed"
  | status => "status"
  | quit => "quit"

/-- The path that the command carries. -/
def path? : Command → Option Path
  | query path | field _ path => some path
  | changed path => path
  | status | quit => none

theorem verb_mem_verbs (command : Command) : command.verb ∈ verbs := by
  cases command with
  | field f path => cases f <;> simp [verb, verbs, verbsOfPaths]
  | query | changed | status | quit => simp [verb, verbs, verbsOfPaths]

theorem ne_empty_of_mem_verbs : ∀ v ∈ verbs, v ≠ "" := by
  decide

theorem unbroken_of_mem_verbs : ∀ v ∈ verbs, ∀ c ∈ v.toList, Text.isBlank c = false := by
  have hall : verbs.all (·.toList.all (!Text.isBlank ·)) := by decide
  intro v hv c hc
  simpa using List.all_eq_true.mp (List.all_eq_true.mp hall v hv) c hc

theorem ofPath?_isSome_iff {v : String} : (ofPath? v).isSome ↔ v ∈ verbsOfPaths := by
  simp only [ofPath?, MetadataField.ofName?, verbsOfPaths, List.mem_cons, List.not_mem_nil]
  grind

theorem ofPath?_verb {v : String} {make : Path → Command} (h : ofPath? v = some make)
    (path : Path) : (make path).verb = v ∧ (make path).path? = some path := by
  rw [ofPath?] at h
  split at h
  · next hv =>
    obtain rfl := Option.some.inj h
    exact ⟨hv.symm, rfl⟩
  · obtain ⟨f, hf, rfl⟩ := Option.map_eq_some_iff.mp h
    unfold MetadataField.ofName? at hf
    split at hf <;> cases hf <;> exact ⟨rfl, rfl⟩

theorem read_of_path (hpath : command.path? = some (.mk text)) (hne : text ≠ "")
    (hwords : Text.firstWord line = (command.verb, text)) : read line = .ok command := by
  rw [read, hwords]
  cases command with
  | field f path =>
    obtain rfl := Option.some.inj hpath
    cases f <;> exact if_neg hne
  | query path =>
    obtain rfl := Option.some.inj hpath
    exact if_neg hne
  | changed carried =>
    obtain rfl : carried = some (.mk text) := hpath
    exact congrArg (fun carried => Except.ok (changed carried)) (if_neg hne)
  | status | quit => cases hpath

theorem path_of_read (hpath : command.path? = some path) (h : read line = .ok command) :
    ∃ text, path = .mk text ∧ text ≠ "" ∧ Text.firstWord line = (command.verb, text) := by
  rw [read] at h
  generalize Text.firstWord line = words at h
  obtain ⟨v, rest⟩ := words
  dsimp only at h
  split at h
  · next make hmake =>
    split at h
    · cases h
    · next hne =>
      obtain rfl := Except.ok.inj h
      obtain ⟨hverb, hcarries⟩ := ofPath?_verb hmake ⟨rest⟩
      obtain rfl := Option.some.inj (hcarries.symm.trans hpath)
      exact ⟨rest, rfl, hne, by rw [hverb]⟩
  · -- Of the verbs that need no path, only the first takes one.
    split at h
    · obtain rfl := Except.ok.inj h
      by_cases hrest : rest = ""
      · rw [if_pos hrest] at hpath
        cases hpath
      · rw [if_neg hrest] at hpath
        obtain rfl := Option.some.inj hpath
        exact ⟨rest, rfl, hrest, rfl⟩
    all_goals
      cases h
      try cases hpath

theorem read_eq_ok_iff (hpath : command.path? = some path) :
    read line = .ok command ↔
      ∃ text, path = .mk text ∧ text ≠ "" ∧ Text.firstWord line = (command.verb, text) := by
  refine ⟨path_of_read hpath, ?_⟩
  rintro ⟨text, rfl, hne, hwords⟩
  exact read_of_path hpath hne hwords

theorem read_eq_error_iff :
    read line = .error error ↔
      (Text.firstWord line).1 ∉ verbs ∧ error = .unknown (Text.firstWord line).1 ∨
      (Text.firstWord line).1 ∈ verbsOfPaths ∧ (Text.firstWord line).2 = "" ∧
        error = .needsPath (Text.firstWord line).1 := by
  rw [read, verbs, List.mem_append, ← ofPath?_isSome_iff]
  generalize Text.firstWord line = words
  obtain ⟨v, rest⟩ := words
  dsimp only
  cases hmake : ofPath? v with
  | some make =>
    by_cases hrest : rest = "" <;> simp [hrest, eq_comm]
  | none =>
    -- The verb is one of those that need no path, or it is no verb.
    dsimp only
    split <;> simp_all [eq_comm]

/-- A command with a path is read from the lines that spell its verb and this path, which is a text,
neither empty nor with a blank at its beginning or end, and from no others. A line is refused when
its first word is no verb, or is one that needs a path and only blanks follow it. -/
theorem read_grammar (line : String) :
    (∀ command path, command.path? = some path →
      (read line = .ok command ↔
        ∃ text, path = .mk text ∧ text ≠ "" ∧ Text.Trimmed text.toList ∧
          Text.Spells line command.verb text)) ∧
    ∀ error, read line = .error error ↔
      ∃ word rest : String, Text.FirstWord line.toList word.toList rest.toList ∧
        (word ∉ verbs ∧ error = .unknown word ∨
          word ∈ verbsOfPaths ∧ Text.Blank rest.toList ∧ error = .needsPath word) := by
  refine ⟨fun command path hpath => ?_, fun error => ?_⟩
  · have hverb := verb_mem_verbs command
    rw [read_eq_ok_iff hpath]
    refine exists_congr fun text => and_congr_right fun _ => and_congr_right fun hne => ?_
    exact Text.firstWord_eq_iff (ne_empty_of_mem_verbs _ hverb) (unbroken_of_mem_verbs _ hverb) hne
  · rw [read_eq_error_iff]
    constructor
    · intro h
      obtain ⟨word, rest, hfirst, heq⟩ := Text.exists_firstWord line
      rw [heq, Text.trim_eq_empty_iff] at h
      exact ⟨word, rest, hfirst, h⟩
    · rintro ⟨word, rest, hfirst, h⟩
      rw [hfirst.firstWord_eq, Text.trim_eq_empty_iff]
      exact h

/-- The blanks around the words are an ideographic space, an em space, a no-break space and a line
feed. The path begins with a verb and has blanks inside it. -/
theorem read_grammar_wide_blanks :
    let text := "query  /w/a b.c"
    let path : Path := .mk text
    (changed (some path)).path? = some path ∧
      read "\u3000changed\u2003query  /w/a b.c\u00a0\n" = .ok (.changed (some path)) ∧
      read "\u2003flags\u3000" = .error (.needsPath "flags") := by
  intro text path
  refine ⟨rfl, ?_, ?_⟩
  · have htrim : Text.trim text = text := by decide +kernel
    have htrimmed : Text.Trimmed text.toList := (Text.trim_eq_iff.mp htrim).1
    refine ((read_grammar _).1 (changed (some path)) path rfl).mpr
      ⟨text, rfl, by decide, htrimmed, ?_⟩
    exact ⟨"\u3000", "\u2003", "\u00a0\n", by decide, by decide, by decide, by decide,
      by decide +kernel⟩
  · obtain ⟨word, rest, hfirst, heq⟩ := Text.exists_firstWord "\u2003flags\u3000"
    have hwords : Text.firstWord "\u2003flags\u3000" = ("flags", "") := by decide +kernel
    obtain ⟨rfl, hrest⟩ := Prod.mk.inj (heq.symm.trans hwords)
    exact ((read_grammar _).2 _).mpr ⟨_, rest, hfirst, .inr ⟨by decide, Text.trim_eq_empty_iff.mp hrest,
      rfl⟩⟩

end Command

end CompileIndex
