import CompileIndex.Proofs.Shell.Comments
import CompileIndex.Proofs.Shell.Grammar

/-!
# References among quoted words

What a reference to a variable contributes to the words of a command. In double quotes it is always
one word, but this word can be taken for a pattern. Without quotes it is the fields of the value,
unless one of them begins a comment.
-/
namespace CompileIndex.Shell

variable {env : Environment} {fs : FileSystem} {folder : Path} {q : Quote} {rest : List Char}

structure VariableName where
  text : String
  isIdentifier : IsIdentifier text.toList

inductive ReferenceStyle
  | bare
  | braced
  deriving DecidableEq, Repr

namespace VariableName

def value (env : Environment) (n : VariableName) : String := (Reference.variable n.text).value env

def tail (n : VariableName) : ReferenceStyle → List Char
  | .bare => n.text.toList
  | .braced => '\x7b' :: (n.text.toList ++ ['\x7d'])

end VariableName

theorem braced?_identifier {text : List Char} (h : IsIdentifier text) :
    braced? text = some (.variable (String.ofList text)) := by
  obtain ⟨c, more, rfl, hc, hmore⟩ := h
  have hall : more.all isNameChar = true := List.all_eq_true.mpr hmore
  simp only [braced?, hc, hall, Bool.and_self, if_true]

theorem readPiece_reference (hq : q ≠ .single) (style : ReferenceStyle) (n : VariableName)
    (hrest : ∀ d ∈ rest.head?, ¬ isNameChar d) :
    readPiece q '$' (n.tail style ++ rest) =
      .ok (.reference (.variable n.text), q, (n.tail style).length) := by
  rw [readPiece_dollar hq]
  cases style with
  | bare =>
    rw [VariableName.tail, dollar_name n.isIdentifier hrest, String.ofList_toList]
    rfl
  | braced =>
    have hbrace : '\x7d' ∉ n.text.toList := by
      intro hmem
      exact absurd (n.isIdentifier.all _ hmem) (by decide)
    have hd := dollar_braces hbrace rest
    rw [braced?_identifier n.isIdentifier, String.ofList_toList] at hd
    simp [VariableName.tail, hd, Except.map]

theorem outcome_reference (hq : q ≠ .single) (style : ReferenceStyle) (n : VariableName)
    (hrest : ∀ d ∈ rest.head?, ¬ isNameChar d) :
    (scanFrom 0 q ('$' :: (n.tail style ++ rest))).outcome env =
      ((scanFrom 0 q rest).outcome env).map
        (·.behind (guard q (n.value env).toList) false) :=
  outcome_of_readPiece (readPiece_reference hq style n hrest)

theorem EndsWord.not_isNameChar (h : EndsWord rest) : ∀ d ∈ rest.head?, ¬ isNameChar d := by
  intro d hd
  have hs := h d hd
  simp only [isSeparator, Bool.or_eq_true, beq_iff_eq] at hs
  rcases hs with (rfl | rfl) | rfl <;> decide

theorem wordBecomes_reference (style : ReferenceStyle) (n : VariableName) :
    WordBecomes env ('$' :: n.tail style) (guard .outside (n.value env).toList) false :=
  fun _ hrest => outcome_reference (by decide) style n hrest.not_isNameChar

theorem becomes_quotedReference (style : ReferenceStyle) (n : VariableName) :
    Becomes env .outside ('"' :: '$' :: (n.tail style ++ ['"']))
      ('"' :: (guard .double (n.value env).toList ++ ['"'])) false .outside := by
  -- The closing mark ends the name, so that the reference is read together with it.
  have hreference : Becomes env .double ('$' :: (n.tail style ++ ['"']))
      (guard .double (n.value env).toList ++ ['"']) false .outside := by
    intro rest
    have hmark : ∀ d ∈ ('"' :: rest).head?, ¬ isNameChar d := by
      intro d hd
      obtain rfl : '"' = d := by simpa using hd
      decide
    have hclose : Becomes env .double ['"'] ['"'] false .outside := becomes_close .double
    rw [List.cons_append, List.append_assoc, List.singleton_append,
      outcome_reference (by decide) style n hmark, ← List.singleton_append, hclose rest]
    cases (scanFrom 0 .outside rest).outcome env <;> simp [Except.map, Substituted.behind]
  have hopen : Becomes env .outside ['"'] ['"'] false .double := becomes_open .double
  exact hopen.append hreference

theorem passes_guard_double (v before : List Char) :
    Passes (.double before) (guard .double v) (.double (v.reverse ++ before)) := by
  induction v generalizing before with
  | nil => exact fun rest => rfl
  | cons c v ih =>
    have hc : Passes (.double before) (guard .double [c]) (.double (c :: before)) := by
      intro rest
      by_cases hm : c = '"' ∨ c = '\\'
      · rcases hm with rfl | rfl <;> rfl
      · obtain ⟨hd, hb⟩ := not_or.mp hm
        have hg : guard .double [c] = [c] := by simp [guard, isMark, hd, hb]
        rw [hg]
        simp [splitFrom, hd, hb]
    have h := hc.append (ih (c :: before))
    rw [← guard_append] at h
    simpa using h

theorem splitsInto_quotedReference (v : List Char) :
    SplitsInto ('"' :: (guard .double v ++ ['"'])) [v] := by
  have hopen : Passes .between ['"'] (.double []) := passes_open .double
  have hclose : Passes (.double (v.reverse ++ [])) ['"'] (.bare (v.reverse ++ [])) :=
    passes_close .double _
  have h := (hopen.append ((passes_guard_double v []).append hclose)).splitsInto
  simpa using h

def QuotedWord.hasPattern (w : QuotedWord) : Bool := w.word.toList.any isGlobChar

/-- A word of a command: in quotes, or a reference without them, or a reference in double quotes. -/
inductive Word
  | quoted (w : QuotedWord)
  | reference (style : ReferenceStyle) (n : VariableName)
  | quotedReference (style : ReferenceStyle) (n : VariableName)

namespace Word

def text : Word → List Char
  | quoted w => w.text
  | reference style n => '$' :: n.tail style
  | quotedReference style n => '"' :: '$' :: (n.tail style ++ ['"'])

def replaced (env : Environment) : Word → List Char
  | quoted w => w.text
  | reference _ n => guard .outside (n.value env).toList
  | quotedReference _ n => '"' :: (guard .double (n.value env).toList ++ ['"'])

def hides : Word → Bool
  | quoted w => w.hasPattern
  | _ => false

def split (env : Environment) : Word → List (List Char)
  | quoted w => [w.word.toList]
  | reference _ n => fields (n.value env).toList
  | quotedReference _ n => [(n.value env).toList]

/-- No field begins a comment. -/
def Plain (env : Environment) : Word → Prop
  | reference _ n => ∀ f ∈ fields (n.value env).toList, f.head? ≠ some '#'
  | _ => True

theorem wordBecomes (w : Word) : WordBecomes env w.text (w.replaced env) w.hides := by
  cases w with
  | quoted w => exact w.wordBecomes
  | reference style n => exact wordBecomes_reference style n
  | quotedReference style n => exact (becomes_quotedReference style n).word

theorem splitsInto (w : Word) (h : w.Plain env) : SplitsInto (w.replaced env) (w.split env) := by
  cases w with
  | quoted w => exact w.splitsInto
  | reference style n => exact splitsInto_guard h
  | quotedReference style n => exact splitsInto_quotedReference _

end Word

def command (gap : Nat → Gap) (words : List Word) : String :=
  String.ofList (spaced gap (words.map Word.text))

theorem commandWords_command (gap : Nat → Gap) (words : List Word)
    (h : ∀ w ∈ words, w.Plain env) :
    commandWords env (command gap words) =
      .ok ((words.flatMap (·.split env)).map String.ofList, !words.any (·.hides)) :=
  commandWords_of_reading (wordBecomes_spaced gap words fun w _ => w.wordBecomes)
    (splitsInto_spaced gap words fun w hw => w.splitsInto (h w hw))

def around (before after : List QuotedWord) (w : Word) : List Word :=
  before.map .quoted ++ w :: after.map .quoted

theorem split_quoted (words : List QuotedWord) :
    ((words.map Word.quoted).flatMap (·.split env)).map String.ofList = words.map (·.word) := by
  induction words with
  | nil => rfl
  | cons w words ih =>
    rw [List.map_cons, List.flatMap_cons, List.map_append, ih]
    simp [Word.split]

theorem split_around (before after : List QuotedWord) (w : Word) :
    ((around before after w).flatMap (·.split env)).map String.ofList =
      before.map (·.word) ++ (w.split env).map String.ofList ++ after.map (·.word) := by
  rw [around, List.flatMap_append, List.flatMap_cons, List.map_append, List.map_append,
    split_quoted, split_quoted, List.append_assoc]

theorem plain_around {before after : List QuotedWord} {w : Word} (h : w.Plain env) :
    ∀ v ∈ around before after w, v.Plain env := by
  intro v hv
  simp only [around, List.mem_append, List.mem_map, List.mem_cons] at hv
  rcases hv with ⟨u, _, rfl⟩ | rfl | ⟨u, _, rfl⟩
  · trivial
  · exact h
  · trivial

theorem hides_around (before after : List QuotedWord) {w : Word} (h : w.hides = false) :
    (around before after w).any (·.hides) = (before ++ after).any (·.hasPattern) := by
  rw [around, List.any_append, List.any_cons, h, Bool.false_or, List.any_append, List.any_map,
    List.any_map]
  rfl

theorem commandWords_around (env : Environment) (gap : Nat → Gap) (before after : List QuotedWord)
    {w : Word} (hides : w.hides = false) (h : w.Plain env) :
    commandWords env (command gap (around before after w)) =
      .ok (before.map (·.word) ++ (w.split env).map String.ofList ++ after.map (·.word),
        !(before ++ after).any (·.hasPattern)) := by
  rw [commandWords_command gap _ (plain_around h), split_around, hides_around before after hides]

theorem expandWords_of_commandWords {text : String} {words : List String} {globbing : Bool}
    (h : commandWords env text = .ok (words, globbing)) :
    expandWords env fs folder text =
      .ok (if globbing then words.flatMap (expandWord fs folder) else words) := by
  simp [expandWords, h, bind, Except.bind, pure, Except.pure]

theorem expandWord_of_plain {w : String} (h : w.toList.any isGlobChar = false) :
    expandWord fs folder w = [w] := by
  simp [expandWord, h]

theorem flatMap_expandWord {words : List String}
    (h : ∀ w ∈ words, expandWord fs folder w = [w]) :
    words.flatMap (expandWord fs folder) = words := by
  rw [List.flatMap_congr h, List.flatMap_singleton']

theorem flatMap_expandWord_quoted {words : List QuotedWord}
    (h : words.any (·.hasPattern) = false) :
    (words.map (·.word)).flatMap (expandWord fs folder) = words.map (·.word) := by
  apply flatMap_expandWord
  intro w hw
  obtain ⟨v, hv, rfl⟩ := List.mem_map.mp hw
  have hv : v.hasPattern = false := by simpa using List.any_eq_false.mp h v hv
  exact expandWord_of_plain hv

/-- A reference in double quotes contributes one word, the value. When no pattern character is
quoted elsewhere, this word can still be a pattern, and then it becomes the paths that are found. -/
theorem expandWords_quotedReference (env : Environment) (fs : FileSystem) (folder : Path)
    (gap : Nat → Gap) (before after : List QuotedWord) (style : ReferenceStyle)
    (n : VariableName) :
    let v := n.value env
    let hidden := (before ++ after).any (·.hasPattern)
    let answer := expandWords env fs folder
      (command gap (around before after (.quotedReference style n)))
    answer = .ok (before.map (·.word) ++ (if hidden then [v] else expandWord fs folder v) ++
      after.map (·.word)) ∧
    (answer = .ok (before.map (·.word) ++ [v] ++ after.map (·.word)) ↔
      v.toList.any isGlobChar = false ∨ hidden ∨ expandPattern fs folder v = [v]) := by
  intro v hidden answer
  have hwords := commandWords_around env gap before after
    (w := .quotedReference style n) rfl trivial
  have hanswer : answer = .ok (before.map (·.word) ++
      (if hidden then [v] else expandWord fs folder v) ++ after.map (·.word)) := by
    simp only [answer]
    rw [expandWords_of_commandWords hwords]
    cases hh : (before ++ after).any (·.hasPattern) with
    | true => simp [hidden, hh, Word.split, v]
    | false =>
      have hothers := hh
      rw [List.any_append, Bool.or_eq_false_iff] at hothers
      simp [hidden, hh, Word.split, v, flatMap_expandWord_quoted hothers.1,
        flatMap_expandWord_quoted hothers.2]
  refine ⟨hanswer, ?_⟩
  rw [hanswer, Except.ok.injEq, List.append_cancel_right_eq, List.append_cancel_left_eq]
  cases hidden with
  | true => simp
  | false =>
    by_cases hv : v.toList.any isGlobChar <;> simp [expandWord, hv]

/-- The value of the quoted reference is a pattern, and what it finds takes its place. -/
theorem quotedReference_expanded :
    let env : Environment := ⟨fun _ => some "*.c", ""⟩
    let fs : FileSystem := {
      has := fun _ => true
      isFolder := fun _ => false
      read := fun _ => .failed ""
      canonical? := fun _ => none
      glob := fun pattern => if pattern = "/wd/*.c" then [⟨"/wd/a.c"⟩] else [] }
    let gap : Nat → Gap := fun _ => ⟨[' '], by simp, by simp⟩
    let n : VariableName := ⟨"V", 'V', [], rfl, by simp [isNameStart]⟩
    let text := command gap (around [⟨.single, "cc"⟩] [] (.quotedReference .bare n))
    text = "'cc' \"$V\"" ∧ n.value env = "*.c" ∧
      expandWords env fs ⟨"/wd"⟩ text = .ok ["cc", "a.c"] := by
  intro env fs gap n text
  have hwords : commandWords env text = .ok (["cc", "*.c"], true) := by decide
  have hcc : expandWord fs ⟨"/wd"⟩ "cc" = ["cc"] := by rfl
  have hv : expandWord fs ⟨"/wd"⟩ "*.c" = ["a.c"] := by
    have hpattern : "*.c".toList.any isGlobChar = true := by rfl
    have htext : patternText ⟨"/wd"⟩ "*.c" = "/wd/*.c" := by decide
    have hvalid : (Glob.parse? "/wd/*.c").isNone = false := by rfl
    have hglob : fs.glob "/wd/*.c" = [⟨"/wd/a.c"⟩] := rfl
    have hfound : foundWord ⟨"/wd"⟩ "*.c" ⟨"/wd/a.c"⟩ = "a.c" := by decide
    rw [expandWord, if_pos hpattern, expandPattern, htext, hglob]
    simp [hvalid, hfound]
  refine ⟨by decide, by decide, ?_⟩
  simp [expandWords_of_commandWords hwords, hcc, hv]

theorem expandWords_of_noMatches (hfs : ∀ pattern, fs.glob pattern = []) (text : String) :
    expandWords env fs folder text = (commandWords env text).map (·.1) := by
  have hword (w : String) : expandWord fs folder w = [w] := by
    simp [expandWord, expandPattern, hfs]
  cases h : commandWords env text with
  | error e => simp [expandWords, h, bind, Except.bind, Except.map]
  | ok r =>
    obtain ⟨words, globbing⟩ := r
    rw [expandWords_of_commandWords h, flatMap_expandWord fun w _ => hword w]
    simp [Except.map]

theorem exists_spaced_cons (gap : Nat → Gap) (s : List Char) (texts : List (List Char)) :
    ∃ rest, spaced gap (s :: texts) = s ++ rest ∧ EndsWord rest ∧
      rest.count '#' = texts.flatten.count '#' := by
  cases texts with
  | nil => exact ⟨[], by simp [spaced], endsWord_nil, rfl⟩
  | cons t texts =>
    refine ⟨_, rfl, (gap _).endsWord _, ?_⟩
    rw [List.count_append, count_gap, count_spaced, Nat.zero_add]

theorem split?_of_commandWords {s t : List Char} {a : Bool} {words : List String}
    (hb : WordBecomes env s t a)
    (h : (commandWords env (String.ofList s)).map (·.1) = .ok words) :
    split? t = some (words.map String.toList) := by
  simp only [commandWords, substitute_of_wordBecomes hb, bind, Except.bind] at h
  cases hs : split? t with
  | none => simp [hs, Except.map] at h
  | some found =>
    simp only [hs, Except.map, Except.ok.injEq] at h
    subst h
    simp [Function.comp_def]

/-- What stands before the reference is read as it is written, so that the rest of the words comes
from the value and what stands behind it. -/
theorem exists_split_around {gap : Nat → Gap} {before after : List QuotedWord}
    {style : ReferenceStyle} {n : VariableName} {later : List (List Char)}
    (h : (commandWords env (command gap (around before after (.reference style n)))).map (·.1) =
      .ok (before.map (·.word) ++ later.map String.ofList)) :
    ∃ rest, EndsWord rest ∧ rest.count '#' = (after.map (·.word.toList)).flatten.count '#' ∧
      splitFrom .between (guard .outside (n.value env).toList ++ rest) = some later := by
  let words := around before after (.reference style n)
  have hbecomes : WordBecomes env (spaced gap (words.map Word.text))
      (spaced gap (words.map (·.replaced env))) (words.any (·.hides)) :=
    wordBecomes_spaced gap words fun w _ => w.wordBecomes
  have hsplit := split?_of_commandWords hbecomes h
  obtain ⟨rest, hspaced, hrest, hcount⟩ :=
    exists_spaced_cons gap (guard .outside (n.value env).toList) (after.map (·.text))
  have htext : words.map (·.replaced env) =
      before.map (·.text) ++ guard .outside (n.value env).toList :: after.map (·.text) := by
    simp [words, around, Word.replaced, Function.comp_def]
  have hbefore := splitFrom_spaced_append gap before (fun w _ => w.splitsInto)
    (guard .outside (n.value env).toList :: after.map (·.text)) endsWord_nil
  rw [List.append_nil, List.append_nil, hspaced] at hbefore
  rw [htext, split?, hbefore] at hsplit
  refine ⟨rest, hrest, hcount.trans (count_quoted_all after), ?_⟩
  obtain ⟨found, hfound, heq⟩ := Option.map_eq_some_iff.mp hsplit
  have hwords : (before.map (·.word) ++ later.map String.ofList).map String.toList =
      (before.flatMap fun w => [w.word.toList]) ++ later := by
    rw [← List.map_eq_flatMap]
    simp [Function.comp_def]
  rw [hwords] at heq
  rw [← List.append_cancel_left heq]
  exact hfound

/-- Without files that match, a reference that is not quoted contributes the fields of the value,
with all characters as they are. This holds exactly when no field begins with `#`: such a field
would begin a comment. -/
theorem expandWords_reference (env : Environment) (fs : FileSystem) (folder : Path)
    (gap : Nat → Gap) (before after : List QuotedWord) (style : ReferenceStyle)
    (n : VariableName) (hfs : ∀ pattern, fs.glob pattern = []) :
    let values := fields (n.value env).toList
    expandWords env fs folder (command gap (around before after (.reference style n))) =
        .ok (before.map (·.word) ++ values.map String.ofList ++ after.map (·.word)) ↔
      ∀ f ∈ values, f.head? ≠ some '#' := by
  intro values
  rw [expandWords_of_noMatches hfs]
  constructor
  · intro h f hf hhead
    have hlater : (commandWords env (command gap (around before after (.reference style n)))).map
        (·.1) = .ok (before.map (·.word) ++
          (values ++ after.map (·.word.toList)).map String.ofList) := by
      rw [h]
      simp [Function.comp_def]
    obtain ⟨rest, hrest, hcount, hsplit⟩ := exists_split_around hlater
    have hlt := count_lt_of_comment ⟨f, hf, hhead⟩ hrest hsplit
    rw [List.flatten_append, List.count_append, count_fields, hcount] at hlt
    exact Nat.lt_irrefl _ hlt
  · intro h
    rw [commandWords_around env gap before after (w := .reference style n) rfl h]
    rfl

theorem expandWords_reference_flags :
    let fs : FileSystem :=
      ⟨fun _ => false, fun _ => false, fun _ => .failed "", fun _ => none, fun _ => []⟩
    let gap : Nat → Gap := fun _ => ⟨[' '], by simp, by simp⟩
    let n : VariableName := ⟨"V", 'V', [], rfl, by simp [isNameStart]⟩
    let text := command gap (around [⟨.single, "cc"⟩] [⟨.single, "a.c"⟩] (.reference .bare n))
    (∀ pattern, fs.glob pattern = []) ∧ text = "'cc' $V 'a.c'" ∧
    expandWords ⟨fun _ => some "-a '-b", ""⟩ fs ⟨"/"⟩ text = .ok ["cc", "-a", "'-b", "a.c"] ∧
    expandWords ⟨fun _ => some "-a #b", ""⟩ fs ⟨"/"⟩ text ≠ .ok ["cc", "-a", "#b", "a.c"] := by
  intro fs gap n text
  have hfs : ∀ pattern, fs.glob pattern = [] := fun _ => rfl
  have hflags : (fields (n.value ⟨fun _ => some "-a '-b", ""⟩).toList).map String.ofList =
      ["-a", "'-b"] := by decide
  have hcomment : (fields (n.value ⟨fun _ => some "-a #b", ""⟩).toList).map String.ofList =
      ["-a", "#b"] := by decide
  refine ⟨hfs, by decide, ?_, fun h => ?_⟩
  · have hall := (expandWords_reference ⟨fun _ => some "-a '-b", ""⟩ fs ⟨"/"⟩ gap
      [⟨.single, "cc"⟩] [⟨.single, "a.c"⟩] .bare n hfs).mpr (by decide)
    rwa [hflags] at hall
  · have hplain := (expandWords_reference ⟨fun _ => some "-a #b", ""⟩ fs ⟨"/"⟩ gap
      [⟨.single, "cc"⟩] [⟨.single, "a.c"⟩] .bare n hfs).mp (by rwa [hcomment])
    revert hplain
    decide

end CompileIndex.Shell
