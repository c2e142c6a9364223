import CompileIndex.Proofs.Path.Text
import CompileIndex.Proofs.Shell.References
import Mathlib.Data.List.Forall2

/-!
# Pathname expansion

Each word of a command contributes its own part of the result. A pattern that finds paths gives one
word for each of them, and the path can be told from the word and the working folder.
-/
namespace CompileIndex.Shell

variable {env : Environment} {fs : FileSystem} {folder p : Path} {word command : String}
  {globbing : Bool} {result : List String}

def IsPattern (word : String) : Prop := ∃ c ∈ word.toList, c = '*' ∨ c = '?' ∨ c = '['

def FindsAbsolute (fs : FileSystem) : Prop :=
  ∀ pattern, (Path.mk pattern).isAbsolute → ∀ p ∈ fs.glob pattern, p.isAbsolute

/-- The word is the path for an absolute pattern, and for a relative one what gives the path again
when it is joined to the working folder. -/
structure Restores (folder : Path) (word text : String) (p : Path) : Prop where
  absolute : (Path.mk word).isAbsolute → .mk text = p
  relative : (Path.mk word).isAbsolute = false → (folder.join (.mk text)).same p

/-- The word is the text of the path or of what is left of it. It restores the path that is a text,
while in others U+FFFD has taken the place of octets. -/
structure StandsFor (folder : Path) (word text : String) (p : Path) : Prop where
  lossy : ∃ r : Path, text = r.text ∧ ((Path.mk word).isAbsolute → r = p) ∧
    ((Path.mk word).isAbsolute = false → (folder.join r).same p)
  restores : p.isText → Restores folder word text p

variable {pattern : String → String} {stands : String → String → Path → Prop}

/-- What a word contributes to the result: itself, or one word for each path that it finds, in the
order of the words. -/
inductive Contributes (pattern : String → String) (stands : String → String → Path → Prop)
    (fs : FileSystem) (globbing : Bool) (word : String) : List String → Prop
  | plain (h : ¬ IsPattern word) : Contributes pattern stands fs globbing word [word]
  | literal (h : IsPattern word)
    (hnothing : globbing = false ∨ Glob.parse? (pattern word) = none ∨
      fs.glob (pattern word) = []) : Contributes pattern stands fs globbing word [word]
  | found (h : IsPattern word) (hglobbing : globbing = true)
    (hvalid : Glob.parse? (pattern word) ≠ none)
    (hfound : fs.glob (pattern word) ≠ []) (text : Path → String)
    (words : List String) (hperm : words.Perm ((fs.glob (pattern word)).map text))
    (hsorted : words.Pairwise (· ≤ ·))
    (htext : ∀ p ∈ fs.glob (pattern word), stands word (text p) p) :
    Contributes pattern stands fs globbing word words

/-- The result is put together of what the words of the command contribute, in their order. -/
def Concatenates (pattern : String → String) (stands : String → String → Path → Prop)
    (env : Environment) (fs : FileSystem) (command : String) (result : List String) : Prop :=
  ∃ s words contributions, substitute env command = .ok s ∧ split? s.text = some words ∧
    List.Forall₂ (Contributes pattern stands fs s.globbing) (words.map String.ofList)
      contributions ∧
    result = contributions.flatten

theorem isPattern_iff : IsPattern word ↔ word.toList.any isGlobChar := by
  simp [IsPattern, isGlobChar, or_assoc]

theorem isAbsolute_patternText (hfolder : folder.isAbsolute) (word : String) :
    (Path.mk (patternText folder word)).isAbsolute := by
  rw [patternText]
  split
  · next h => exact h
  · obtain ⟨t, ht⟩ := List.head?_eq_some_iff.mp (Path.head_text hfolder)
    exact Path.isAbsolute_mk (by simp [Glob.escape, ht])

/-- What is left of a path below the folder, or the whole path, gives it back in the folder. -/
theorem join_rest (hfolder : folder.isAbsolute) (hp : p.isAbsolute) :
    (folder.join ((p.below? folder).getD p)).same p ∧
      (p.isText → ((p.below? folder).getD p).isText) := by
  cases hbelow : p.below? folder with
  | none =>
    rw [Option.getD_none, Path.join, if_pos hp]
    exact ⟨Path.same_refl p, id⟩
  | some r =>
    rw [Option.getD_some]
    exact ⟨(Path.join_below hfolder hbelow).2, fun htext => Path.isText_below htext hbelow⟩

theorem standsFor_foundWord (hfolder : folder.isAbsolute) (hp : p.isAbsolute) :
    StandsFor folder word (foundWord folder word p) p := by
  cases habsolute : (Path.mk word).isAbsolute with
  | true =>
    rw [foundWord, if_pos habsolute]
    constructor
    · exact ⟨p, rfl, fun _ => rfl, by simp [habsolute]⟩
    · intro htext
      exact ⟨fun _ => Path.mk_text htext, by simp [habsolute]⟩
  | false =>
    obtain ⟨hsame, hrest⟩ := join_rest hfolder hp
    rw [foundWord, if_neg (by simp [habsolute])]
    constructor
    · exact ⟨_, rfl, by simp [habsolute], fun _ => hsame⟩
    · intro htext
      refine ⟨by simp [habsolute], fun _ => ?_⟩
      rw [Path.mk_text (hrest htext)]
      exact hsame

theorem mergeSort_ordered (words : List String) :
    (words.mergeSort fun a b => decide (a ≤ b)).Pairwise (· ≤ ·) := by
  refine (List.pairwise_mergeSort ?_ ?_ words).imp of_decide_eq_true
  · intro a b c hab hbc
    exact decide_eq_true (String.le_trans (of_decide_eq_true hab) (of_decide_eq_true hbc))
  · intro a b
    simpa using String.le_total a b

theorem contributes_expandPattern (hfolder : folder.isAbsolute) (hfs : FindsAbsolute fs)
    (h : IsPattern word) : Contributes (patternText folder) (StandsFor folder) fs true word
      (expandPattern fs folder word) := by
  rw [expandPattern]
  cases hvalid : Glob.parse? (patternText folder word) with
  | none => exact .literal h (.inr (.inl hvalid))
  | some pattern =>
    rw [if_neg (by simp)]
    split
    · next hnothing => exact .literal h (.inr (.inr hnothing))
    · next hfound =>
      have hsome : Glob.parse? (patternText folder word) ≠ none := by simp [hvalid]
      have hstands : ∀ p ∈ fs.glob (patternText folder word),
          StandsFor folder word (foundWord folder word p) p := fun p hp =>
        standsFor_foundWord hfolder (hfs _ (isAbsolute_patternText hfolder word) p hp)
      exact .found h rfl hsome hfound (foundWord folder word) _ (List.mergeSort_perm _ _)
        (mergeSort_ordered _) hstands

theorem contributes_expandWord (hfolder : folder.isAbsolute) (hfs : FindsAbsolute fs)
    (word : String) : Contributes (patternText folder) (StandsFor folder) fs true word
      (expandWord fs folder word) := by
  rw [expandWord]
  split
  · next h => exact contributes_expandPattern hfolder hfs (isPattern_iff.mpr h)
  · next h => exact .plain fun hpattern => h (isPattern_iff.mp hpattern)

theorem contributes_itself (fs : FileSystem) (word : String) :
    Contributes pattern stands fs false word [word] := by
  by_cases h : IsPattern word
  · exact .literal h (.inl rfl)
  · exact .plain h

theorem expandWords_eq_ok (h : expandWords env fs folder command = .ok result) :
    ∃ s words, substitute env command = .ok s ∧ split? s.text = some words ∧
      commandWords env command = .ok (words.map String.ofList, s.globbing) := by
  cases hs : substitute env command with
  | error e => simp [expandWords, commandWords, hs, bind, Except.bind] at h
  | ok s =>
    cases hwords : split? s.text with
    | none => simp [expandWords, commandWords, hs, hwords, bind, Except.bind] at h
    | some words =>
      exact ⟨s, words, rfl, hwords, by simp [commandWords, hs, hwords, bind, Except.bind]⟩

/-- An accepted command is expanded word by word. A word that is no pattern, or whose pattern is
invalid or finds nothing, stays as it is, and all words do when a quoted character hides patterns.
Any other word is replaced by the paths that it finds, one word for each, in the order of the
words. -/
theorem expandWords_concatenates (hfolder : folder.isAbsolute) (hfs : FindsAbsolute fs)
    (h : expandWords env fs folder command = .ok result) :
    Concatenates (patternText folder) (StandsFor folder) env fs command result := by
  obtain ⟨s, words, hs, hwords, hcommand⟩ := expandWords_eq_ok h
  rw [expandWords_of_commandWords hcommand, Except.ok.injEq] at h
  obtain ⟨f, hf, rfl⟩ : ∃ f : String → List String,
      (∀ word, Contributes (patternText folder) (StandsFor folder) fs s.globbing word (f word)) ∧
        result = (words.map String.ofList).flatMap f := by
    cases hglobbing : s.globbing with
    | true =>
      rw [hglobbing, if_pos rfl] at h
      exact ⟨_, contributes_expandWord hfolder hfs, h.symm⟩
    | false =>
      rw [hglobbing, if_neg Bool.false_ne_true] at h
      exact ⟨_, contributes_itself fs, by rw [List.flatMap_singleton', h]⟩
  refine ⟨s, words, (words.map String.ofList).map f, hs, hwords, ?_, List.flatMap_def⟩
  rw [List.forall₂_map_right_iff, List.forall₂_same]
  exact fun word _ => hf word

/-- The name of the working folder looks like a pattern itself, and a path found is spelled with a
dot. -/
theorem expandWords_concatenates_brackets :
    let env : Environment := ⟨fun _ => none, ""⟩
    let fs : FileSystem := {
      has := fun _ => true
      isFolder := fun _ => false
      read := fun _ => .failed ""
      canonical? := fun _ => none
      glob := fun pattern =>
        if pattern = "/w[[]1[]]/*.c" then [⟨"/w[1]/b.c"⟩, ⟨"/w[1]/./a.c"⟩] else [] }
    let folder : Path := ⟨"/w[1]"⟩
    folder.isAbsolute ∧ FindsAbsolute fs ∧
      expandWords env fs folder "cc *.c x?" = .ok ["cc", "a.c", "b.c", "x?"] ∧
      Concatenates (patternText folder) (StandsFor folder) env fs "cc *.c x?"
        ["cc", "a.c", "b.c", "x?"] := by
  intro env fs folder
  have hfolder : folder.isAbsolute := by decide
  have hfs : FindsAbsolute fs := by
    intro pattern _ p hp
    simp only [fs] at hp
    split at hp
    · rcases List.mem_pair.mp hp with rfl | rfl <;> decide +kernel
    · simp at hp
  have hwords : commandWords env "cc *.c x?" = .ok (["cc", "*.c", "x?"], true) := by
    decide +kernel
  have hpattern : expandWord fs folder "*.c" = ["a.c", "b.c"] := by
    have hsorted : ["b.c", "a.c"].mergeSort (fun a b => decide (a ≤ b)) = ["a.c", "b.c"] := by
      simp [List.mergeSort, List.MergeSort.Internal.splitInTwo]
    have hb : foundWord folder "*.c" ⟨"/w[1]/b.c"⟩ = "b.c" := by decide +kernel
    have ha : foundWord folder "*.c" ⟨"/w[1]/./a.c"⟩ = "a.c" := by decide +kernel
    have hvalid : Glob.parse? "/w[[]1[]]/*.c" ≠ none := by decide +kernel
    have htext : patternText folder "*.c" = "/w[[]1[]]/*.c" := by decide +kernel
    have hglob : fs.glob "/w[[]1[]]/*.c" = [⟨"/w[1]/b.c"⟩, ⟨"/w[1]/./a.c"⟩] := rfl
    rw [expandWord, if_pos (by decide), expandPattern, htext, hglob]
    simp [hvalid, ha, hb, hsorted]
  have hnothing : expandWord fs folder "x?" = ["x?"] := by
    have hother : patternText folder "x?" ≠ "/w[[]1[]]/*.c" := by decide +kernel
    have hglob : fs.glob (patternText folder "x?") = [] := by
      dsimp only [fs]
      rw [if_neg hother]
    rw [expandWord, if_pos (by decide), expandPattern, hglob]
    simp
  have hcc : expandWord fs folder "cc" = ["cc"] := by decide +kernel
  have hresult : expandWords env fs folder "cc *.c x?" = .ok ["cc", "a.c", "b.c", "x?"] := by
    simp [expandWords_of_commandWords hwords, hcc, hpattern, hnothing]
  exact ⟨hfolder, hfs, hresult, expandWords_concatenates hfolder hfs hresult⟩

/-! ## Where words do not give the paths back -/

def joinedPattern (folder : Path) (word : String) : String :=
  ((Path.mk (Glob.escape folder.text)).join (.mk word)).text

theorem Contributes.eq_itself {words : List String}
    (h : Contributes pattern stands fs globbing word words) (hword : ¬ IsPattern word) :
    words = [word] := by
  cases h with
  | plain h => rfl
  | literal h hnothing => rfl
  | found h => exact absurd h hword

theorem Contributes.stands_of_singleton {text : String}
    (h : Contributes pattern stands fs true word [text]) (hword : IsPattern word)
    (hvalid : Glob.parse? (pattern word) ≠ none) (hglob : fs.glob (pattern word) = [p]) :
    stands word text p := by
  cases h with
  | plain h => exact absurd hword h
  | literal h hnothing =>
    rcases hnothing with h | h | h
    · cases h
    · exact absurd h hvalid
    · rw [hglob] at h
      cases h
  | found h hglobbing hvalid hfound f words hperm hsorted htext =>
    rw [hglob, List.map_cons, List.map_nil, List.singleton_perm_singleton] at hperm
    rw [hperm]
    exact htext p (by rw [hglob]; exact List.mem_singleton_self p)

/-- In a command of two words, the second of which is a pattern that finds one path, the word that
comes of it stands for the path. -/
theorem Concatenates.stands_of_pair {first text : String}
    (h : Concatenates pattern stands env fs command [first, text])
    (hcommand : commandWords env command = .ok ([first, word], true)) (hfirst : ¬ IsPattern first)
    (hword : IsPattern word) (hvalid : Glob.parse? (pattern word) ≠ none)
    (hglob : fs.glob (pattern word) = [p]) : stands word text p := by
  obtain ⟨s, words, contributions, hs, hsplit, hall, hresult⟩ := h
  have hpair : (words.map String.ofList, s.globbing) = ([first, word], true) := by
    simpa [commandWords, hs, hsplit, bind, Except.bind] using hcommand
  obtain ⟨hwords, hglobbing⟩ := Prod.mk.inj hpair
  rw [hwords, hglobbing] at hall
  obtain ⟨one, rest, hone, hrest, rfl⟩ := List.forall₂_cons_left_iff.mp hall
  obtain ⟨two, rest, htwo, hnil, rfl⟩ := List.forall₂_cons_left_iff.mp hrest
  obtain rfl := List.forall₂_nil_left_iff.mp hnil
  obtain rfl := hone.eq_itself hfirst
  have htext : two = [text] := by simpa using hresult.symm
  rw [htext] at htwo
  exact htwo.stands_of_singleton hword hvalid hglob

theorem expandWords_pair {first : String}
    (hcommand : commandWords env command = .ok ([first, word], true)) (hfirst : ¬ IsPattern first)
    (hword : IsPattern word) :
    expandWords env fs folder command = .ok (first :: expandPattern fs folder word) := by
  rw [isPattern_iff] at hfirst hword
  rw [expandWords_of_commandWords hcommand, if_pos rfl, List.flatMap_cons, List.flatMap_cons,
    List.flatMap_nil, expandWord, expandWord, if_neg hfirst, if_pos hword, List.append_nil]
  rfl

/-- A path is found through a folder whose name is no text: the word has U+FFFD in its place and
gives another path. And in the root folder the pattern has two slashes, so that it does not find
what the word joined to the folder does. -/
theorem expandWords_strays :
    let env : Environment := ⟨fun _ => none, ""⟩
    let finding (pattern : String) (p : Path) : FileSystem := {
      has := fun _ => true
      isFolder := fun _ => false
      read := fun _ => .failed ""
      canonical? := fun _ => none
      glob := fun asked => if asked = pattern then [p] else [] }
    let folder : Path := ⟨"/w"⟩
    let path : Path := (folder.join (.ofOctets [0xFF])).join ⟨"x.c"⟩
    let lost : FileSystem := finding "/w/**/x.c" path
    let root : Path := ⟨"/"⟩
    let missed : FileSystem := finding "/*.c" ⟨"/a.c"⟩
    (FindsAbsolute lost ∧ expandWords env lost folder "cc **/x.c" = .ok ["cc", "\uFFFD/x.c"] ∧
      ¬ Concatenates (joinedPattern folder) (Restores folder) env lost "cc **/x.c"
        ["cc", "\uFFFD/x.c"]) ∧
    FindsAbsolute missed ∧ expandWords env missed root "cc *.c" = .ok ["cc", "*.c"] ∧
      ¬ Concatenates (joinedPattern root) (Restores root) env missed "cc *.c" ["cc", "*.c"] := by
  intro env finding folder path lost root missed
  have hfinds (pattern : String) (p : Path) (hp : p.isAbsolute) :
      FindsAbsolute (finding pattern p) := by
    intro asked _ q hq
    dsimp only [finding] at hq
    split at hq
    · rw [List.mem_singleton.mp hq]
      exact hp
    · exact absurd hq List.not_mem_nil
  have hfinding (pattern : String) (p : Path) : (finding pattern p).glob pattern = [p] := if_pos rfl
  have hcc : ¬ IsPattern "cc" := by
    rw [isPattern_iff]
    decide
  refine ⟨⟨hfinds _ _ (by decide), ?_⟩, hfinds _ _ (by decide), ?_⟩
  · have hcommand : commandWords env "cc **/x.c" = .ok (["cc", "**/x.c"], true) := by
      decide +kernel
    have hword : IsPattern "**/x.c" := isPattern_iff.mpr (by decide)
    have hvalid : Glob.parse? "/w/**/x.c" ≠ none := by decide +kernel
    have hglob : lost.glob "/w/**/x.c" = [path] := hfinding _ _
    constructor
    · have htext : patternText folder "**/x.c" = "/w/**/x.c" := by decide +kernel
      have hfound : foundWord folder "**/x.c" path = "\uFFFD/x.c" := by decide +kernel
      rw [expandWords_pair hcommand hcc hword, expandPattern, htext, hglob]
      simp [hvalid, hfound]
    · intro h
      have hjoined : joinedPattern folder "**/x.c" = "/w/**/x.c" := by decide +kernel
      rw [← hjoined] at hvalid hglob
      have hsame := (h.stands_of_pair hcommand hcc hword hvalid hglob).relative (by decide)
      exact absurd hsame (by decide +kernel)
  · have hcommand : commandWords env "cc *.c" = .ok (["cc", "*.c"], true) := by decide +kernel
    have hword : IsPattern "*.c" := isPattern_iff.mpr (by decide)
    constructor
    · have hother : patternText root "*.c" ≠ "/*.c" := by decide +kernel
      have hglob : missed.glob (patternText root "*.c") = [] := by
        dsimp only [missed, finding]
        rw [if_neg hother]
      rw [expandWords_pair hcommand hcc hword, expandPattern, hglob]
      simp
    · intro h
      have hvalid : Glob.parse? "/*.c" ≠ none := by decide +kernel
      have hglob : missed.glob "/*.c" = [⟨"/a.c"⟩] := hfinding _ _
      have hjoined : joinedPattern root "*.c" = "/*.c" := by decide +kernel
      rw [← hjoined] at hvalid hglob
      have hsame := (h.stands_of_pair hcommand hcc hword hvalid hglob).relative (by decide)
      exact absurd hsame (by decide +kernel)

end CompileIndex.Shell
