import CompileIndex.Shell.Expansion

/-!
# Reading a command in stretches

What the scan and the splitting make of a stretch of a command, whatever stands behind it.
Stretches that fit together are read one after the other, and so are words between gaps.
-/
namespace CompileIndex.Shell

variable {env : Environment} {q q' q'' : Quote} {s s' t t' : List Char} {a b : Bool} {c : Char}

/-- What the pieces become when there is no fault. -/
def Scan.outcome (env : Environment) (s : Scan) : Except Error Substituted :=
  match s.fault with
  | some e => .error e
  | none => .ok (s.substituted env)

def Substituted.behind (r : Substituted) (t : List Char) (hides : Bool) : Substituted :=
  ⟨t ++ r.text, !hides && r.globbing⟩

/-- Inside the quotes `q`, the stretch `s` becomes `t`, and the scan goes on inside `q'`; `hides`
tells whether a pattern character is quoted or escaped in it. -/
def Becomes (env : Environment) (q : Quote) (s t : List Char) (hides : Bool) (q' : Quote) : Prop :=
  ∀ rest, (scanFrom 0 q (s ++ rest)).outcome env =
    ((scanFrom 0 q' rest).outcome env).map (·.behind t hides)

theorem outcome_cons (item : Item) (more : Scan) :
    ({ more with items := item :: more.items } : Scan).outcome env =
      (more.outcome env).map (·.behind (item.text env) item.hidesGlob) := by
  obtain ⟨items, fault⟩ := more
  cases fault with
  | some e => rfl
  | none => simp [Scan.outcome, Scan.substituted, Substituted.behind, Except.map]

theorem becomes_nil : Becomes env q [] [] false q := by
  intro rest
  cases h : (scanFrom 0 q rest).outcome env <;>
    simp [h, Except.map, Substituted.behind]

theorem Becomes.append (h : Becomes env q s t a q') (k : Becomes env q' s' t' b q'') :
    Becomes env q (s ++ s') (t ++ t') (a || b) q'' := by
  intro rest
  rw [List.append_assoc, h, k]
  cases (scanFrom 0 q'' rest).outcome env <;>
    simp [Except.map, Substituted.behind, Bool.and_assoc]

theorem scanFrom_of_readPiece {piece : Piece} {rest : List Char}
    (h : readPiece q c (s ++ rest) = .ok (piece, q', s.length)) :
    scanFrom 0 q (c :: (s ++ rest)) =
      { scanFrom 0 q' rest with items := ⟨q, piece⟩ :: (scanFrom 0 q' rest).items } := by
  rw [scanFrom, h]
  simp only
  rw [scanFrom_drop, List.drop_left]

theorem outcome_of_readPiece {piece : Piece} {rest : List Char}
    (h : readPiece q c (s ++ rest) = .ok (piece, q', s.length)) :
    (scanFrom 0 q (c :: (s ++ rest))).outcome env =
      ((scanFrom 0 q' rest).outcome env).map
        (·.behind ((⟨q, piece⟩ : Item).text env) (⟨q, piece⟩ : Item).hidesGlob) := by
  rw [scanFrom_of_readPiece h, outcome_cons]

theorem becomes_char (h : ∀ rest, readPiece q c rest = .ok (.char c, q', 0)) :
    Becomes env q [c] [c] (q != .outside && isGlobChar c) q' :=
  fun rest => outcome_of_readPiece (s := []) (h rest)

theorem becomes_pair (h : q ≠ .single) (c : Char) :
    Becomes env q ['\\', c] ['\\', c] (isGlobChar c) q := by
  intro rest
  have hr : readPiece q '\\' ([c] ++ rest) = .ok (.pair c, q, 1) := by simp [readPiece, h]
  exact outcome_of_readPiece hr

def Place.next : Place → Char → Place
  | .between, c =>
    if isSeparator c then .between else if c = '#' then .comment else .enter [] c
  | .comment, c => if c = '\n' then .between else .comment
  | .bare word, c => if isSeparator c then .between else .enter word c
  | .escaped word, c => .bare (if c = '\n' then word else c :: word)
  | .single word, c => if c = '\'' then .bare word else .single (c :: word)
  | .double word, c =>
    if c = '"' then .bare word
    else if c = '\\' then .doubleEscaped word
    else .double (c :: word)
  | .doubleEscaped word, c => .double (unescapeDouble word c)

def Place.ended : Place → Char → List (List Char)
  | .bare word, c => if isSeparator c then [word.reverse] else []
  | _, _ => []

theorem splitFrom_cons (p : Place) (c : Char) (rest : List Char) :
    splitFrom p (c :: rest) = (splitFrom (p.next c) rest).map (p.ended c ++ ·) := by
  cases p with
  | between =>
    simp only [splitFrom, Place.next, Place.ended]
    split
    · simp
    split <;> simp
  | comment =>
    simp only [splitFrom, Place.next, Place.ended]
    split <;> simp
  | bare word =>
    simp only [splitFrom, Place.next, Place.ended]
    split <;> simp
  | escaped word => simp [splitFrom, Place.next, Place.ended]
  | single word =>
    simp only [splitFrom, Place.next, Place.ended]
    split <;> simp
  | double word =>
    simp only [splitFrom, Place.next, Place.ended]
    split
    · simp
    split <;> simp
  | doubleEscaped word => simp [splitFrom, Place.next, Place.ended]

/-- Splitting takes the stretch `s` from the place `p` to the place `p'` without ending a word. -/
def Passes (p : Place) (s : List Char) (p' : Place) : Prop :=
  ∀ rest, splitFrom p (s ++ rest) = splitFrom p' rest

theorem Passes.append {p p' p'' : Place} (h : Passes p s p') (k : Passes p' s' p'') :
    Passes p (s ++ s') p'' := by
  intro rest
  rw [List.append_assoc, h, k]

structure Gap where
  text : List Char
  nonempty : text ≠ []
  blank : ∀ c ∈ text, c = ' ' ∨ c = '\t'

theorem isSeparator_of_blank (h : c = ' ' ∨ c = '\t') : isSeparator c = true := by
  rcases h with rfl | rfl <;> rfl

theorem becomes_blanks (h : ∀ c ∈ s, c = ' ' ∨ c = '\t') :
    Becomes env .outside s s false .outside := by
  induction s with
  | nil => exact becomes_nil
  | cons c rest ih =>
    have hc : Becomes env .outside [c] [c] false .outside := by
      rcases h c List.mem_cons_self with rfl | rfl
      · exact becomes_char (fun _ => rfl)
      · exact becomes_char (fun _ => rfl)
    exact hc.append (ih fun d hd => h d (List.mem_cons_of_mem c hd))

theorem passes_blanks (h : ∀ c ∈ s, c = ' ' ∨ c = '\t') : Passes .between s .between := by
  induction s with
  | nil => exact fun rest => rfl
  | cons c rest ih =>
    intro more
    have hc := isSeparator_of_blank (h c List.mem_cons_self)
    rw [List.cons_append, splitFrom, if_pos hc]
    exact ih (fun d hd => h d (List.mem_cons_of_mem c hd)) more

/-- A word that comes before this text ends there. -/
def EndsWord (rest : List Char) : Prop := ∀ c ∈ rest.head?, isSeparator c

theorem endsWord_nil : EndsWord [] := by
  intro c hc
  cases hc

theorem endsWord_cons (h : isSeparator c) (rest : List Char) : EndsWord (c :: rest) := by
  intro d hd
  obtain rfl : c = d := by simpa using hd
  exact h

theorem EndsWord.append (h : EndsWord s) (k : EndsWord t) : EndsWord (s ++ t) := by
  cases s with
  | nil => exact k
  | cons c rest => exact endsWord_cons (h c rfl) _

theorem Gap.endsWord (g : Gap) (rest : List Char) : EndsWord (g.text ++ rest) := by
  obtain ⟨c, more, hg⟩ := List.exists_cons_of_ne_nil g.nonempty
  have hc : isSeparator c := isSeparator_of_blank (g.blank c (by simp [hg]))
  rw [hg]
  exact endsWord_cons hc _

/-- Outside quotes, the stretch `s` becomes `t` when a word ends behind it. -/
def WordBecomes (env : Environment) (s t : List Char) (hides : Bool) : Prop :=
  ∀ rest, EndsWord rest → (scanFrom 0 .outside (s ++ rest)).outcome env =
    ((scanFrom 0 .outside rest).outcome env).map (·.behind t hides)

theorem Becomes.word (h : Becomes env .outside s t a .outside) : WordBecomes env s t a :=
  fun rest _ => h rest

theorem WordBecomes.spaced (h : WordBecomes env s t a) (g : Gap)
    (k : WordBecomes env s' t' b) :
    WordBecomes env (s ++ (g.text ++ s')) (t ++ (g.text ++ t')) (a || b) := by
  intro rest hrest
  have hg : Becomes env .outside g.text g.text false .outside := becomes_blanks g.blank
  rw [List.append_assoc, List.append_assoc, h _ (g.endsWord _), hg, k rest hrest]
  cases (scanFrom 0 .outside rest).outcome env <;>
    simp [Except.map, Substituted.behind, Bool.and_assoc]

theorem substitute_of_wordBecomes (h : WordBecomes env s t a) :
    substitute env (String.ofList s) = .ok ⟨t, !a⟩ := by
  have hs := h [] endsWord_nil
  rw [List.append_nil] at hs
  change (scanFrom 0 .outside (String.ofList s).toList).outcome env = _
  rw [String.toList_ofList, hs]
  simp [scanFrom, Quote.unclosed, Scan.outcome, Scan.substituted, Substituted.behind, Except.map]

/-- Splitting makes these words of the stretch when a word ends behind it. -/
def SplitsInto (s : List Char) (words : List (List Char)) : Prop :=
  ∀ rest, EndsWord rest → splitFrom .between (s ++ rest) = (splitFrom .between rest).map (words ++ ·)

theorem splitFrom_bare_of_endsWord (h : EndsWord s) (word : List Char) :
    splitFrom (.bare word) s = (splitFrom .between s).map (word.reverse :: ·) := by
  cases s with
  | nil => rfl
  | cons c rest =>
    have hc : isSeparator c := h c rfl
    simp only [splitFrom, hc, if_true]

theorem Passes.splitsInto {word : List Char} (h : Passes .between s (.bare word)) :
    SplitsInto s [word.reverse] := by
  intro rest hrest
  rw [h, splitFrom_bare_of_endsWord hrest]
  rfl

/-- Texts with gaps between them. A gap is known by the number of texts that follow it. -/
def spaced (gap : Nat → Gap) : List (List Char) → List Char
  | [] => []
  | [s] => s
  | s :: rest => s ++ ((gap rest.length).text ++ spaced gap rest)

section Words

variable {α : Type} {text replaced : α → List Char} {hides : α → Bool}
  {split : α → List (List Char)} (gap : Nat → Gap)

theorem wordBecomes_spaced (words : List α)
    (h : ∀ w ∈ words, WordBecomes env (text w) (replaced w) (hides w)) :
    WordBecomes env (spaced gap (words.map text)) (spaced gap (words.map replaced))
      (words.any hides) := by
  induction words with
  | nil => exact becomes_nil.word
  | cons w rest ih =>
    obtain ⟨hw, hrest⟩ := List.forall_mem_cons.mp h
    cases rest with
    | nil => simpa [spaced] using hw
    | cons v more => simpa [spaced] using hw.spaced (gap (more.length + 1)) (ih hrest)

theorem splitFrom_spaced_append (words : List α) (h : ∀ w ∈ words, SplitsInto (replaced w) (split w))
    (more : List (List Char)) {rest : List Char} (hrest : EndsWord rest) :
    splitFrom .between (spaced gap (words.map replaced ++ more) ++ rest) =
      (splitFrom .between (spaced gap more ++ rest)).map (words.flatMap split ++ ·) := by
  induction words with
  | nil => simp
  | cons w words ih =>
    obtain ⟨hw, hwords⟩ := List.forall_mem_cons.mp h
    have ih := ih hwords
    cases hs : words.map replaced ++ more with
    | nil =>
      obtain ⟨hnil, rfl⟩ := List.append_eq_nil_iff.mp hs
      obtain rfl := List.map_eq_nil_iff.mp hnil
      simpa [spaced] using hw rest hrest
    | cons s texts =>
      rw [hs] at ih
      simp only [List.map_cons, List.cons_append, hs, spaced, List.append_assoc]
      rw [hw _ ((gap _).endsWord _), passes_blanks (gap _).blank, ih]
      simp [Function.comp_def]

theorem splitsInto_spaced (words : List α) (h : ∀ w ∈ words, SplitsInto (replaced w) (split w)) :
    SplitsInto (spaced gap (words.map replaced)) (words.flatMap split) := by
  intro rest hrest
  have hs := splitFrom_spaced_append gap words h [] hrest
  rwa [List.append_nil] at hs

end Words

theorem SplitsInto.split? {words : List (List Char)} (h : SplitsInto s words) :
    split? s = some words := by
  have hs := h [] endsWord_nil
  rw [List.append_nil] at hs
  rw [Shell.split?, hs]
  simp [splitFrom]

theorem commandWords_of_reading {words : List (List Char)} (hb : WordBecomes env s t a)
    (hw : SplitsInto t words) :
    commandWords env (String.ofList s) = .ok (words.map String.ofList, !a) := by
  simp only [commandWords, substitute_of_wordBecomes hb, bind, Except.bind, hw.split?]

end CompileIndex.Shell
