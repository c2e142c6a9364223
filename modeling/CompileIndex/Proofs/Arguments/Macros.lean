import CompileIndex.Proofs.Arguments.Reading

/-!
# Macros of an invocation

Definitions and undefinitions may come in one word or in two, and among words that only look like
them. For each name the last one that names it counts.
-/
namespace CompileIndex.Arguments

inductive Kind
  | define
  | undefine
  deriving DecidableEq

namespace Kind

def spelling : Kind → String
  | .define => "-D"
  | .undefine => "-U"

def awaited : Kind → Awaited
  | .define => .define
  | .undefine => .undefine

theorem mem_valued (kind : Kind) : (kind.spelling, kind.awaited) ∈ valued := by
  cases kind <;> decide

end Kind

/-- What is said of a macro. -/
structure Directive where
  kind : Kind
  text : String

/-- A text is cut at its first equals sign into a name and a value. -/
inductive Cut : String → String → String → Prop
  | atSign (name value : String) (h : '=' ∉ name.toList) : Cut (name ++ "=" ++ value) name value
  | nowhere (name : String) (h : '=' ∉ name.toList) : Cut name name ""

/-- A definition gives its name a value, and an undefinition takes away that of its whole text. -/
inductive Directive.Settles : Directive → String → Option String → Prop
  | define (text name value : String) (h : Cut text name value) (hname : name ≠ "") :
    Settles ⟨.define, text⟩ name (some value)
  | undefine (name : String) : Settles ⟨.undefine, name⟩ name none

def Directive.Names (d : Directive) (name : String) : Prop := ∃ value, d.Settles name value

/-- Behind the words `before` a word is a directive: by itself where an option is expected, or as
the value of the option in front of it. -/
inductive Directs : List String → String → Directive → Prop
  | inOne (before : List String) (d : Directive) (h : Complete before) (ht : d.text ≠ "") :
    Directs before (d.kind.spelling ++ d.text) d
  | inTwo (before : List String) (d : Directive) (h : Complete before) :
    Directs (before ++ [d.kind.spelling]) d.text d

def DirectiveAt (words : List String) (i : Nat) (d : Directive) : Prop :=
  ∃ word, words[i]? = some word ∧ Directs (words.take i) word d

/-- Of the directives among the words that name a macro, `d` is the last. -/
def LastNaming (words : List String) (name : String) (d : Directive) : Prop :=
  ∃ i, DirectiveAt words i d ∧ d.Names name ∧
    ∀ j e, i < j → DirectiveAt words j e → ¬ e.Names name

variable {words before : List String} {word text name value : String} {d e : Directive}
  {folder : Path} {m : Metadata}

theorem Cut.notMem_name (h : Cut text name value) : '=' ∉ name.toList := by
  cases h with
  | atSign name value h => exact h
  | nowhere name h => exact h

theorem takeWhile_name (h : '=' ∉ name.toList) (rest : List Char) :
    (name.toList ++ rest).takeWhile (· ≠ '=') = name.toList ++ rest.takeWhile (· ≠ '=') := by
  refine List.takeWhile_append_of_pos fun c hc => decide_eq_true ?_
  rintro rfl
  exact h hc

theorem splitDefinition_of_cut (h : Cut text name value) :
    splitDefinition text = (name, value) := by
  cases h with
  | atSign name value h =>
    have htext : (name ++ "=" ++ value).toList = name.toList ++ '=' :: value.toList := by simp
    have htake := takeWhile_name h ('=' :: value.toList)
    simp only [splitDefinition, htext, htake]
    simp
  | nowhere name h =>
    have htake := takeWhile_name h []
    rw [List.append_nil] at htake
    simp only [splitDefinition, htake]
    simp

theorem exists_cut (text : String) : ∃ name value, Cut text name value := by
  by_cases h : '=' ∈ text.toList
  · obtain ⟨name, value, htext, hname⟩ := List.eq_append_cons_of_mem h
    have hcut : text = String.ofList name ++ "=" ++ String.ofList value := by
      rw [← String.toList_inj]
      simp [htext]
    rw [hcut]
    exact ⟨_, _, .atSign _ _ (by simpa using hname)⟩
  · exact ⟨_, _, .nowhere text h⟩

theorem splitDefinition_eq_iff : splitDefinition text = (name, value) ↔ Cut text name value := by
  constructor
  · intro h
    obtain ⟨name', value', hcut⟩ := exists_cut text
    rw [splitDefinition_of_cut hcut] at h
    cases h
    exact hcut
  · exact splitDefinition_of_cut

def Action.directive? : Action → Option Directive
  | .define text => some ⟨.define, text⟩
  | .undefine text => some ⟨.undefine, text⟩
  | .includeFolder _ | .frameworkFolder _ | .language _ | .flag _ => none

theorem directive?_action (d : Directive) :
    (d.kind.awaited.action d.text).directive? = some d := by
  rcases d with ⟨kind, text⟩
  cases kind <;> rfl

theorem eq_of_directive? {awaited : Awaited} (h : (awaited.action text).directive? = some d) :
    awaited = d.kind.awaited ∧ text = d.text := by
  cases awaited with
  | define | undefine =>
    cases h
    exact ⟨rfl, rfl⟩
  | includeFolder | frameworkFolder | language => cases h

theorem spelling_of_awaited {kind : Kind} {spelling : String}
    (h : (spelling, kind.awaited) ∈ valued) : spelling = kind.spelling := by
  cases kind <;> simpa [valued, Kind.awaited, Kind.spelling] using h

theorem stateAfter_spelling (h : Complete before) (kind : Kind) :
    stateAfter .ready (before ++ [kind.spelling]) = .value kind.awaited := by
  rw [stateAfter_option h, readOption_bare kind.mem_valued]

theorem directs_iff :
    Directs before word d ↔
      (readWord (stateAfter .ready before) word).1.bind Action.directive? = some d := by
  constructor
  · intro h
    cases h with
    | inOne before d h ht =>
      rw [stateAfter_of_complete h, readWord, readOption_inline d.kind.mem_valued ht]
      exact directive?_action d
    | inTwo before d h =>
      rw [stateAfter_spelling h]
      exact directive?_action d
  · -- What a word can stand for is settled by whether the words in front of it are complete.
    intro h
    rcases complete_or_waiting before with hcomplete | ⟨earlier, option, rfl, hcomplete, ho⟩
    · obtain ⟨action, state, hread, hstands⟩ := exists_stands word
      rw [stateAfter_of_complete hcomplete, readWord, hread] at h
      cases hstands with
      | withValue spelling text awaited hmem ht =>
        obtain ⟨rfl, rfl⟩ := eq_of_directive? h
        rw [spelling_of_awaited hmem]
        exact .inOne before d hcomplete ht
      | source | discarded | output | bare | language | flag => cases h
    · obtain ⟨action, state, hread, hstands⟩ := exists_stands option
      have hwaiting := mem_takers_iff.mp ho
      rw [stateAfter_option hcomplete, hread] at h
      rw [hread] at hwaiting
      cases hstands with
      | bare spelling awaited hmem =>
        obtain ⟨rfl, rfl⟩ := eq_of_directive? h
        rw [spelling_of_awaited hmem]
        exact .inTwo earlier d hcomplete
      | output | language => cases h
      | source | discarded | withValue | flag => exact absurd rfl hwaiting

theorem Directs.unique (hd : Directs before word d) (he : Directs before word e) : d = e := by
  rw [directs_iff] at hd he
  exact Option.some.inj (hd.symm.trans he)

theorem directiveAt_concat {i : Nat} :
    DirectiveAt (words ++ [word]) i d ↔
      DirectiveAt words i d ∨ i = words.length ∧ Directs words word d := by
  rcases Nat.lt_trichotomy i words.length with hi | rfl | hi
  · have htake : (words ++ [word]).take i = words.take i :=
      List.take_append_of_le_length (Nat.le_of_lt hi)
    have hne : i ≠ words.length := by omega
    simp [DirectiveAt, List.getElem?_append_left hi, htake, hne]
  · simp [DirectiveAt]
  · have hne : i ≠ words.length := by omega
    have hlen : words.length ≤ i := by omega
    have hout : (words ++ [word])[i]? = none := by
      rw [List.getElem?_eq_none_iff, List.length_append, List.length_singleton]
      omega
    simp [DirectiveAt, hout, hne, List.getElem?_eq_none hlen]

theorem lt_of_directiveAt {i : Nat} (h : DirectiveAt words i d) : i < words.length := by
  obtain ⟨word, hword, -⟩ := h
  exact (List.getElem?_eq_some_iff.mp hword).1

/-- A word more is the last to name a macro, or it does not name it. -/
theorem lastNaming_concat :
    LastNaming (words ++ [word]) name d ↔
      Directs words word d ∧ d.Names name ∨
      LastNaming words name d ∧ ∀ e, Directs words word e → ¬ e.Names name := by
  constructor
  · rintro ⟨i, hi, hnames, hlast⟩
    rcases directiveAt_concat.mp hi with hearlier | ⟨rfl, hword⟩
    · right
      refine ⟨⟨i, hearlier, hnames, ?_⟩, ?_⟩
      · intro j e hj he
        exact hlast j e hj (directiveAt_concat.mpr (.inl he))
      · intro e he
        have hlt := lt_of_directiveAt hearlier
        exact hlast words.length e hlt (directiveAt_concat.mpr (.inr ⟨rfl, he⟩))
    · exact .inl ⟨hword, hnames⟩
  · rintro (⟨hword, hnames⟩ | ⟨⟨i, hi, hnames, hlast⟩, hnone⟩)
    · refine ⟨words.length, directiveAt_concat.mpr (.inr ⟨rfl, hword⟩), hnames, ?_⟩
      intro j e hj he
      have hlt := lt_of_directiveAt he
      rw [List.length_append, List.length_singleton] at hlt
      omega
    · refine ⟨i, directiveAt_concat.mpr (.inl hi), hnames, ?_⟩
      intro j e hj he
      rcases directiveAt_concat.mp he with hearlier | ⟨rfl, hword⟩
      · exact hlast j e hj hearlier
      · exact hnone e hword

theorem Directive.settles_define_iff {value : Option String} :
    Directive.Settles ⟨.define, text⟩ name value ↔
      name ≠ "" ∧ ∃ v, Cut text name v ∧ value = some v := by
  constructor
  · rintro (⟨_, _, v, hcut, hname⟩ | _)
    exact ⟨hname, v, hcut, rfl⟩
  · rintro ⟨hname, v, hcut, rfl⟩
    exact .define text name v hcut hname

theorem LastNaming.cut (h : LastNaming words name ⟨.define, text⟩) :
    name ≠ "" ∧ ∃ value, Cut text name value := by
  obtain ⟨i, -, ⟨settled, hsettles⟩, -⟩ := h
  obtain ⟨hname, value, hcut, -⟩ := Directive.settles_define_iff.mp hsettles
  exact ⟨hname, value, hcut⟩

theorem Directive.settles_undefine_iff {value : Option String} :
    Directive.Settles ⟨.undefine, text⟩ name value ↔ text = name ∧ value = none := by
  constructor
  · rintro (_ | _)
    exact ⟨rfl, rfl⟩
  · rintro ⟨rfl, rfl⟩
    exact .undefine text

theorem getElem?_defines_apply (folder : Path) (m : Metadata) (action : Action) (name : String) :
    (apply folder m action).defines[name]? =
      match action with
      | .define text =>
        if (splitDefinition text).1 = name ∧ name ≠ "" then some (splitDefinition text).2
        else m.defines[name]?
      | .undefine text => if text = name then none else m.defines[name]?
      | _ => m.defines[name]? := by
  cases action with
  | define text =>
    simp only [apply]
    by_cases hempty : (splitDefinition text).1 = ""
    · rw [if_pos hempty]
      have hnot : ¬ ((splitDefinition text).1 = name ∧ name ≠ "") := by
        rintro ⟨rfl, hname⟩
        exact hname hempty
      rw [if_neg hnot]
    · rw [if_neg hempty, Std.TreeMap.getElem?_insert]
      simp only [Std.LawfulEqOrd.compare_eq_iff_eq]
      by_cases hname : (splitDefinition text).1 = name
      · subst hname
        simp [hempty]
      · simp [hname]
  | undefine text =>
    simp only [apply, Std.TreeMap.getElem?_erase, Std.LawfulEqOrd.compare_eq_iff_eq]
  | includeFolder | frameworkFolder | language | flag => rfl

theorem getElem?_apply_of_settles {action : Action} {value : Option String}
    (hd : action.directive? = some d) (h : d.Settles name value) :
    (apply folder m action).defines[name]? = value := by
  rw [getElem?_defines_apply]
  cases action with
  | define text =>
    cases hd
    obtain ⟨hname, v, hcut, rfl⟩ := Directive.settles_define_iff.mp h
    simp [splitDefinition_of_cut hcut, hname]
  | undefine text =>
    cases hd
    obtain ⟨rfl, rfl⟩ := Directive.settles_undefine_iff.mp h
    simp
  | includeFolder | frameworkFolder | language | flag => cases hd

theorem getElem?_apply_of_not_names {action : Action}
    (h : ∀ d, action.directive? = some d → ¬ d.Names name) :
    (apply folder m action).defines[name]? = m.defines[name]? := by
  rw [getElem?_defines_apply]
  cases action with
  | define text =>
    refine if_neg ?_
    rintro ⟨hsplit, hname⟩
    have hcut : Cut text name (splitDefinition text).2 :=
      splitDefinition_eq_iff.mp (Prod.ext hsplit rfl)
    exact h _ rfl ⟨_, .define text name _ hcut hname⟩
  | undefine text =>
    refine if_neg ?_
    rintro rfl
    exact h _ rfl ⟨_, .undefine text⟩
  | includeFolder | frameworkFolder | language | flag => rfl

theorem Directive.Settles.unique {value value' : Option String} (h : d.Settles name value)
    (h' : d.Settles name value') : value = value' := by
  rcases d with ⟨_ | _, text⟩
  · obtain ⟨-, v, hcut, rfl⟩ := Directive.settles_define_iff.mp h
    obtain ⟨-, v', hcut', rfl⟩ := Directive.settles_define_iff.mp h'
    have heq := (splitDefinition_of_cut hcut).symm.trans (splitDefinition_of_cut hcut')
    cases heq
    rfl
  · rw [(Directive.settles_undefine_iff.mp h).2, (Directive.settles_undefine_iff.mp h').2]

theorem getElem?_read_of_directs (folder : Path) {value : Option String}
    (hd : Directs words word d) (h : d.Settles name value) :
    (read folder (words ++ [word])).defines[name]? = value := by
  obtain ⟨action, haction, hdirective⟩ := Option.bind_eq_some_iff.mp (directs_iff.mp hd)
  rw [read_concat, haction]
  exact getElem?_apply_of_settles hdirective h

theorem getElem?_read_of_not_names (folder : Path)
    (h : ∀ d, Directs words word d → ¬ d.Names name) :
    (read folder (words ++ [word])).defines[name]? = (read folder words).defines[name]? := by
  rw [read_concat]
  cases haction : (readWord (stateAfter .ready words) word).1 with
  | none => rfl
  | some action =>
    refine getElem?_apply_of_not_names fun d hdirective => h d ?_
    rw [directs_iff, haction]
    exact hdirective

theorem getElem?_read_iff (folder : Path) (words : List String) (name value : String) :
    (read folder words).defines[name]? = some value ↔
      ∃ d, LastNaming words name d ∧ d.Settles name (some value) := by
  induction words using List.reverseRecOn with
  | nil =>
    have hnone : ∀ d, ¬ LastNaming [] name d := by
      rintro d ⟨i, hi, -⟩
      exact absurd (lt_of_directiveAt hi) (Nat.not_lt_zero i)
    simp [read, actionsFrom, Metadata.empty, hnone]
  | append_singleton words word ih =>
    simp only [lastNaming_concat]
    by_cases h : ∃ d, Directs words word d ∧ d.Names name
    · obtain ⟨d, hd, settled, hsettles⟩ := h
      rw [getElem?_read_of_directs folder hd hsettles]
      constructor
      · rintro rfl
        exact ⟨d, .inl ⟨hd, _, hsettles⟩, hsettles⟩
      · rintro ⟨e, ⟨he, -⟩ | ⟨-, hnone⟩, hvalue⟩
        · obtain rfl := hd.unique he
          exact hsettles.unique hvalue
        · exact absurd ⟨settled, hsettles⟩ (hnone d hd)
    · have hnone : ∀ d, Directs words word d → ¬ d.Names name := by
        intro d hd hnames
        exact h ⟨d, hd, hnames⟩
      rw [getElem?_read_of_not_names folder hnone, ih]
      constructor
      · rintro ⟨d, hlast, hvalue⟩
        exact ⟨d, .inr ⟨hlast, hnone⟩, hvalue⟩
      · rintro ⟨d, ⟨hd, hnames⟩ | ⟨hlast, -⟩, hvalue⟩
        · exact absurd hnames (hnone d hd)
        · exact ⟨d, hlast, hvalue⟩

/-- A macro is defined exactly when the last directive that names it, among the words behind the
compiler, is a definition, and it has the value of that. Names are never empty and have no equals
sign. -/
theorem macro_of_last_directive (folder : Path) (arguments : List String) (name : String) :
    let defines := (classify folder arguments).defines
    (name ∈ defines ↔ ∃ text, LastNaming (arguments.drop 1) name ⟨.define, text⟩) ∧
    (∀ value, defines[name]? = some value ↔
      ∃ text, LastNaming (arguments.drop 1) name ⟨.define, text⟩ ∧ Cut text name value) ∧
    (name ∈ defines → name ≠ "" ∧ '=' ∉ name.toList) := by
  intro defines
  have hdefines : ∀ value, defines[name]? = some value ↔
      ∃ text, LastNaming (arguments.drop 1) name ⟨.define, text⟩ ∧ Cut text name value := by
    intro value
    refine (getElem?_read_iff folder (arguments.drop 1) name value).trans ?_
    constructor
    · rintro ⟨_, hlast, ⟨text, _, _, hcut, -⟩ | _⟩
      exact ⟨text, hlast, hcut⟩
    · rintro ⟨text, hlast, hcut⟩
      exact ⟨_, hlast, .define text name value hcut hlast.cut.1⟩
  have hmem : name ∈ defines ↔ ∃ value, defines[name]? = some value := by
    rw [Std.TreeMap.mem_iff_isSome_getElem?, Option.isSome_iff_exists]
  refine ⟨?_, hdefines, ?_⟩
  · simp only [hmem, hdefines]
    constructor
    · rintro ⟨value, text, hlast, -⟩
      exact ⟨text, hlast⟩
    · rintro ⟨text, hlast⟩
      obtain ⟨value, hcut⟩ := hlast.cut.2
      exact ⟨value, text, hlast, hcut⟩
  · intro hin
    obtain ⟨value, hvalue⟩ := hmem.mp hin
    obtain ⟨text, hlast, hcut⟩ := (hdefines value).mp hvalue
    exact ⟨hlast.cut.1, hcut.notMem_name⟩

/-- The word `-UB` is the value of `-o`, and the last word has nothing to stand for. -/
example : (classify ⟨"/w"⟩
      ["cc", "-DA=1=2", "-DC=3=4", "-D", "B", "-o", "-UB", "-U", "A", "-D"]).defines.toList =
    [("B", ""), ("C", "3=4")] := by
  decide +kernel

end CompileIndex.Arguments
