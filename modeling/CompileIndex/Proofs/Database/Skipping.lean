import CompileIndex.Database.Import

/-!
# Why an entry is skipped

The faults of an entry have an order: its kind, the types of its fields, its file, its directory,
its invocation. The first fault is the reason for which the entry is skipped, and an entry without
a fault yields one file with its metadata.
-/
namespace CompileIndex.Database

open Json (Value)

def IsObject (v : Value) : Prop := ∃ fields, v = .object fields

/-- A field that is null is a field that is missing. -/
def IsMissing (o : Option Value) : Prop := o = none ∨ o = some .null

def IsText (o : Option Value) : Prop := IsMissing o ∨ ∃ s, o = some (.string s)

def IsTextList (o : Option Value) : Prop :=
  IsMissing o ∨ ∃ texts : List String, o = some (.array (texts.map .string))

structure WellTyped (v : Value) : Prop where
  isObject : IsObject v
  arguments_isTextList : IsTextList (v.field? "arguments")
  command_isText : IsText (v.field? "command")
  directory_isText : IsText (v.field? "directory")
  file_isText : IsText (v.field? "file")

def misfitItem? : Value → Option (Value × Shape)
  | .string _ => none
  | w => some (w, .text)

def misfitText? : Option Value → Option (Value × Shape)
  | none | some .null => none
  | some w => misfitItem? w

def misfitTexts? : Option Value → Option (Value × Shape)
  | none | some .null => none
  | some (.array items) => items.findSome? misfitItem?
  | some w => some (w, .list)

/-- The first value of a wrong type, with what should stand there. The fields are taken in the
order of their names. -/
def misfit? (v : Value) : Option (Value × Shape) :=
  (misfitTexts? (v.field? "arguments")).or <| (misfitText? (v.field? "command")).or <|
    (misfitText? (v.field? "directory")).or (misfitText? (v.field? "file"))

structure Located (v : Value) (file directory : String) : Prop where
  wellTyped : WellTyped v
  has_file : v.field? "file" = some (.string file)
  has_directory : v.field? "directory" = some (.string directory)

/-- The folder in which the compiler ran. -/
def workingFolder (folder : Path) (directory : String) : Path := folder.resolve ⟨directory⟩

def sourceFile (folder : Path) (directory file : String) : Path :=
  (workingFolder folder directory).resolve ⟨file⟩

section Verdict

variable (env : Shell.Environment) (fs : FileSystem) (folder : Path) (v : Value)

/-- The reason for which `v` is skipped, and the file that is recorded with it. Each reason
supposes that those listed before it do not apply. -/
inductive SkippedFor : Option Path → EntryError → Prop
  | notAnObject (h : ¬ IsObject v) : SkippedFor none .notAnObject
  | invalidField (found : Value) (expected : Shape) (h : IsObject v)
      (hm : misfit? v = some (found, expected)) : SkippedFor none (.invalidField found expected)
  | noFile (h : WellTyped v) (hf : IsMissing (v.field? "file")) :
      SkippedFor none (.missingField .file)
  | noDirectory (file : String) (h : WellTyped v) (hf : v.field? "file" = some (.string file))
      (hd : IsMissing (v.field? "directory")) :
      SkippedFor (some ⟨file⟩) (.missingField .directory)
  | badCommand (file directory command : String) (e : Shell.Error) (h : Located v file directory)
      (hc : v.field? "command" = some (.string command))
      (he : Shell.expandWords env fs (workingFolder folder directory) command = .error e) :
      SkippedFor (some (sourceFile folder directory file)) (.tokenize e)
  | noCommand (file directory : String) (h : Located v file directory)
      (hc : IsMissing (v.field? "command")) (ha : IsMissing (v.field? "arguments")) :
      SkippedFor (some (sourceFile folder directory file)) (.missingField .command)

/-- The words of the invocation are those of the command, or else the arguments. -/
inductive InvokedWith (directory : String) : List String → Prop
  | command (command : String) (words : List String)
      (hc : v.field? "command" = some (.string command))
      (hw : Shell.expandWords env fs (workingFolder folder directory) command = .ok words) :
      InvokedWith directory words
  | arguments (words : List String) (hc : IsMissing (v.field? "command"))
      (ha : v.field? "arguments" = some (.array (words.map .string))) :
      InvokedWith directory words

/-- The file that `v` is about, and the metadata of its invocation. -/
inductive Yields : Path → Metadata → Prop
  | entry (file directory : String) (words : List String) (h : Located v file directory)
      (hw : InvokedWith env fs folder v directory words) :
      Yields (sourceFile folder directory file)
        (Entry.withLanguage (sourceFile folder directory file)
          (Arguments.classify (workingFolder folder directory) words))

def Skipped : Prop := ∃ file e, SkippedFor env fs folder v file e

end Verdict

variable {env : Shell.Environment} {fs : FileSystem} {folder k : Path} {v w : Value}
  {o : Option Value} {file : Option Path} {e : EntryError} {m : Metadata} {shape : Shape}

def textOf? : Option Value → Option String
  | some (.string s) => some s
  | _ => none

def textsOf? : Option Value → Option (List String)
  | some (.array items) => some (items.filterMap fun item => textOf? (some item))
  | _ => none

theorem textOf?_of_missing (h : IsMissing o) : textOf? o = none := by
  rcases h with rfl | rfl <;> rfl

theorem textsOf?_of_missing (h : IsMissing o) : textsOf? o = none := by
  rcases h with rfl | rfl <;> rfl

theorem textsOf?_texts (texts : List String) :
    textsOf? (some (.array (texts.map .string))) = some texts := by
  rw [textsOf?, List.filterMap_map]
  exact congrArg some List.filterMap_some

theorem isText_of_no_misfit (h : misfitText? o = none) : IsText o := by
  match o with
  | none => exact .inl (.inl rfl)
  | some .null => exact .inl (.inr rfl)
  | some (.string s) => exact .inr ⟨s, rfl⟩
  | some (.bool _) | some (.number _) | some (.array _) | some (.object _) => cases h

theorem optionalText_of_isText (h : IsText o) : Entry.optionalText o = .ok (textOf? o) := by
  rcases h with (rfl | rfl) | ⟨s, rfl⟩ <;> rfl

theorem optionalText_of_misfit (h : misfitText? o = some (w, shape)) :
    Entry.optionalText o = .error (.invalidField w shape) := by
  match o with
  | none | some .null | some (.string _) => cases h
  | some (.bool _) | some (.number _) | some (.array _) | some (.object _) =>
    cases h
    rfl

theorem texts_of_no_misfit {items : List Value} (h : items.findSome? misfitItem? = none) :
    ∃ texts : List String, items = texts.map .string := by
  induction items with
  | nil => exact ⟨[], rfl⟩
  | cons item rest ih =>
    rw [List.findSome?_cons] at h
    cases item with
    | string s =>
      obtain ⟨texts, rfl⟩ := ih h
      exact ⟨s :: texts, rfl⟩
    | null | bool | number | array | object => cases h

theorem mapM_text_texts (texts : List String) :
    (texts.map Value.string).mapM Entry.text = .ok texts := by
  induction texts with
  | nil => rfl
  | cons s rest ih =>
    rw [List.map_cons, List.mapM_cons, ih]
    rfl

theorem mapM_text_of_misfit {items : List Value}
    (h : items.findSome? misfitItem? = some (w, shape)) :
    items.mapM Entry.text = .error (.invalidField w shape) := by
  induction items with
  | nil => cases h
  | cons item rest ih =>
    rw [List.findSome?_cons] at h
    rw [List.mapM_cons]
    cases item with
    | string s =>
      rw [ih h]
      rfl
    | null | bool | number | array | object =>
      cases h
      rfl

theorem isTextList_of_no_misfit (h : misfitTexts? o = none) : IsTextList o := by
  match o with
  | none => exact .inl (.inl rfl)
  | some .null => exact .inl (.inr rfl)
  | some (.array items) =>
    obtain ⟨texts, rfl⟩ := texts_of_no_misfit h
    exact .inr ⟨texts, rfl⟩
  | some (.bool _) | some (.number _) | some (.string _) | some (.object _) => cases h

theorem optionalList_of_isTextList (h : IsTextList o) :
    Entry.optionalList o = .ok (textsOf? o) := by
  rcases h with (rfl | rfl) | ⟨texts, rfl⟩
  · rfl
  · rfl
  · rw [textsOf?_texts, Entry.optionalList, mapM_text_texts]
    rfl

theorem optionalList_of_misfit (h : misfitTexts? o = some (w, shape)) :
    Entry.optionalList o = .error (.invalidField w shape) := by
  match o with
  | none | some .null => cases h
  | some (.array items) =>
    rw [Entry.optionalList, mapM_text_of_misfit h]
    rfl
  | some (.bool _) | some (.number _) | some (.string _) | some (.object _) =>
    cases h
    rfl

theorem wellTyped_of_no_misfit (h : IsObject v) (hm : misfit? v = none) : WellTyped v := by
  simp only [misfit?, Option.or_eq_none_iff] at hm
  obtain ⟨ha, hc, hd, hf⟩ := hm
  exact ⟨h, isTextList_of_no_misfit ha, isText_of_no_misfit hc, isText_of_no_misfit hd,
    isText_of_no_misfit hf⟩

theorem ofJson_of_not_object (h : ¬ IsObject v) : Entry.ofJson v = .error .notAnObject := by
  cases v with
  | object fields => exact absurd ⟨fields, rfl⟩ h
  | null | bool | number | string | array => rfl

theorem ofJson_of_wellTyped (h : WellTyped v) :
    Entry.ofJson v = .ok ⟨textOf? (v.field? "file"), textOf? (v.field? "directory"),
      textOf? (v.field? "command"), textsOf? (v.field? "arguments")⟩ := by
  obtain ⟨⟨fields, rfl⟩, ha, hc, hd, hf⟩ := h
  simp only [Entry.ofJson, optionalList_of_isTextList ha, optionalText_of_isText hc,
    optionalText_of_isText hd, optionalText_of_isText hf]
  rfl

theorem ofJson_of_misfit (h : IsObject v) (hm : misfit? v = some (w, shape)) :
    Entry.ofJson v = .error (.invalidField w shape) := by
  obtain ⟨fields, rfl⟩ := h
  simp only [misfit?, Option.or_eq_some_iff] at hm
  simp only [Entry.ofJson]
  -- The fields in front of the misfit are read without an error.
  rcases hm with ha | ⟨ha, hm⟩
  · rw [optionalList_of_misfit ha]
    rfl
  rw [optionalList_of_isTextList (isTextList_of_no_misfit ha)]
  rcases hm with hc | ⟨hc, hm⟩
  · rw [optionalText_of_misfit hc]
    rfl
  rw [optionalText_of_isText (isText_of_no_misfit hc)]
  rcases hm with hd | ⟨hd, hf⟩
  · rw [optionalText_of_misfit hd]
    rfl
  rw [optionalText_of_isText (isText_of_no_misfit hd), optionalText_of_misfit hf]
  rfl

theorem importEntry_of_wellTyped (h : WellTyped v) :
    importEntry env fs folder v =
      Entry.resolve env fs folder ⟨textOf? (v.field? "file"), textOf? (v.field? "directory"),
        textOf? (v.field? "command"), textsOf? (v.field? "arguments")⟩ := by
  rw [importEntry, ofJson_of_wellTyped h]

theorem importEntry_of_skippedFor (h : SkippedFor env fs folder v file e) :
    importEntry env fs folder v = .error (file, e) := by
  cases h with
  | notAnObject h => rw [importEntry, ofJson_of_not_object h]
  | invalidField found expected h hm => rw [importEntry, ofJson_of_misfit h hm]
  | noFile h hf =>
    rw [importEntry_of_wellTyped h, textOf?_of_missing hf]
    rfl
  | noDirectory file h hf hd =>
    rw [importEntry_of_wellTyped h, hf, textOf?_of_missing hd]
    rfl
  | badCommand file directory command e h hc he =>
    rw [importEntry_of_wellTyped h.wellTyped, h.has_file, h.has_directory, hc]
    simp only [Entry.resolve, textOf?, Entry.metadata]
    rw [workingFolder] at he
    rw [he]
    rfl
  | noCommand file directory h hc ha =>
    rw [importEntry_of_wellTyped h.wellTyped, h.has_file, h.has_directory,
      textOf?_of_missing hc, textsOf?_of_missing ha]
    rfl

theorem importEntry_of_yields (h : Yields env fs folder v k m) :
    importEntry env fs folder v = .ok (k, m) := by
  obtain ⟨file, directory, words, h, hw⟩ := h
  rw [importEntry_of_wellTyped h.wellTyped, h.has_file, h.has_directory]
  cases hw with
  | command command words hc hw =>
    simp only [hc, Entry.resolve, textOf?, Entry.metadata]
    rw [workingFolder] at hw
    rw [hw]
    rfl
  | arguments words hc ha =>
    rw [textOf?_of_missing hc, ha, textsOf?_texts]
    rfl

theorem skipped_or_yields (env : Shell.Environment) (fs : FileSystem) (folder : Path) (v : Value) :
    Skipped env fs folder v ∨ ∃ k m, Yields env fs folder v k m := by
  by_cases hobj : IsObject v
  case neg => exact .inl ⟨_, _, .notAnObject hobj⟩
  cases hm : misfit? v with
  | some misfit => exact .inl ⟨_, _, .invalidField misfit.1 misfit.2 hobj hm⟩
  | none =>
    have h := wellTyped_of_no_misfit hobj hm
    rcases h.file_isText with hf | ⟨file, hf⟩
    · exact .inl ⟨_, _, .noFile h hf⟩
    rcases h.directory_isText with hd | ⟨directory, hd⟩
    · exact .inl ⟨_, _, .noDirectory file h hf hd⟩
    have hl : Located v file directory := ⟨h, hf, hd⟩
    rcases h.command_isText with hc | ⟨command, hc⟩
    · rcases h.arguments_isTextList with ha | ⟨words, ha⟩
      · exact .inl ⟨_, _, .noCommand file directory hl hc ha⟩
      · exact .inr ⟨_, _, .entry file directory words hl (.arguments words hc ha)⟩
    · cases hw : Shell.expandWords env fs (workingFolder folder directory) command with
      | error e => exact .inl ⟨_, _, .badCommand file directory command e hl hc hw⟩
      | ok words => exact .inr ⟨_, _, .entry file directory words hl (.command command words hc hw)⟩

theorem importEntry_eq_error_iff :
    importEntry env fs folder v = .error (file, e) ↔ SkippedFor env fs folder v file e := by
  constructor
  · intro h
    rcases skipped_or_yields env fs folder v with ⟨file', e', hs⟩ | ⟨k, m, hy⟩
    · rw [importEntry_of_skippedFor hs] at h
      cases h
      exact hs
    · rw [importEntry_of_yields hy] at h
      cases h
  · exact importEntry_of_skippedFor

theorem importEntry_eq_ok_iff :
    importEntry env fs folder v = .ok (k, m) ↔ Yields env fs folder v k m := by
  constructor
  · intro h
    rcases skipped_or_yields env fs folder v with ⟨file, e, hs⟩ | ⟨k', m', hy⟩
    · rw [importEntry_of_skippedFor hs] at h
      cases h
    · rw [importEntry_of_yields hy] at h
      cases h
      exact hy
  · exact importEntry_of_yields

theorem skipped_iff : Skipped env fs folder v ↔ (importEntry env fs folder v).toBool = false := by
  constructor
  · rintro ⟨file, e, h⟩
    rw [importEntry_of_skippedFor h]
    rfl
  · intro h
    cases hv : importEntry env fs folder v with
    | ok entry =>
      rw [hv] at h
      cases h
    | error reason => exact ⟨reason.1, reason.2, importEntry_eq_error_iff.mp hv⟩

instance (env : Shell.Environment) (fs : FileSystem) (folder : Path) :
    DecidablePred (Skipped env fs folder) :=
  fun _ => decidable_of_iff _ skipped_iff.symm

end CompileIndex.Database
