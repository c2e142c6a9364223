import CompileIndex.Proofs.Shell.Reading
import Mathlib.Data.List.Basic

/-!
# Quoted words

A word can be written in single or in double quotes so that nothing in it is special. The scan,
the splitter and pathname expansion agree on it, and give the word back as it is.
-/
namespace CompileIndex.Shell

variable {env : Environment} {c : Char}

inductive QuoteStyle
  | single
  | double
  deriving DecidableEq, Repr

namespace QuoteStyle

def mark : QuoteStyle → Char
  | .single => '\''
  | .double => '"'

/-- How a character of the word is written. Between single quotes nothing can be escaped, so a
single quote is written outside them. -/
def escape : QuoteStyle → Char → List Char
  | .single, c => if c = '\'' then ['\'', '\\', '\'', '\''] else [c]
  | .double, c => if c = '"' ∨ c = '\\' ∨ c = '$' ∨ c = '\x60' then ['\\', c] else [c]

def write (style : QuoteStyle) (word : List Char) : List Char :=
  [style.mark] ++ (word.flatMap style.escape ++ [style.mark])

def quote : QuoteStyle → Quote
  | .single => .single
  | .double => .double

def place : QuoteStyle → List Char → Place
  | .single => .single
  | .double => .double

end QuoteStyle

theorem becomes_open (style : QuoteStyle) :
    Becomes env .outside [style.mark] [style.mark] false style.quote := by
  cases style with
  | single => exact becomes_char (fun _ => rfl)
  | double => exact becomes_char (fun _ => rfl)

theorem becomes_close (style : QuoteStyle) :
    Becomes env style.quote [style.mark] [style.mark] false .outside := by
  cases style with
  | single => exact becomes_char (fun _ => rfl)
  | double => exact becomes_char (fun _ => rfl)

theorem becomes_escape (style : QuoteStyle) (c : Char) :
    Becomes env style.quote (style.escape c) (style.escape c) (isGlobChar c) style.quote := by
  cases style with
  | single =>
    by_cases hc : c = '\''
    · subst hc
      -- The quotes are closed, the mark is escaped, and they are opened again.
      have hpair : Becomes env .outside ['\\', '\''] ['\\', '\''] false .outside :=
        becomes_pair (by decide) '\''
      exact (becomes_close .single).append (hpair.append (becomes_open .single))
    · have hread : ∀ rest, readPiece .single c rest = .ok (.char c, .single, 0) := by
        intro rest
        simp [readPiece, Quote.after, hc]
      rw [QuoteStyle.escape, if_neg hc]
      exact becomes_char hread
  | double =>
    by_cases hc : c = '"' ∨ c = '\\' ∨ c = '$' ∨ c = '\x60'
    · rw [QuoteStyle.escape, if_pos hc]
      exact becomes_pair (by decide) c
    · have hread : ∀ rest, readPiece .double c rest = .ok (.char c, .double, 0) := by
        intro rest
        obtain ⟨hq, hb, hd, ha⟩ : c ≠ '"' ∧ c ≠ '\\' ∧ c ≠ '$' ∧ c ≠ '\x60' := by
          simpa only [not_or] using hc
        simp [readPiece, Quote.after, hq, hb, hd, ha]
      rw [QuoteStyle.escape, if_neg hc]
      exact becomes_char hread

theorem becomes_escaped (style : QuoteStyle) (word : List Char) :
    Becomes env style.quote (word.flatMap style.escape) (word.flatMap style.escape)
      (word.any isGlobChar) style.quote := by
  induction word with
  | nil => exact becomes_nil
  | cons c rest ih => exact (becomes_escape style c).append ih

theorem becomes_write (style : QuoteStyle) (word : List Char) :
    Becomes env .outside (style.write word) (style.write word) (word.any isGlobChar) .outside := by
  have hopen : Becomes env .outside [style.mark] [style.mark] false style.quote :=
    becomes_open style
  have h := hopen.append ((becomes_escaped style word).append (becomes_close style))
  simpa [QuoteStyle.write] using h

theorem passes_open (style : QuoteStyle) : Passes .between [style.mark] (style.place []) := by
  cases style <;> exact fun rest => rfl

theorem passes_close (style : QuoteStyle) (word : List Char) :
    Passes (style.place word) [style.mark] (.bare word) := by
  cases style <;> exact fun rest => rfl

theorem passes_escape (style : QuoteStyle) (word : List Char) (c : Char) :
    Passes (style.place word) (style.escape c) (style.place (c :: word)) := by
  intro rest
  cases style with
  | single =>
    by_cases hc : c = '\''
    · subst hc
      rfl
    · rw [QuoteStyle.escape, if_neg hc, List.singleton_append]
      simp [QuoteStyle.place, splitFrom, hc]
  | double =>
    by_cases hc : c = '"' ∨ c = '\\' ∨ c = '$' ∨ c = '\x60'
    · have hu : unescapeDouble word c = c :: word := by
        rcases hc with rfl | rfl | rfl | rfl <;> rfl
      rw [QuoteStyle.escape, if_pos hc]
      simp [QuoteStyle.place, splitFrom, hu]
    · have hq : c ≠ '"' := fun h => hc (.inl h)
      have hb : c ≠ '\\' := fun h => hc (.inr (.inl h))
      rw [QuoteStyle.escape, if_neg hc, List.singleton_append]
      simp [QuoteStyle.place, splitFrom, hq, hb]

theorem passes_escaped (style : QuoteStyle) (before word : List Char) :
    Passes (style.place before) (word.flatMap style.escape)
      (style.place (word.reverse ++ before)) := by
  induction word generalizing before with
  | nil => exact fun rest => rfl
  | cons c rest ih =>
    have h := (passes_escape style before c).append (ih (c :: before))
    simpa using h

theorem passes_write (style : QuoteStyle) (word : List Char) :
    Passes .between (style.write word) (.bare word.reverse) := by
  have h := (passes_open style).append
    ((passes_escaped style [] word).append (passes_close style _))
  simpa [QuoteStyle.write] using h

structure QuotedWord where
  style : QuoteStyle
  word : String

def QuotedWord.text (w : QuotedWord) : List Char := w.style.write w.word.toList

theorem QuotedWord.wordBecomes (w : QuotedWord) :
    WordBecomes env w.text w.text (w.word.toList.any isGlobChar) :=
  (becomes_write w.style w.word.toList).word

theorem QuotedWord.splitsInto (w : QuotedWord) : SplitsInto w.text [w.word.toList] := by
  have h := (passes_write w.style w.word.toList).splitsInto
  rwa [List.reverse_reverse] at h

def quotedCommand (gap : Nat → Gap) (words : List QuotedWord) : String :=
  String.ofList (spaced gap (words.map QuotedWord.text))

theorem commandWords_quoted (env : Environment) (gap : Nat → Gap) (words : List QuotedWord) :
    commandWords env (quotedCommand gap words) =
      .ok (words.map (·.word), !words.any fun w => w.word.toList.any isGlobChar) := by
  have hs : WordBecomes env (spaced gap (words.map QuotedWord.text))
      (spaced gap (words.map QuotedWord.text)) (words.any fun w => w.word.toList.any isGlobChar) :=
    wordBecomes_spaced gap words fun w _ => w.wordBecomes
  have hw : SplitsInto (spaced gap (words.map QuotedWord.text))
      (words.flatMap fun w => [w.word.toList]) :=
    splitsInto_spaced gap words fun w _ => w.splitsInto
  rw [quotedCommand, commandWords_of_reading hs hw, ← List.map_eq_flatMap]
  simp [Function.comp_def]

/-- Words that are written in quotes, each in the one style or the other, are expanded to
themselves, whatever the variables and the files are. -/
theorem expandWords_quoted (env : Environment) (fs : FileSystem) (folder : Path)
    (gap : Nat → Gap) (words : List QuotedWord) :
    expandWords env fs folder (quotedCommand gap words) = .ok (words.map (·.word)) := by
  simp only [expandWords, commandWords_quoted, bind, Except.bind, pure, Except.pure]
  cases hglob : words.any fun w => w.word.toList.any isGlobChar with
  | true => rfl
  | false =>
    -- No word can be a pattern, so that each one contributes itself.
    have hplain : ∀ w ∈ words.map (·.word), expandWord fs folder w = [w] := by
      intro w hw
      obtain ⟨v, hv, rfl⟩ := List.mem_map.mp hw
      rw [expandWord, if_neg]
      exact List.any_eq_false.mp hglob v hv
    have hwords : (words.map (·.word)).flatMap (expandWord fs folder) = words.map (·.word) := by
      rw [List.flatMap_congr hplain]
      simp
    simp [hwords]

end CompileIndex.Shell
