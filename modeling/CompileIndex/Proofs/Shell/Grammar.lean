import CompileIndex.Proofs.Shell.Reading
import Mathlib.Data.List.Basic

/-!
# The grammar of commands

What a command consists of, said without the scan: characters, backslash pairs and references, each
with what may stand behind it. Every command has such a reading. It is refused for the first of its
parts that is not allowed, and for an open quote only when there is none.
-/
namespace CompileIndex.Shell

def IsIdentifier (text : List Char) : Prop :=
  ∃ c more, text = c :: more ∧ isNameStart c ∧ ∀ d ∈ more, isNameChar d

def IsDigits (text : List Char) : Prop := text ≠ [] ∧ ∀ c ∈ text, isDigit c

def specials : List Char := ['@', '*', '!', '-', '#', '?', '$']

/-- What may stand between the braces of a reference. -/
def IsReferent (text : List Char) : Prop :=
  IsIdentifier text ∨ IsDigits text ∨ ∃ c ∈ specials, text = [c]

/-- A part of a command that is read as a unit. -/
inductive Lexeme
  | plain (c : Char)
  | escape (c : Char)
  | finalSlash
  | name (text : List Char)
  | parameter (c : Char)
  | braces (text : List Char)
  | openBraces (text : List Char)
  | parenthesis

namespace Lexeme

def head : Lexeme → Char
  | plain c => c
  | escape _ => '\\'
  | finalSlash => '\\'
  | _ => '$'

def tail : Lexeme → List Char
  | plain _ => []
  | escape c => [c]
  | finalSlash => []
  | name text => text
  | parameter c => [c]
  | braces text => '\x7b' :: (text ++ ['\x7d'])
  | openBraces text => '\x7b' :: text
  | parenthesis => ['(']

/-- Only marks that are read as themselves open and close quotes. -/
def behind (q : Quote) : Lexeme → Quote
  | plain c => q.after c
  | _ => q

end Lexeme

/-- A dollar sign in front of this character is more than itself. -/
def StartsReference (c : Char) : Prop :=
  c = '(' ∨ c = '\x7b' ∨ isNameStart c ∨ isDigit c ∨ c ∈ specials

/-- Inside the quotes, the lexeme can be read when `rest` stands behind it. A name goes as far as it
can, and between single quotes there are only characters. -/
inductive Stands : Quote → Lexeme → List Char → Prop
  | single (c rest) : Stands .single (.plain c) rest
  | plain {q c} (rest) : q ≠ .single → c ≠ '\\' → c ≠ '$' → Stands q (.plain c) rest
  | dollar {q rest} : q ≠ .single → (∀ d ∈ rest.head?, ¬ StartsReference d) →
      Stands q (.plain '$') rest
  | escape {q} (c rest) : q ≠ .single → Stands q (.escape c) rest
  | finalSlash {q} : q ≠ .single → Stands q .finalSlash []
  | name {q text rest} : q ≠ .single → IsIdentifier text → (∀ d ∈ rest.head?, ¬ isNameChar d) →
      Stands q (.name text) rest
  | parameter {q c} (rest) : q ≠ .single → isDigit c ∨ c ∈ specials → Stands q (.parameter c) rest
  | braces {q text} (rest) : q ≠ .single → '\x7d' ∉ text → Stands q (.braces text) rest
  | openBraces {q text} : q ≠ .single → '\x7d' ∉ text → Stands q (.openBraces text) []
  | parenthesis {q} (rest) : q ≠ .single → Stands q .parenthesis rest

/-- The text read as lexemes, each with the quotes it stands in. The last argument tells which
quotes are open at the end. -/
inductive Reads : Quote → List Char → List (Quote × Lexeme) → Quote → Prop
  | done (q) : Reads q [] [] q
  | step {q x rest xs last} : Stands q x rest → Reads (x.behind q) rest xs last →
      Reads q (x.head :: (x.tail ++ rest)) ((q, x) :: xs) last

/-- What is not allowed, with the error it is refused with. -/
inductive Violates : Quote × Lexeme → Error → Prop
  | backtick {q} : q ≠ .single → Violates (q, .plain '\x60') .commandSubstitution
  | parenthesis (q) : Violates (q, .parenthesis) .commandSubstitution
  | openBraces (q text) : Violates (q, .openBraces text) (.badSubstitution (String.ofList text))
  | braces {text} (q) : ¬ IsReferent text →
      Violates (q, .braces text) (.badSubstitution (String.ofList text))
  | operator {c} : isOperator c → Violates (.outside, .plain c) (.badCharacter c)

def Allowed (x : Quote × Lexeme) : Prop := ∀ e, ¬ Violates x e

/-- The first lexeme that is not allowed is refused with `e`. -/
def FirstViolation (xs : List (Quote × Lexeme)) (e : Error) : Prop :=
  ∃ before x after, xs = before ++ x :: after ∧ (∀ y ∈ before, Allowed y) ∧ Violates x e

variable {q last : Quote} {s rest text : List Char} {c : Char} {e : Error} {x : Lexeme}
  {xs : List (Quote × Lexeme)}

theorem isNameChar_of_isNameStart (h : isNameStart c) : isNameChar c := by
  simp only [isNameStart, isNameChar, Char.isAlphanum, Bool.or_eq_true] at h ⊢
  rcases h with h | h
  · exact .inl h
  · exact .inr (.inl h)

theorem IsIdentifier.all (h : IsIdentifier text) : ∀ d ∈ text, isNameChar d := by
  obtain ⟨c, more, rfl, hc, hmore⟩ := h
  exact List.forall_mem_cons.mpr ⟨isNameChar_of_isNameStart hc, hmore⟩

theorem isSome_parameter?_iff : (parameter? c).isSome ↔ isDigit c ∨ c ∈ specials := by
  simp only [parameter?, specials, List.mem_cons, List.not_mem_nil, or_false]
  split
  · next h => exact iff_of_true rfl (by tauto)
  split
  · next h => exact iff_of_true rfl (by tauto)
  split
  · next h => exact iff_of_true rfl (by tauto)
  · next h => exact iff_of_false (by simp) (by tauto)

theorem isSome_braced?_iff : (braced? text).isSome ↔ IsReferent text := by
  cases text with
  | nil => simp [braced?, IsReferent, IsIdentifier, IsDigits]
  | cons c more =>
    have hname : IsIdentifier (c :: more) ↔ isNameStart c && more.all isNameChar := by
      simp [IsIdentifier]
    have hdigits : IsDigits (c :: more) ↔ (c :: more).all isDigit := by
      simp [IsDigits]
    simp only [braced?, IsReferent, hname, hdigits]
    split
    · next h => exact iff_of_true rfl (.inl h)
    split
    · next h => exact iff_of_true rfl (.inr (.inl h))
    · next hn hd =>
      cases more with
      | nil =>
        simp only [List.isEmpty_nil, if_true, isSome_parameter?_iff]
        simp_all
      | cons d more => simp_all

theorem takeWhile_append_of_stop {p : Char → Bool} (h : ∀ d ∈ text, p d)
    (hrest : ∀ d ∈ rest.head?, ¬ p d) : (text ++ rest).takeWhile p = text := by
  rw [List.takeWhile_append_of_pos h]
  cases rest with
  | nil => simp
  | cons d more => simp [hrest d rfl]

theorem dollar_name (h : IsIdentifier text) (hrest : ∀ d ∈ rest.head?, ¬ isNameChar d) :
    dollar (text ++ rest) =
      .ok (.reference (.variable (String.ofList text)), text.length) := by
  have htake := takeWhile_append_of_stop h.all hrest
  obtain ⟨c, more, rfl, hc, hmore⟩ := h
  rw [List.cons_append] at htake ⊢
  unfold dollar
  split
  · next heq => cases heq
  · next heq => cases heq; cases hc
  · next heq => cases heq; cases hc
  · next heq =>
    cases heq
    simp only [hc, if_true, htake]

theorem all_ne_brace (h : '\x7d' ∉ text) : ∀ d ∈ text, decide (d ≠ '\x7d') = true := by
  intro d hd
  have hne : d ≠ '\x7d' := fun hc => h (hc ▸ hd)
  simpa using hne

theorem takeWhile_brace (h : '\x7d' ∉ text) (rest : List Char) :
    (text ++ '\x7d' :: rest).takeWhile (· ≠ '\x7d') = text :=
  takeWhile_append_of_stop (all_ne_brace h) (by simp)

theorem dollar_braces (h : '\x7d' ∉ text) (rest : List Char) :
    dollar ('\x7b' :: (text ++ '\x7d' :: rest)) =
      match braced? text with
      | some r => .ok (.reference r, text.length + 2)
      | none => .error (.badSubstitution (String.ofList text)) := by
  have hlen : text.length ≠ (text ++ '\x7d' :: rest).length := by simp
  cases hb : braced? text <;> simp only [dollar, takeWhile_brace h, if_neg hlen, hb]

theorem dollar_openBraces (h : '\x7d' ∉ text) :
    dollar ('\x7b' :: text) = .error (.badSubstitution (String.ofList text)) := by
  have htake : (text ++ []).takeWhile (· ≠ '\x7d') = text :=
    takeWhile_append_of_stop (all_ne_brace h) (by simp)
  rw [List.append_nil] at htake
  simp only [dollar, htake, if_true]

theorem not_startsReference (h : ¬ StartsReference c) :
    c ≠ '(' ∧ c ≠ '\x7b' ∧ isNameStart c = false ∧ parameter? c = none := by
  simp only [StartsReference, not_or] at h
  obtain ⟨hp, hb, hn, hd, hs⟩ := h
  refine ⟨hp, hb, by simpa using hn, ?_⟩
  rw [← Option.not_isSome_iff_eq_none, isSome_parameter?_iff]
  exact not_or.mpr ⟨hd, hs⟩

theorem dollar_plain (h : ∀ d ∈ rest.head?, ¬ StartsReference d) :
    dollar rest = .ok (.char '$', 0) := by
  cases rest with
  | nil => rfl
  | cons d more =>
    obtain ⟨hp, hb, hn, hs⟩ := not_startsReference (h d rfl)
    unfold dollar
    split
    · next heq => cases heq
    · next heq => cases heq; exact absurd rfl hp
    · next heq => cases heq; exact absurd rfl hb
    · next heq =>
      cases heq
      simp [hn, hs]

theorem le_val_of_isAlpha (h : c.isAlpha) : 65 ≤ c.val := by
  rcases Bool.or_eq_true_iff.mp h with h | h
  · exact (of_decide_eq_true h : c.val ≥ 65 ∧ c.val ≤ 90).1
  · have hl : 97 ≤ c.val := of_decide_eq_true (Bool.and_eq_true_iff.mp h).1
    exact UInt32.le_trans (by decide) hl

theorem val_le_of_isDigit (h : isDigit c) : c.val ≤ 57 :=
  of_decide_eq_true (Bool.and_eq_true_iff.mp h).2

theorem not_isNameStart_of_special (h : isDigit c ∨ c ∈ specials) : isNameStart c = false := by
  rcases h with h | h
  · have hne : c ≠ '_' := by
      rintro rfl
      cases h
    have hle := val_le_of_isDigit h
    have halpha : ¬ c.isAlpha := fun ha =>
      absurd (UInt32.le_trans (le_val_of_isAlpha ha) hle) (by decide)
    simp [isNameStart, hne, halpha]
  · simp only [specials, List.mem_cons, List.not_mem_nil, or_false] at h
    rcases h with rfl | rfl | rfl | rfl | rfl | rfl | rfl <;> rfl

theorem dollar_parameter (h : isDigit c ∨ c ∈ specials) (rest : List Char) :
    ∃ r, dollar (c :: rest) = .ok (.reference r, 1) := by
  obtain ⟨r, hr⟩ := Option.isSome_iff_exists.mp (isSome_parameter?_iff.mpr h)
  refine ⟨r, ?_⟩
  unfold dollar
  split
  · next heq => cases heq
  · next heq => cases heq; cases hr
  · next heq => cases heq; cases hr
  · next heq =>
    cases heq
    simp [not_isNameStart_of_special h, hr]

theorem fault_scanFrom_of_error (h : readPiece q c rest = .error e) :
    (scanFrom 0 q (c :: rest)).fault = some e := by
  rw [scanFrom, h]

theorem readPiece_dollar (hq : q ≠ .single) (rest : List Char) :
    readPiece q '$' rest = (dollar rest).map fun (piece, n) => (piece, q, n) := by
  simp [readPiece, hq]

theorem readPiece_plain (hq : q ≠ .single) (hb : c ≠ '\\') (hd : c ≠ '$')
    (h : Allowed (q, .plain c)) (rest : List Char) :
    readPiece q c rest = .ok (.char c, q.after c, 0) := by
  have ha : c ≠ '\x60' := by
    rintro rfl
    exact h _ (.backtick hq)
  have ho : ¬ (q = .outside ∧ isOperator c) := by
    rintro ⟨rfl, hc⟩
    exact h _ (.operator hc)
  simp only [readPiece, if_neg hq, if_neg hb, if_neg ha, if_neg hd, if_neg ho]

/-- The scan reads an allowed lexeme as one piece, whatever is behind it. -/
theorem Stands.exists_piece (h : Stands q x rest) (hx : Allowed (q, x)) :
    ∃ piece, readPiece q x.head (x.tail ++ rest) = .ok (piece, x.behind q, x.tail.length) := by
  cases h with
  | single c => exact ⟨.char c, by simp [readPiece, Lexeme.head, Lexeme.tail, Lexeme.behind]⟩
  | @plain _ c _ hq hb hd => exact ⟨.char c, readPiece_plain hq hb hd hx rest⟩
  | dollar hq hrest =>
    have hafter : q.after '$' = q := by cases q <;> rfl
    refine ⟨.char '$', ?_⟩
    simp only [Lexeme.head, Lexeme.tail, Lexeme.behind, List.nil_append, readPiece_dollar hq,
      dollar_plain hrest, hafter]
    rfl
  | escape c _ hq =>
    exact ⟨.pair c, by simp [readPiece, Lexeme.head, Lexeme.tail, Lexeme.behind, hq]⟩
  | finalSlash hq =>
    exact ⟨.slash, by simp [readPiece, Lexeme.head, Lexeme.tail, Lexeme.behind, hq]⟩
  | @name _ text _ hq hname hrest =>
    refine ⟨.reference (.variable (String.ofList text)), ?_⟩
    simp only [Lexeme.head, Lexeme.tail, readPiece_dollar hq, dollar_name hname hrest]
    rfl
  | parameter _ hq hc =>
    obtain ⟨r, hr⟩ := dollar_parameter hc rest
    refine ⟨.reference r, ?_⟩
    simp only [Lexeme.head, Lexeme.tail, List.singleton_append, readPiece_dollar hq, hr]
    rfl
  | @braces _ text _ hq hclosed =>
    have href : IsReferent text := by
      by_contra hn
      exact hx _ (.braces q hn)
    obtain ⟨r, hr⟩ := Option.isSome_iff_exists.mp (isSome_braced?_iff.mpr href)
    have hdollar := dollar_braces hclosed rest
    rw [hr] at hdollar
    refine ⟨.reference r, ?_⟩
    simp only [Lexeme.head, Lexeme.tail, List.cons_append, List.append_assoc, List.nil_append,
      readPiece_dollar hq, hdollar]
    simp [Except.map, Lexeme.behind]
  | openBraces => exact absurd (.openBraces q _) (hx _)
  | parenthesis => exact absurd (.parenthesis q) (hx _)

theorem Stands.readPiece_error (h : Stands q x rest) (hv : Violates (q, x) e) :
    readPiece q x.head (x.tail ++ rest) = .error e := by
  cases hv with
  | backtick hq => simp [readPiece, Lexeme.head, hq]
  | parenthesis =>
    cases h with
    | parenthesis _ hq =>
      have hdollar : Shell.dollar ('(' :: rest) = .error .commandSubstitution := rfl
      simp [Lexeme.head, Lexeme.tail, readPiece_dollar hq, hdollar, Except.map]
  | openBraces =>
    cases h with
    | openBraces hq hopen =>
      simp [Lexeme.head, Lexeme.tail, readPiece_dollar hq, dollar_openBraces hopen, Except.map]
  | @braces text _ hn =>
    cases h with
    | braces _ hq hclosed =>
      have hb : braced? text = none := by
        rw [← Option.not_isSome_iff_eq_none, isSome_braced?_iff]
        exact hn
      have hdollar := dollar_braces hclosed rest
      rw [hb] at hdollar
      simp [Lexeme.head, Lexeme.tail, readPiece_dollar hq, hdollar, Except.map]
  | @operator c hc =>
    cases h with
    | dollar => cases hc
    | plain _ hq hb hd =>
      have ha : c ≠ '\x60' := by
        rintro rfl
        cases hc
      simp [readPiece, Lexeme.head, hb, hd, ha, hc]

theorem Reads.fault_of_allowed (h : Reads q s xs last) (hx : ∀ x ∈ xs, Allowed x) :
    (scanFrom 0 q s).fault = last.unclosed := by
  induction h with
  | done => rfl
  | step hs _ ih =>
    obtain ⟨hfirst, hrest⟩ := List.forall_mem_cons.mp hx
    obtain ⟨piece, hp⟩ := hs.exists_piece hfirst
    rw [scanFrom_of_readPiece hp]
    exact ih hrest

theorem Reads.fault_of_firstViolation (h : Reads q s xs last) (hx : FirstViolation xs e) :
    (scanFrom 0 q s).fault = some e := by
  induction h with
  | done =>
    obtain ⟨before, x, after, heq, _⟩ := hx
    simp at heq
  | @step q x rest xs last hs _ ih =>
    obtain ⟨before, y, after, heq, hbefore, hy⟩ := hx
    cases before with
    | nil =>
      obtain ⟨rfl, rfl⟩ := List.cons.inj heq
      exact fault_scanFrom_of_error (hs.readPiece_error hy)
    | cons z before =>
      obtain ⟨rfl, rfl⟩ := List.cons.inj heq
      obtain ⟨hfirst, hbefore⟩ := List.forall_mem_cons.mp hbefore
      obtain ⟨piece, hp⟩ := hs.exists_piece hfirst
      rw [scanFrom_of_readPiece hp]
      exact ih ⟨before, y, after, rfl, hbefore, hy⟩

theorem allowed_or_firstViolation (xs : List (Quote × Lexeme)) :
    (∀ x ∈ xs, Allowed x) ∨ ∃ e, FirstViolation xs e := by
  induction xs with
  | nil => exact .inl (by simp)
  | cons x rest ih =>
    by_cases hx : Allowed x
    · rcases ih with h | ⟨e, before, y, after, rfl, hbefore, hy⟩
      · exact .inl (List.forall_mem_cons.mpr ⟨hx, h⟩)
      · exact .inr ⟨e, x :: before, y, after, rfl, List.forall_mem_cons.mpr ⟨hx, hbefore⟩, hy⟩
    · obtain ⟨e, he⟩ := not_forall_not.mp hx
      exact .inr ⟨e, [], x, rest, rfl, by simp, he⟩

theorem exists_stands_dollar (hq : q ≠ .single) (s : List Char) :
    ∃ x rest, Stands q x rest ∧ '$' :: s = x.head :: (x.tail ++ rest) := by
  cases s with
  | nil => exact ⟨.plain '$', [], .dollar hq (by simp), rfl⟩
  | cons d more =>
    by_cases hstart : StartsReference d
    · rcases hstart with rfl | rfl | hn | hs
      · exact ⟨.parenthesis, more, .parenthesis more hq, rfl⟩
      · by_cases hclosed : '\x7d' ∈ more
        · obtain ⟨text, rest, rfl, htext⟩ := List.eq_append_cons_of_mem hclosed
          exact ⟨.braces text, rest, .braces rest hq htext, by simp [Lexeme.head, Lexeme.tail]⟩
        · exact ⟨.openBraces more, [], .openBraces hq hclosed, by simp [Lexeme.head, Lexeme.tail]⟩
      · refine ⟨.name (d :: more.takeWhile isNameChar), more.dropWhile isNameChar, ?_, ?_⟩
        · refine .name hq ⟨d, _, rfl, hn, List.all_eq_true.mp List.all_takeWhile⟩ fun c hc => ?_
          have hstop := List.head?_dropWhile_not isNameChar more
          rw [hc] at hstop
          simpa using hstop
        · simp [Lexeme.head, Lexeme.tail]
      · exact ⟨.parameter d, more, .parameter more hq hs, rfl⟩
    · refine ⟨.plain '$', d :: more, .dollar hq ?_, rfl⟩
      rintro c hc
      obtain rfl : d = c := by simpa using hc
      exact hstart

theorem exists_stands (q : Quote) (c : Char) (s : List Char) :
    ∃ x rest, Stands q x rest ∧ c :: s = x.head :: (x.tail ++ rest) := by
  by_cases hq : q = .single
  · subst hq
    exact ⟨.plain c, s, .single c s, rfl⟩
  by_cases hb : c = '\\'
  · subst hb
    cases s with
    | nil => exact ⟨.finalSlash, [], .finalSlash hq, rfl⟩
    | cons d more => exact ⟨.escape d, more, .escape d more hq, rfl⟩
  by_cases hd : c = '$'
  · subst hd
    exact exists_stands_dollar hq s
  · exact ⟨.plain c, s, .plain s hq hb hd, rfl⟩

theorem exists_reads (q : Quote) (s : List Char) : ∃ xs last, Reads q s xs last := by
  cases s with
  | nil => exact ⟨[], q, .done q⟩
  | cons c more =>
    obtain ⟨x, rest, hx, heq⟩ := exists_stands q c more
    obtain ⟨xs, last, h⟩ := exists_reads (x.behind q) rest
    rw [heq]
    exact ⟨(q, x) :: xs, last, .step hx h⟩
termination_by s.length
decreasing_by
  have hlen := congrArg List.length heq
  simp at hlen ⊢
  omega

theorem substitute_eq_error_iff {env : Environment} {command : String} :
    substitute env command = .error e ↔ (scan command).fault = some e := by
  simp only [substitute]
  cases (scan command).fault <;> simp

theorem substitute_isOk_iff {env : Environment} {command : String} :
    (∃ r, substitute env command = .ok r) ↔ (scan command).fault = none := by
  simp only [substitute]
  cases (scan command).fault <;> simp

/-- Every command can be read as lexemes. It is accepted exactly when all of them are allowed and no
quotes are left open. Else the error is that of the first lexeme that is not allowed, and an open
quote is the error only when there is no such lexeme. The values of variables play no part in it. -/
theorem substitute_accepts_grammar (command : String) :
    (∃ xs last, Reads .outside command.toList xs last) ∧
    (∀ xs last, Reads .outside command.toList xs last → ∀ env,
      ((∃ r, substitute env command = .ok r) ↔ (∀ x ∈ xs, Allowed x) ∧ last = .outside) ∧
      ∀ e, substitute env command = .error e ↔
        FirstViolation xs e ∨ (∀ x ∈ xs, Allowed x) ∧ last.unclosed = some e) ∧
    ∀ env env' e, substitute env command = .error e ↔ substitute env' command = .error e := by
  refine ⟨exists_reads _ _, fun xs last h env => ?_, fun env env' e => ?_⟩
  case refine_2 => rw [substitute_eq_error_iff, substitute_eq_error_iff]
  simp only [substitute_isOk_iff, substitute_eq_error_iff]
  rcases allowed_or_firstViolation xs with hall | ⟨d, hd⟩
  · have hno : ∀ e, ¬ FirstViolation xs e := by
      rintro e ⟨before, x, after, rfl, _, hx⟩
      exact hall x (by simp) e hx
    rw [scan, h.fault_of_allowed hall]
    refine ⟨?_, fun e => ?_⟩
    · rw [and_iff_right hall]
      cases last <;> simp [Quote.unclosed]
    · rw [or_iff_right (hno e), and_iff_right hall]
  · have hnot : ¬ ∀ x ∈ xs, Allowed x := by
      obtain ⟨before, x, after, rfl, _, hx⟩ := hd
      exact fun hall => hall x (by simp) d hx
    rw [scan, h.fault_of_firstViolation hd]
    refine ⟨iff_of_false (by simp) fun hall => hnot hall.1, fun e => ?_⟩
    constructor
    · intro he
      exact .inl (Option.some.inj he ▸ hd)
    · rintro (he | he)
      · -- The same scan finds both violations.
        rw [← h.fault_of_firstViolation hd]
        exact h.fault_of_firstViolation he
      · exact absurd he.1 hnot

/-- Two dollar signs are a reference, and do not begin a command substitution. -/
example (env : Environment) : substitute env "$$(x" = .error (.badCharacter '(') := by rfl

end CompileIndex.Shell
