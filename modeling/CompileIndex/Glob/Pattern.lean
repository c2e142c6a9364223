/-!
# Glob patterns

`?` stands for one character and `*` for any run of them, both within a component; `[...]` for
one character of a set, `[!...]` for one outside it; a component `**` for any number of folders.
-/
namespace CompileIndex.Glob

inductive Token
  | literal (c : Char)
  | anyChar
  | run
  | folders
  | set (negated : Bool) (ranges : List (Char × Char))
  deriving DecidableEq, Repr

abbrev Pattern := List Token

def rangesOf : List Char → List (Char × Char)
  | a :: '-' :: b :: rest => (a, b) :: rangesOf rest
  | a :: rest => (a, a) :: rangesOf rest
  | [] => []

/-- The set behind an opening bracket, and how many characters it takes. The first member may
be a closing bracket. -/
def setToken? (s : List Char) : Option (Token × Nat) :=
  let (negated, body) := match s with
    | '!' :: body => (true, body)
    | _ => (false, s)
  match body with
  | [] => none
  | first :: more =>
    let others := more.takeWhile (· ≠ ']')
    if others.length < more.length then
      some (.set negated (rangesOf (first :: others)),
        (if negated then 1 else 0) + 1 + others.length + 1)
    else none

/-- The token that a star opens, and how many characters after it belong to it: two stars must
be a whole component and take the slash behind them, more are refused. -/
def starToken? (before : Option Char) (s : List Char) : Option (Token × Nat) :=
  match s with
  | '*' :: '*' :: _ => none
  | '*' :: rest =>
    if before = none ∨ before = some '/' then
      match rest with
      | [] => some (.folders, 1)
      | '/' :: _ => some (.folders, 2)
      | _ => none
    else none
  | _ => some (.run, 0)

def token? (before : Option Char) (c : Char) (rest : List Char) : Option (Token × Nat) :=
  if c = '?' then some (.anyChar, 0)
  else if c = '*' then starToken? before rest
  else if c = '[' then setToken? rest
  else some (.literal c, 0)

/-- Reads a pattern behind the character `before`; the first `taken` characters belong to a
token that is already there. -/
def parseFrom (taken : Nat) (before : Option Char) : List Char → Option Pattern
  | [] => some []
  | c :: rest =>
    match taken with
    | n + 1 => parseFrom n (some c) rest
    | 0 => do
      let (token, n) ← token? before c rest
      return token :: (← parseFrom n (some c) rest)

def parse? (s : String) : Option Pattern := parseFrom 0 none s.toList

def afterRun (ok : List Char → Bool) : List Char → Bool
  | [] => ok []
  | c :: rest => ok (c :: rest) || (c != '/' && afterRun ok rest)

def afterSlash (ok : List Char → Bool) : List Char → Bool
  | [] => false
  | c :: rest => (c == '/' && ok rest) || afterSlash ok rest

def inRanges (ranges : List (Char × Char)) (c : Char) : Bool :=
  ranges.any fun r => decide (r.1 ≤ c ∧ c ≤ r.2)

def Token.accepts (c : Char) : Token → Bool
  | .literal d => c == d
  | .anyChar => c != '/'
  | .set negated ranges => c != '/' && (inRanges ranges c != negated)
  | _ => false

/-- The pattern stands for the whole text. A last `**` stands for everything. -/
def matchesChars : Pattern → List Char → Bool
  | [], s => s.isEmpty
  | .run :: rest, s => afterRun (matchesChars rest) s
  | .folders :: rest, s =>
    rest.isEmpty || matchesChars rest s || afterSlash (matchesChars rest) s
  | token :: rest, s =>
    match s with
    | [] => false
    | c :: s => token.accepts c && matchesChars rest s

def matchesText (p : Pattern) (s : String) : Bool := matchesChars p s.toList

def escape (s : String) : String :=
  String.ofList (s.toList.flatMap fun c =>
    if c = '?' ∨ c = '*' ∨ c = '[' ∨ c = ']' then ['[', c, ']'] else [c])

end CompileIndex.Glob
