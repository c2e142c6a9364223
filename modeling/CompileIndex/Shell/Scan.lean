import CompileIndex.Shell.Error

/-!
# The pieces of a command

A command is read from left to right as characters, backslash pairs and references to
variables. Reading needs no values, so whether a command is refused does not depend on them.
-/
namespace CompileIndex.Shell

inductive Quote
  | outside
  | single
  | double
  deriving DecidableEq, Repr

/-- What a reference stands for: a variable, a parameter whose value is known, or the number of
the running process. -/
inductive Reference
  | variable (name : String)
  | fixed (value : String)
  | processId
  deriving DecidableEq, Repr

/-- `pair c` is a backslash followed by `c`, and `slash` a backslash that ends the command. -/
inductive Piece
  | char (c : Char)
  | pair (c : Char)
  | slash
  | reference (r : Reference)
  deriving DecidableEq, Repr

structure Item where
  quote : Quote
  piece : Piece
  deriving DecidableEq, Repr

def isNameStart (c : Char) : Bool := c == '_' || c.isAlpha
def isNameChar (c : Char) : Bool := c == '_' || c.isAlphanum
def isDigit (c : Char) : Bool := c.isDigit

def isOperator (c : Char) : Bool :=
  ['|', '&', ';', '<', '>', '(', ')', '\x7b', '\x7d', '\n'].contains c

/-- The special parameters. No positional ones are set, and no command has run. -/
def parameter? (c : Char) : Option Reference :=
  if isDigit c ∨ c = '@' ∨ c = '*' ∨ c = '!' ∨ c = '-' then some (.fixed "")
  else if c = '#' ∨ c = '?' then some (.fixed "0")
  else if c = '$' then some .processId
  else none

def braced? (name : List Char) : Option Reference :=
  match name with
  | [] => none
  | c :: rest =>
    if isNameStart c && rest.all isNameChar then some (.variable (String.ofList name))
    else if name.all isDigit then some (.fixed "")
    else if rest.isEmpty then parameter? c
    else none

def dollar (rest : List Char) : Except Error (Piece × Nat) :=
  match rest with
  | [] => .ok (.char '$', 0)
  | '(' :: _ => .error .commandSubstitution
  | '\x7b' :: body =>
    let name := body.takeWhile (· ≠ '\x7d')
    let bad := Error.badSubstitution (String.ofList name)
    if name.length = body.length then .error bad
    else match braced? name with
      | some r => .ok (.reference r, name.length + 2)
      | none => .error bad
  | c :: _ =>
    if isNameStart c then
      let name := rest.takeWhile isNameChar
      .ok (.reference (.variable (String.ofList name)), name.length)
    else match parameter? c with
      | some r => .ok (.reference r, 1)
      | none => .ok (.char '$', 0)

def Quote.after (q : Quote) (c : Char) : Quote :=
  match q with
  | .outside => if c = '\'' then .single else if c = '"' then .double else .outside
  | .single => if c = '\'' then .outside else .single
  | .double => if c = '"' then .outside else .double

/-- The piece that starts with `c`, the quotes behind it, and how many of the characters after
`c` belong to it. -/
def readPiece (q : Quote) (c : Char) (rest : List Char) : Except Error (Piece × Quote × Nat) :=
  if q = .single then .ok (.char c, q.after c, 0)
  else if c = '\\' then
    match rest with
    | [] => .ok (.slash, q, 0)
    | d :: _ => .ok (.pair d, q, 1)
  else if c = '\x60' then .error .commandSubstitution
  else if c = '$' then (dollar rest).map fun (piece, n) => (piece, q, n)
  else if q = .outside ∧ isOperator c then .error (.badCharacter c)
  else .ok (.char c, q.after c, 0)

/-- The pieces in front of the first fault, or all of them. -/
structure Scan where
  items : List Item
  fault : Option Error
  deriving DecidableEq, Repr

def Quote.unclosed : Quote → Option Error
  | .outside => none
  | .single => some (.unbalancedQuote '\'')
  | .double => some (.unbalancedQuote '"')

/-- Reads on inside the quotes `q`; the first `taken` characters belong to a piece that is
already there. -/
def scanFrom (taken : Nat) (q : Quote) : List Char → Scan
  | [] => ⟨[], q.unclosed⟩
  | c :: rest =>
    match taken with
    | n + 1 => scanFrom n q rest
    | 0 =>
      match readPiece q c rest with
      | .error e => ⟨[], some e⟩
      | .ok (piece, q', n) =>
        let more := scanFrom n q' rest
        { more with items := ⟨q, piece⟩ :: more.items }

def scan (command : String) : Scan := scanFrom 0 .outside command.toList

theorem scanFrom_drop (taken : Nat) (q : Quote) (s : List Char) :
    scanFrom taken q s = scanFrom 0 q (s.drop taken) := by
  induction s generalizing taken with
  | nil => simp [scanFrom]
  | cons c rest ih =>
    cases taken with
    | zero => rfl
    | succ n => rw [scanFrom, ih]; rfl

def Scan.names (s : Scan) : List String :=
  s.items.filterMap fun item =>
    match item.piece with
    | .reference (.variable name) => some name
    | _ => none

end CompileIndex.Shell
