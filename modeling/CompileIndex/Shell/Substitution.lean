import CompileIndex.Shell.Scan

/-!
# Substituting variables

The values of references take their place in the command, written so that splitting it into
words takes their quotes and backslashes literally. Blanks in an unquoted value stay as they
are and separate words.
-/
namespace CompileIndex.Shell

abbrev Variables := String → Option String

def Variables.overlay (given : List (String × String)) (source : Variables) : Variables :=
  fun name => (given.lookup name).or (source name)

/-- What a command may refer to: variables, and the number of the running process. -/
structure Environment where
  values : Variables
  processId : String

def Reference.value (env : Environment) : Reference → String
  | .variable name => (env.values name).getD ""
  | .fixed value => value
  | .processId => env.processId

def isMark (q : Quote) (c : Char) : Bool :=
  c == '"' || c == '\\' || (q != .double && c == '\'')

def guard (q : Quote) (value : List Char) : List Char :=
  value.flatMap fun c => if isMark q c then ['\\', c] else [c]

def Item.text (env : Environment) (item : Item) : List Char :=
  match item.piece with
  | .char c => [c]
  | .pair c => ['\\', c]
  | .slash => ['\\']
  | .reference r => guard item.quote (r.value env).toList

def isGlobChar (c : Char) : Bool := c == '*' || c == '?' || c == '['

/-- A quoted or escaped pattern character: one of them makes all words literal. -/
def Item.hidesGlob (item : Item) : Bool :=
  match item.piece with
  | .char c => item.quote != .outside && isGlobChar c
  | .pair c => isGlobChar c
  | _ => false

structure Substituted where
  text : List Char
  globbing : Bool
  deriving DecidableEq, Repr

def Scan.substituted (env : Environment) (s : Scan) : Substituted where
  text := s.items.flatMap (·.text env)
  globbing := !s.items.any (·.hidesGlob)

def substitute (env : Environment) (command : String) : Except Error Substituted :=
  let s := scan command
  match s.fault with
  | some e => .error e
  | none => .ok (s.substituted env)

end CompileIndex.Shell
