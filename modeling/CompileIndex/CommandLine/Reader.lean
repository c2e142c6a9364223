import CompileIndex.CommandLine.Usage

/-!
# Reading words

The words of a command line are options, values of options, and operands. What an option or an
operand holds is judged late: only when the next option or another kind of word shows that it
is complete. So of two mistakes the one that shows first counts.
-/
namespace CompileIndex.CommandLine

inductive Word
  /-- Two dashes alone, behind which all words are operands. -/
  | separator
  | long (name : String) (value : Option String)
  | short (letter : Char)
  | plain
  deriving DecidableEq, Repr

def splitValue (s : List Char) : String × Option String :=
  let name := s.takeWhile (· ≠ '=')
  let value := match s.drop name.length with
    | [] => none
    | _ :: value => some (String.ofList value)
  (String.ofList name, value)

def Word.of (text : String) : Word :=
  match text.toList with
  | ['-', '-'] => .separator
  | '-' :: '-' :: rest =>
    let (name, value) := splitValue rest
    .long name value
  | '-' :: letter :: _ => .short letter
  | _ => .plain

/-- What a part of the command line may hold: options of the kind `o`, whose values change
settings of the kind `σ`, and operands. -/
structure Grammar (o σ : Type) where
  option? : String → Option o
  spelling : o → String
  set : σ → o → String → Except UsageError σ
  /-- Operands are taken when there is a way to add one. -/
  add? : Option (σ → String → Except UsageError σ)
  misplaced : Bool → String → UsageError
  hasVersion : Bool
  isCommand : String → Bool

/-- What was read last and is not judged yet. -/
inductive Pending (o : Type)
  | nothing
  | option (o : o) (value : Option String)
  | operands (values : List String)

structure Reading (o σ : Type) where
  settings : σ
  pending : Pending o
  separated : Bool

namespace Reading

variable {o σ : Type}

def start (settings : σ) : Reading o σ := ⟨settings, .nothing, false⟩

def resolve (g : Grammar o σ) (r : Reading o σ) : Except UsageError (Reading o σ) :=
  match r.pending with
  | .nothing => .ok r
  | .option o none => .error (.invalidValue (g.spelling o))
  | .option o (some value) =>
    (g.set r.settings o value).map fun settings => { r with settings, pending := .nothing }
  | .operands values =>
    match g.add? with
    | some add =>
      (values.foldlM add r.settings).map fun settings => { r with settings, pending := .nothing }
    | none => .ok r

def named (g : Grammar o σ) (r : Reading o σ) (word name : String) (value : Option String) :
    Except UsageError (Reading o σ) :=
  match g.option? name, value with
  | some o, some value => do
    let r ← r.resolve g
    return { r with settings := ← g.set r.settings o value }
  | some o, none => do return { ← r.resolve g with pending := .option o none }
  | none, value =>
    if name = "help" ∨ (name = "version" ∧ g.hasVersion) then
      if value.isSome then .error (.valueNotTaken ("--" ++ name))
      else do
        let _ ← r.resolve g
        .error (if name = "help" then .help else .version)
    else .error (.unexpected word)

/-- An option of one letter; all of them are answers. -/
def lettered (g : Grammar o σ) (r : Reading o σ) (word : String) (letter : Char) :
    Except UsageError (Reading o σ) :=
  if letter = 'h' ∨ (letter = 'V' ∧ g.hasVersion) then do
    let _ ← r.resolve g
    .error (if letter = 'h' then .help else .version)
  else .error (.unexpected word)

def operand (g : Grammar o σ) (r : Reading o σ) (word : String) :
    Except UsageError (Reading o σ) :=
  match g.add?, r.pending with
  | some _, .operands values => .ok { r with pending := .operands (values ++ [word]) }
  | some _, _ => do return { ← r.resolve g with pending := .operands [word] }
  | none, _ => .error (g.misplaced r.separated word)

def awaited? (r : Reading o σ) : Option o :=
  match r.pending with
  | .option o none => some o
  | _ => none

def word (g : Grammar o σ) (r : Reading o σ) (text : String) :
    Except UsageError (Reading o σ) :=
  if r.separated then r.operand g text
  else match Word.of text with
    | .separator => .ok { r with separated := true }
    | .long name value => r.named g text name value
    | .short letter => r.lettered g text letter
    | .plain =>
      match r.awaited? with
      | some o => .ok { r with pending := .option o (some text) }
      | none => r.operand g text

/-- The words up to one that starts another part, which comes with the words behind it. -/
def words (g : Grammar o σ) (r : Reading o σ) :
    List String → Except UsageError (Reading o σ × Option (String × List String))
  | [] => .ok (r, none)
  | text :: rest =>
    if !r.separated && r.awaited?.isNone && g.isCommand text then .ok (r, some (text, rest))
    else do words g (← r.word g text) rest

def all (g : Grammar o σ) (settings : σ) (texts : List String) : Except UsageError σ := do
  let (r, _) ← (start settings).words g texts
  return (← r.resolve g).settings

end Reading

end CompileIndex.CommandLine
