import CompileIndex.CommandLine.Reader
import CompileIndex.Session.Query

/-!
# Invocations

What the program is asked to do: options that hold for all commands, and then a command with
options of its own.
-/
namespace CompileIndex

open CommandLine

inductive Request
  | query (field : Option MetadataField) (paths : List Path)
  | check
  | serve
  deriving DecidableEq, Repr

structure Options where
  root : Option Path
  commandsFile : Option Path
  /-- In the order given; of a name that comes twice the last value counts. -/
  assignments : List (String × String)
  logLevel : Option String
  logFile : Option Path
  deriving DecidableEq, Repr

structure Invocation where
  options : Options
  request : Request
  deriving DecidableEq, Repr

namespace Options

inductive Name
  | root
  | commandsFile
  | variable
  | logLevel
  | logFile
  deriving DecidableEq, Repr

def Name.text : Name → String
  | .root => "root"
  | .commandsFile => "compile-commands"
  | .variable => "var"
  | .logLevel => "log-level"
  | .logFile => "log-file"

def Name.all : List Name := [.root, .commandsFile, .variable, .logLevel, .logFile]

def Name.ofText? (text : String) : Option Name := Name.all.find? (·.text == text)

def empty : Options := ⟨none, none, [], none, none⟩

def readVariable (text : String) : Except UsageError (String × String) :=
  match splitValue text.toList with
  | (name, some value) => if name = "" then .error (.invalidVariable text) else .ok (name, value)
  | (_, none) => .error (.invalidVariable text)

def once {α : Type} (option : String) (old : Option α) (new : Except UsageError α) :
    Except UsageError (Option α) :=
  if old.isSome then .error (.repeated option) else new.map some

def readPath (option text : String) : Except UsageError Path :=
  if text = "" then .error (.invalidValue option) else .ok ⟨text⟩

def set (s : Options) (name : Name) (value : String) : Except UsageError Options := do
  let option := "--" ++ name.text
  match name with
  | .root => return { s with root := ← once option s.root (readPath option value) }
  | .commandsFile =>
    return { s with commandsFile := ← once option s.commandsFile (readPath option value) }
  | .variable => return { s with assignments := s.assignments ++ [← readVariable value] }
  | .logLevel => return { s with logLevel := ← once option s.logLevel (.ok value) }
  | .logFile => return { s with logFile := ← once option s.logFile (readPath option value) }

def isCommand (word : String) : Bool := ["query", "check", "serve", "help"].contains word

/-- A word where a command is due. Behind a separator even a command has no place. -/
def misplaced (separated : Bool) (word : String) : UsageError :=
  if separated && isCommand word then .unexpected word else .unknownCommand word

def grammar : Grammar Name Options where
  option? := Name.ofText?
  spelling name := "--" ++ name.text
  set := set
  add? := none
  misplaced := misplaced
  hasVersion := true
  isCommand := isCommand

end Options

namespace Invocation

abbrev Query := Option MetadataField × List Path

def readField (text : String) : Except UsageError MetadataField :=
  match MetadataField.ofName? text with
  | some field => .ok field
  | none => .error (.invalidValue "--field")

def queryGrammar : Grammar Unit Query where
  option? name := if name = "field" then some () else none
  spelling _ := "--field"
  set q _ value := (Options.once "--field" q.1 (readField value)).map fun field => (field, q.2)
  add? := some fun q text => (Options.readPath "PATH" text).map fun path => (q.1, q.2 ++ [path])
  misplaced _ := .unexpected
  hasVersion := false
  isCommand _ := false

def bareGrammar : Grammar Empty Unit where
  option? _ := none
  spelling _ := ""
  set _ _ _ := .ok ()
  add? := none
  misplaced _ := .unexpected
  hasVersion := false
  isCommand _ := false

def readQuery (words : List String) : Except UsageError Request := do
  let (field, paths) ← Reading.all queryGrammar (none, []) words
  if paths.isEmpty then .error .missingPath else return .query field paths

def helpOn : List String → UsageError
  | [] => .help
  | [word] => if Options.isCommand word then .help else .unknownCommand word
  | word :: next :: _ => .unknownCommand (if Options.isCommand word then next else word)

def readCommand (command : String) (words : List String) : Except UsageError Request :=
  if command = "query" then readQuery words
  else if command = "check" then (Reading.all bareGrammar () words).map fun _ => .check
  else if command = "serve" then (Reading.all bareGrammar () words).map fun _ => .serve
  else .error (helpOn words)

/-- Mistakes behind the command show before those in the last option in front of it. -/
def read (arguments : List String) : Except UsageError Invocation := do
  let (r, command) ← (Reading.start Options.empty).words Options.grammar arguments
  match command with
  | some (command, rest) =>
    let request ← readCommand command rest
    return ⟨(← r.resolve Options.grammar).settings, request⟩
  | none =>
    let options := (← r.resolve Options.grammar).settings
    .error (if options = .empty then .nothingGiven else .missingCommand)

end Invocation

end CompileIndex
