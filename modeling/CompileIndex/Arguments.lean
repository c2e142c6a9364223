import CompileIndex.Metadata
import CompileIndex.Path.Clean

/-!
# Compiler arguments

The words of an invocation are read one after the other, each giving at most one action on the
metadata. Some options take the next word as their value, whatever it is.
-/
namespace CompileIndex.Arguments

inductive Action
  | includeFolder (text : String)
  | frameworkFolder (text : String)
  | define (text : String)
  | undefine (text : String)
  | language (text : String)
  | flag (text : String)
  deriving DecidableEq, Repr

inductive Awaited
  | includeFolder
  | frameworkFolder
  | define
  | undefine
  | language
  deriving DecidableEq, Repr

def Awaited.action : Awaited → String → Action
  | .includeFolder => .includeFolder
  | .frameworkFolder => .frameworkFolder
  | .define => .define
  | .undefine => .undefine
  | .language => .language

/-- What the next word is: an option or a source file, the value of an option, or an output
path that is of no interest. -/
inductive State
  | ready
  | value (awaited : Awaited)
  | ignored
  deriving DecidableEq, Repr

def discarded : List String := ["-c", "-MD", "-MMD", "-MP"]

def outputs : List String := ["-o", "-MF", "-MT", "-MQ"]

/-- Options whose value may follow in the same word. The first that fits counts. -/
def valued : List (String × Awaited) :=
  [("-isystem", .includeFolder), ("-idirafter", .includeFolder), ("-iquote", .includeFolder),
    ("-I", .includeFolder), ("-iframework", .frameworkFolder), ("-F", .frameworkFolder),
    ("-D", .define), ("-U", .undefine)]

def valued? (word : String) : Option (Awaited × String) :=
  valued.findSome? fun (spelling, awaited) =>
    (spelling.toList.isPrefixOf? word.toList).map fun rest => (awaited, String.ofList rest)

def readOption (word : String) : Option Action × State :=
  if word.toList.head? ≠ some '-' then (none, .ready)
  else if word ∈ discarded then (none, .ready)
  else if word ∈ outputs then (none, .ignored)
  else match valued? word with
    | some (awaited, rest) =>
      if rest = "" then (none, .value awaited) else (some (awaited.action rest), .ready)
    | none => if word = "-x" then (none, .value .language) else (some (.flag word), .ready)

def readWord : State → String → Option Action × State
  | .ready, word => readOption word
  | .value awaited, word => (some (awaited.action word), .ready)
  | .ignored, _ => (none, .ready)

def actionsFrom (state : State) : List String → List Action
  | [] => []
  | word :: rest =>
    let (action, next) := readWord state word
    action.toList ++ actionsFrom next rest

def stateAfter (state : State) (words : List String) : State :=
  words.foldl (fun s word => (readWord s word).2) state

def actions (arguments : List String) : List Action := actionsFrom .ready (arguments.drop 1)

/-- Relative folders start at the working folder and are cleaned; absolute ones stay as they
are written, and an empty one is none. -/
def folder? (workingFolder : Path) (text : String) : Option Path :=
  if text = "" then none
  else if (Path.mk text).isAbsolute then some ⟨text⟩
  else some (workingFolder.resolve ⟨text⟩)

def splitDefinition (text : String) : String × String :=
  let name := text.toList.takeWhile (· ≠ '=')
  (String.ofList name, String.ofList (text.toList.drop (name.length + 1)))

def apply (workingFolder : Path) (m : Metadata) : Action → Metadata
  | .includeFolder text =>
    { m with includes := m.includes ++ (folder? workingFolder text).toList }
  | .frameworkFolder text =>
    { m with
      frameworkDirectories := m.frameworkDirectories ++ (folder? workingFolder text).toList }
  | .define text =>
    let (name, value) := splitDefinition text
    if name = "" then m else { m with defines := m.defines.insert name value }
  | .undefine name => { m with defines := m.defines.erase name }
  | .language text => { m with language := text }
  | .flag text =>
    { m with
      compileFlags := if m.compileFlags = "" then text else m.compileFlags ++ " " ++ text }

def classify (workingFolder : Path) (arguments : List String) : Metadata :=
  (actions arguments).foldl (apply workingFolder) Metadata.empty

end CompileIndex.Arguments
