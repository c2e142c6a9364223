/-!
# Splitting into words

Blanks separate words, quotes and backslashes are taken away, and `#` where a word would start
begins a comment that reaches to the end of the line.
-/
namespace CompileIndex.Shell

/-- Where splitting stands; the word so far comes last character first. -/
inductive Place
  | between
  | comment
  | bare (word : List Char)
  | escaped (word : List Char)
  | single (word : List Char)
  | double (word : List Char)
  | doubleEscaped (word : List Char)
  deriving DecidableEq, Repr

def isSeparator (c : Char) : Bool := c == ' ' || c == '\t' || c == '\n'

def Place.enter (word : List Char) (c : Char) : Place :=
  if c = '"' then .double word
  else if c = '\'' then .single word
  else if c = '\\' then .escaped word
  else .bare (c :: word)

/-- A backslash inside double quotes is taken away before a mark that it protects, and together
with a line end; before anything else it stays. -/
def unescapeDouble (word : List Char) (c : Char) : List Char :=
  if c = '$' ∨ c = '\x60' ∨ c = '"' ∨ c = '\\' then c :: word
  else if c = '\n' then word
  else c :: '\\' :: word

/-- The words from a place on; nothing when a quote or a backslash is left open. -/
def splitFrom : Place → List Char → Option (List (List Char))
  | .between, [] => some []
  | .comment, [] => some []
  | .bare word, [] => some [word.reverse]
  | .escaped _, [] => none
  | .single _, [] => none
  | .double _, [] => none
  | .doubleEscaped _, [] => none
  | .between, c :: rest =>
    if isSeparator c then splitFrom .between rest
    else if c = '#' then splitFrom .comment rest
    else splitFrom (.enter [] c) rest
  | .comment, c :: rest =>
    if c = '\n' then splitFrom .between rest else splitFrom .comment rest
  | .bare word, c :: rest =>
    if isSeparator c then (splitFrom .between rest).map (word.reverse :: ·)
    else splitFrom (.enter word c) rest
  | .escaped word, c :: rest => splitFrom (.bare (if c = '\n' then word else c :: word)) rest
  | .single word, c :: rest =>
    if c = '\'' then splitFrom (.bare word) rest else splitFrom (.single (c :: word)) rest
  | .double word, c :: rest =>
    if c = '"' then splitFrom (.bare word) rest
    else if c = '\\' then splitFrom (.doubleEscaped word) rest
    else splitFrom (.double (c :: word)) rest
  | .doubleEscaped word, c :: rest => splitFrom (.double (unescapeDouble word c)) rest

def split? (s : List Char) : Option (List (List Char)) := splitFrom .between s

end CompileIndex.Shell
