import CompileIndex.Text.Quoted

/-!
# Commands that cannot be expanded
-/
namespace CompileIndex.Shell

inductive Error
  | unbalancedQuote (mark : Char)
  | commandSubstitution
  | badCharacter (c : Char)
  | badSubstitution (name : String)
  | split
  deriving DecidableEq, Repr

def Error.message : Error → String
  | .unbalancedQuote mark => s!"Unbalanced {mark} quote in command"
  | .commandSubstitution => "Command substitution is not allowed"
  | .badCharacter c =>
    "Unquoted shell special character " ++ Text.quoteChar c ++ " in command"
  | .badSubstitution name => "Bad variable substitution: $\x7b" ++ name ++ "\x7d"
  | .split => "Command could not be split into words"

end CompileIndex.Shell
