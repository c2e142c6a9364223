import CompileIndex.Text.Printable

/-!
# Quoted text

How a character or a text is shown in a message: between marks, with a backslash before the
mark and before itself, names for the common controls, and the code point of all that does not
show.
-/
namespace CompileIndex.Text

def quotedChar (mark c : Char) : List Char :=
  if c = '\x00' then ['\\', '0']
  else if c = '\t' then ['\\', 't']
  else if c = '\r' then ['\\', 'r']
  else if c = '\n' then ['\\', 'n']
  else if c = mark ∨ c = '\\' then ['\\', c]
  else if isPrintable c then [c]
  else ['\\', 'u', '\x7b'] ++ Nat.toDigits 16 c.toNat ++ ['\x7d']

def quoteWith (mark : Char) (s : List Char) : String :=
  String.ofList (mark :: s.flatMap (quotedChar mark) ++ [mark])

def quote (s : String) : String := quoteWith '"' s.toList

def quoteChar (c : Char) : String := quoteWith '\'' [c]

end CompileIndex.Text
