/-!
# Blank characters

The characters with the Unicode property White_Space, and cutting a line at them.
-/
namespace CompileIndex.Text

/-- The 25 characters with the property White_Space. -/
def blankCodes : List Nat :=
  [0x09, 0x0A, 0x0B, 0x0C, 0x0D, 0x20, 0x85, 0xA0, 0x1680, 0x2000, 0x2001, 0x2002, 0x2003,
    0x2004, 0x2005, 0x2006, 0x2007, 0x2008, 0x2009, 0x200A, 0x2028, 0x2029, 0x202F, 0x205F,
    0x3000]

def isBlank (c : Char) : Bool := blankCodes.contains c.toNat

def trimChars (s : List Char) : List Char :=
  ((s.dropWhile isBlank).reverse.dropWhile isBlank).reverse

def trim (s : String) : String := String.ofList (trimChars s.toList)

def firstWord (line : String) : String × String :=
  let s := trimChars line.toList
  let word := s.takeWhile (!isBlank ·)
  (String.ofList word, String.ofList (trimChars (s.drop word.length)))

end CompileIndex.Text
