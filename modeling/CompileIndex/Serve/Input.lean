import CompileIndex.Text.Utf8

/-!
# Lines of input

Octets are cut into lines behind each line feed. What stands behind the last one is a line too
once the input ends, unless it is empty.
-/
namespace CompileIndex.Input

/-- The lines that the octets complete, each with its end, and the octets that are left. `line`
holds what is read of the first one, last octet first. -/
def linesFrom (line : List UInt8) : List UInt8 → List (List UInt8) × List UInt8
  | [] => ([], line.reverse)
  | b :: rest =>
    if b = 0x0A then
      let (lines, left) := linesFrom [] rest
      ((b :: line).reverse :: lines, left)
    else linesFrom (b :: line) rest

def lines (octets : List UInt8) : List (List UInt8) × List UInt8 := linesFrom [] octets

def allLines (octets : List UInt8) : List (List UInt8) :=
  let (lines, left) := lines octets
  if left = [] then lines else lines ++ [left]

def chomp (s : List Char) : List Char :=
  match s.reverse with
  | '\n' :: '\r' :: rest => rest.reverse
  | '\n' :: rest => rest.reverse
  | _ => s

/-- The text of a line. Positions in a refusal are counted from its start. -/
def text (line : List UInt8) : Except Text.Utf8.Refusal String :=
  (Text.Utf8.decode line).map fun s => String.ofList (chomp s.toList)

end CompileIndex.Input
