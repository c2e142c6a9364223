import CompileIndex.Decimal.Shortest

/-!
# JSON values

Numbers are integers of 64 bits, with or without a sign, or binary64 numbers held by their
bits. An object keeps its fields in document order; of a repeated name the last one counts.
-/
namespace CompileIndex.Json

inductive Number
  | integer (n : Int)
  | double (bits : UInt64)
  deriving DecidableEq, Repr

inductive Value
  | null
  | bool (b : Bool)
  | number (n : Number)
  | string (s : String)
  | array (items : List Value)
  | object (fields : List (String × Value))
  deriving Repr, Inhabited

namespace Number

def positional (digits : List Char) (magnitude : Int) : List Char :=
  if magnitude < 0 then
    ['0', '.'] ++ List.replicate (-magnitude - 1).toNat '0' ++ digits
  else
    let whole := magnitude.toNat + 1
    if digits.length ≤ whole then
      digits ++ List.replicate (whole - digits.length) '0' ++ ['.', '0']
    else digits.take whole ++ '.' :: digits.drop whole

def scientific (digits : List Char) (magnitude : Int) : List Char :=
  let fraction := match digits.drop 1 with
    | [] => []
    | more => '.' :: more
  digits.take 1 ++ fraction ++ 'e' :: (if magnitude < 0 then '-' else '+')
    :: Nat.toDigits 10 magnitude.natAbs

/-- Doubles have their shortest digits, positional while the leading one stands at an exponent
from -5 to 15. -/
def doubleText (bits : UInt64) : String :=
  let sign := if Nat.pow 2 63 ≤ bits.toNat then ['-'] else []
  let b := Binary.ofBits bits
  let body :=
    if b.mantissa = 0 then ['0', '.', '0']
    else
      let d := Decimal.shortest b
      let digits := Nat.toDigits 10 d.digits
      let magnitude := d.exponent + (digits.length - 1 : Nat)
      if -5 ≤ magnitude ∧ magnitude ≤ 15 then positional digits magnitude
      else scientific digits magnitude
  String.ofList (sign ++ body)

def text : Number → String
  | .integer n => toString n
  | .double bits => doubleText bits

end Number

namespace Value

/-- The field of an object; the last of its name counts. -/
def field? (name : String) : Value → Option Value
  | .object fields => (fields.reverse.find? (·.1 == name)).map (·.2)
  | _ => none

def nat (n : Nat) : Value := .number (.integer n)

end Value

end CompileIndex.Json
