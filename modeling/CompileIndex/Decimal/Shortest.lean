/-!
# Shortest decimals

The decimal with the fewest digits among those that read back as a given binary64 value, and of
these the nearest to it. Everything is exact arithmetic on natural numbers.
-/
namespace CompileIndex

structure Decimal where
  digits : Nat
  exponent : Int
  deriving DecidableEq, Repr

/-- The positive number `mantissa · 2 ^ exponent` with the reals that round to it: they reach
half a step up and half a step down, or a quarter down where a power of two makes the steps
below it smaller. -/
structure Binary where
  mantissa : Nat
  exponent : Int
  narrowBelow : Bool
  deriving DecidableEq, Repr

namespace Binary

def ofBits (bits : UInt64) : Binary :=
  let fraction : Nat := bits.toNat % Nat.pow 2 52
  let field : Nat := bits.toNat / Nat.pow 2 52 % Nat.pow 2 11
  if field = 0 then ⟨fraction, -1074, false⟩
  else ⟨fraction + Nat.pow 2 52, (field : Int) - 1075, fraction == 0 && 1 < field⟩

/-- The denominator of all quarter steps, and the factor of their numerators. -/
def scale (b : Binary) : Nat × Nat :=
  let q := b.exponent - 2
  if 0 ≤ q then (1, Nat.pow 2 q.toNat) else (Nat.pow 2 (-q).toNat, 1)

def value (b : Binary) : Nat := 4 * b.mantissa
def low (b : Binary) : Nat := 4 * b.mantissa - (if b.narrowBelow then 1 else 2)
def high (b : Binary) : Nat := 4 * b.mantissa + 2

def magnitude (b : Binary) : Int :=
  let (den, factor) := b.scale
  let num := b.value * factor
  let guess : Int := ((Nat.toDigits 10 num).length : Int) - (Nat.toDigits 10 den).length
  let reaches :=
    if 0 ≤ guess then den * Nat.pow 10 guess.toNat ≤ num
    else den ≤ num * Nat.pow 10 (-guess).toNat
  if reaches then guess else guess - 1

/-- The point of the grid of multiples of `10 ^ k` that is nearest to the value, if a point
next to the value reads back as it. The ends of the interval read back when the mantissa is
even; of two points equally near the even one is taken. -/
def onGrid? (b : Binary) (k : Int) : Option Nat :=
  let (den, factor) := b.scale
  let up := factor * (if k < 0 then Nat.pow 10 (-k).toNat else 1)
  let unit := den * (if 0 ≤ k then Nat.pow 10 k.toNat else 1)
  let v := b.value * up
  let readsBack (c : Nat) : Bool :=
    if b.mantissa % 2 = 0 then b.low * up ≤ c * unit && c * unit ≤ b.high * up
    else b.low * up < c * unit && c * unit < b.high * up
  let below := v / unit
  let above := below + 1
  match readsBack below, readsBack above with
  | false, false => none
  | true, false => some below
  | false, true => some above
  | true, true =>
    let down := v - below * unit
    let rise := above * unit - v
    some (if down < rise ∨ (down = rise ∧ below % 2 = 0) then below else above)

end Binary

namespace Decimal

def normalize (d : Decimal) : Decimal :=
  let rec strip : Nat → Nat → Int → Decimal
    | 0, digits, exponent => ⟨digits, exponent⟩
    | n + 1, digits, exponent =>
      if digits ≠ 0 ∧ digits % 10 = 0 then strip n (digits / 10) (exponent + 1)
      else ⟨digits, exponent⟩
  strip (Nat.toDigits 10 d.digits).length d.digits d.exponent

/-- The shortest decimal of a positive value. Seventeen digits always read back. -/
def shortest (b : Binary) : Decimal :=
  let grids := (List.range 17).map fun (n : Nat) => b.magnitude - n
  match grids.findSome? fun k => (b.onGrid? k).map (Decimal.mk · k) with
  | some d => d.normalize
  | none => ⟨b.mantissa, 0⟩

end Decimal

end CompileIndex
