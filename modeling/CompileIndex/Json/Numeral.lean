import CompileIndex.Json.Error
import CompileIndex.Json.Value

/-!
# Numerals

Reading a number octet by octet. The significand keeps the digits that fit into 64 bits; later
whole digits only raise the exponent, later fraction digits are dropped. A double is the
significand, rounded, times or divided by a rounded power of ten.
-/
namespace CompileIndex.Json

inductive Phase
  | sign
  | zero
  | whole
  | wholeDropped
  | point
  | fraction
  | fractionDropped
  | mark
  | markSign (positive : Bool)
  | power (positive : Bool) (value : Nat)
  | powerDropped
  deriving DecidableEq, Repr

structure Numeral where
  negative : Bool
  significand : Nat
  exponent : Int
  phase : Phase
  deriving DecidableEq, Repr

namespace Numeral

/-- What one more octet does to a numeral: it belongs to it, it rules it out, or the numeral
stands complete before it. -/
inductive Progress
  | more (n : Numeral)
  | refused (fault : Fault)
  | complete

def digit? (b : UInt8) : Option Nat :=
  if 0x30 ≤ b ∧ b ≤ 0x39 then some (b.toNat - 0x30) else none

def isPoint (b : UInt8) : Bool := b == 0x2E
def isMark (b : UInt8) : Bool := b == 0x65 || b == 0x45

def fits (n : Nat) : Bool := n < Nat.pow 2 64

def wholeDigit (n : Numeral) (d : Nat) : Numeral :=
  if fits (n.significand * 10 + d) then
    { n with significand := n.significand * 10 + d, phase := .whole }
  else { n with exponent := n.exponent + 1, phase := .wholeDropped }

def fractionDigit (n : Numeral) (d : Nat) : Numeral :=
  if fits (n.significand * 10 + d) then
    { n with
      significand := n.significand * 10 + d, exponent := n.exponent - 1, phase := .fraction }
  else { n with phase := .fractionDropped }

def afterDigits (n : Numeral) (b : UInt8) (pointAllowed : Bool) : Progress :=
  if pointAllowed && isPoint b then .more { n with phase := .point }
  else if isMark b then .more { n with phase := .mark }
  else .complete

/-- A digit of the power of ten. Beyond 31 bits the numeral is out of range or zero. -/
def powerDigit (n : Numeral) (positive : Bool) (value d : Nat) : Progress :=
  if value * 10 + d < Nat.pow 2 31 then .more { n with phase := .power positive (value * 10 + d) }
  else if positive && n.significand != 0 then .refused .numberOutOfRange
  else .more { n with phase := .powerDropped }

def step (n : Numeral) (b : UInt8) : Progress :=
  match n.phase, digit? b with
  | .sign, some 0 => .more { n with phase := .zero }
  | .sign, some d => .more (n.wholeDigit d)
  | .sign, none => .refused .invalidNumber
  | .zero, some _ => .refused .invalidNumber
  | .zero, none => n.afterDigits b true
  | .whole, some d => .more (n.wholeDigit d)
  | .whole, none => n.afterDigits b true
  | .wholeDropped, some _ => .more { n with exponent := n.exponent + 1 }
  | .wholeDropped, none => n.afterDigits b true
  | .point, some d => .more (n.fractionDigit d)
  | .point, none => .refused .invalidNumber
  | .fraction, some d => .more (n.fractionDigit d)
  | .fraction, none => n.afterDigits b false
  | .fractionDropped, some _ => .more n
  | .fractionDropped, none => n.afterDigits b false
  | .mark, some d => .more { n with phase := .power true d }
  | .mark, none =>
    if b == 0x2B then .more { n with phase := .markSign true }
    else if b == 0x2D then .more { n with phase := .markSign false }
    else .refused .invalidNumber
  | .markSign positive, some d => .more { n with phase := .power positive d }
  | .markSign _, none => .refused .invalidNumber
  | .power positive value, some d => n.powerDigit positive value d
  | .power _ _, none => .complete
  | .powerDropped, some _ => .more n
  | .powerDropped, none => .complete

def ofFirst? (b : UInt8) : Option Numeral :=
  if b == 0x2D then some ⟨true, 0, 0, .sign⟩
  else match digit? b with
    | some 0 => some ⟨false, 0, 0, .zero⟩
    | some d => some ⟨false, d, 0, .whole⟩
    | none => none

def powerOfTen (k : Nat) : Float := Float.ofScientific 1 false k

/-- Divides by `10 ^ k` in steps of at most 308 places. -/
def divided (x : Float) (k : Nat) : Float :=
  if k ≤ 308 then x / powerOfTen k
  else if x == 0 then x
  else divided (x / powerOfTen 308) (k - 308)
termination_by k

def double? (negative : Bool) (significand : Nat) (exponent : Int) : Option Number :=
  let x := significand.toUInt64.toFloat
  let signed (y : Float) : Number := .double (if negative then -y else y).toBits
  if exponent < 0 then some (signed (divided x exponent.natAbs))
  else if exponent ≤ 308 then
    let y := x * powerOfTen exponent.natAbs
    if y.isInf then none else some (signed y)
  else if significand = 0 then some (signed x)
  else none

/-- A numeral without point and power is an integer if it fits; `-0` is a double. -/
def integer (n : Numeral) : Number :=
  if n.negative then
    if n.significand = 0 ∨ Nat.pow 2 63 < n.significand then
      .double (-n.significand.toUInt64.toFloat).toBits
    else .integer (-n.significand)
  else .integer n.significand

def finish (n : Numeral) : Except Fault Number :=
  let scaled (exponent : Int) : Except Fault Number :=
    match double? n.negative n.significand exponent with
    | some x => .ok x
    | none => .error .numberOutOfRange
  match n.phase with
  | .zero | .whole => .ok n.integer
  | .wholeDropped | .fraction | .fractionDropped => scaled n.exponent
  | .power positive value => scaled (if positive then n.exponent + value else n.exponent - value)
  | .powerDropped => .ok (.double (if n.negative then -0.0 else 0.0 : Float).toBits)
  | .sign | .point | .mark | .markSign _ => .error .endInValue

end Numeral

end CompileIndex.Json
