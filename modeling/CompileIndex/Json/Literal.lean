import CompileIndex.Json.Error
import CompileIndex.Text.Utf8

/-!
# String literals

Reading the octets between the marks of a string. Escapes are decoded as they come; that the
whole is UTF-8 is checked at the closing mark.
-/
namespace CompileIndex.Json

/-- Where reading stands inside an escape. A hexadecimal group collects its four octets, last
one first, and may have to complete a pair begun by a high surrogate. -/
inductive Escape
  | outside
  | opened
  | hex (group : List UInt8) (high : Option Nat)
  | afterHigh (high : Nat)
  | afterHighSlash (high : Nat)
  deriving DecidableEq, Repr

structure Literal where
  octets : List UInt8
  escape : Escape
  deriving DecidableEq, Repr

namespace Literal

inductive Progress
  | more (l : Literal)
  | refused (fault : Fault)
  | closed (octets : List UInt8)

def empty : Literal := ⟨[], .outside⟩

def push (l : Literal) (code : Nat) : Literal :=
  ⟨(String.utf8EncodeChar (Char.ofNat code)).reverse ++ l.octets, .outside⟩

def named? (b : UInt8) : Option UInt8 :=
  if b == 0x22 || b == 0x5C || b == 0x2F then some b
  else if b == 0x62 then some 0x08
  else if b == 0x66 then some 0x0C
  else if b == 0x6E then some 0x0A
  else if b == 0x72 then some 0x0D
  else if b == 0x74 then some 0x09
  else none

def hexDigit? (b : UInt8) : Option Nat :=
  if 0x30 ≤ b ∧ b ≤ 0x39 then some (b.toNat - 0x30)
  else if 0x41 ≤ b ∧ b ≤ 0x46 then some (b.toNat - 0x37)
  else if 0x61 ≤ b ∧ b ≤ 0x66 then some (b.toNat - 0x57)
  else none

def hexValue? (group : List UInt8) : Option Nat :=
  group.foldr (fun b value => do return (← value) * 16 + (← hexDigit? b)) (some 0)

def group (l : Literal) (unit : Nat) : Option Nat → Progress
  | none =>
    if 0xDC00 ≤ unit ∧ unit ≤ 0xDFFF then .refused .loneSurrogate
    else if 0xD800 ≤ unit ∧ unit ≤ 0xDBFF then .more { l with escape := .afterHigh unit }
    else .more (l.push unit)
  | some high =>
    if 0xDC00 ≤ unit ∧ unit ≤ 0xDFFF then
      .more (l.push (0x10000 + (high - 0xD800) * 0x400 + (unit - 0xDC00)))
    else .refused .loneSurrogate

def step (l : Literal) (b : UInt8) : Progress :=
  match l.escape with
  | .outside =>
    if b == 0x22 then .closed l.octets.reverse
    else if b == 0x5C then .more { l with escape := .opened }
    else if b < 0x20 then .refused .controlCharacter
    else .more { l with octets := b :: l.octets }
  | .opened =>
    if b == 0x75 then .more { l with escape := .hex [] none }
    else match named? b with
      | some c => .more ⟨c :: l.octets, .outside⟩
      | none => .refused .invalidEscape
  | .hex digits high =>
    if digits.length < 3 then .more { l with escape := .hex (b :: digits) high }
    else match hexValue? (b :: digits) with
      | some unit => l.group unit high
      | none => .refused .invalidEscape
  | .afterHigh high =>
    if b == 0x5C then .more { l with escape := .afterHighSlash high }
    else .refused .unfinishedPair
  | .afterHighSlash high =>
    if b == 0x75 then .more { l with escape := .hex [] (some high) }
    else .refused .unfinishedPair

end Literal

end CompileIndex.Json
