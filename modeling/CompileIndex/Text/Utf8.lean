/-!
# UTF-8

Decoding octet by octet, strictly or with U+FFFD in place of what is no character. A refusal says
how many octets were good and how many make up the offending sequence, or that the octets end
inside a character.
-/
namespace CompileIndex.Text.Utf8

/-- A character of which some octets were read: where it starts, how many octets it still
owes, the range of the next one and the bits so far. -/
structure Partial where
  start : Nat
  owed : Nat
  low : UInt8
  high : UInt8
  bits : Nat

inductive Step
  | char (c : Char)
  | begun (p : Partial)
  | wrong

/-- The octet that starts a character of two, three or four octets. The range of the second
octet leaves out the overlong forms, the surrogates and all above U+10FFFF. -/
def lead? (position : Nat) (b : UInt8) : Option Partial :=
  if 0xC2 ≤ b ∧ b ≤ 0xDF then some ⟨position, 1, 0x80, 0xBF, b.toNat - 0xC0⟩
  else if b = 0xE0 then some ⟨position, 2, 0xA0, 0xBF, 0⟩
  else if b = 0xED then some ⟨position, 2, 0x80, 0x9F, 0xD⟩
  else if 0xE1 ≤ b ∧ b ≤ 0xEF then some ⟨position, 2, 0x80, 0xBF, b.toNat - 0xE0⟩
  else if b = 0xF0 then some ⟨position, 3, 0x90, 0xBF, 0⟩
  else if b = 0xF4 then some ⟨position, 3, 0x80, 0x8F, 4⟩
  else if 0xF1 ≤ b ∧ b ≤ 0xF3 then some ⟨position, 3, 0x80, 0xBF, b.toNat - 0xF0⟩
  else none

def begin (position : Nat) (b : UInt8) : Step :=
  if b < 0x80 then .char (Char.ofNat b.toNat)
  else match lead? position b with
    | some p => .begun p
    | none => .wrong

def Partial.next (p : Partial) (b : UInt8) : Step :=
  if p.low ≤ b ∧ b ≤ p.high then
    let bits := p.bits * 64 + (b.toNat - 0x80)
    if p.owed = 1 then .char (Char.ofNat bits)
    else .begun ⟨p.start, p.owed - 1, 0x80, 0xBF, bits⟩
  else .wrong

/-! ## Strictly -/

/-- Where decoding stopped. `length` counts the octets of the sequence that no continuation
can save; it is absent when the octets just end too early. -/
structure Refusal where
  validUpTo : Nat
  length : Option Nat
  deriving DecidableEq, Repr

def decodeFrom (position : Nat) (done : List Char) :
    Option Partial → List UInt8 → Except Refusal (List Char)
  | none, [] => .ok done.reverse
  | some p, [] => .error ⟨p.start, none⟩
  | none, b :: rest =>
    match begin position b with
    | .char c => decodeFrom (position + 1) (c :: done) none rest
    | .begun p => decodeFrom (position + 1) done (some p) rest
    | .wrong => .error ⟨position, some 1⟩
  | some p, b :: rest =>
    match p.next b with
    | .char c => decodeFrom (position + 1) (c :: done) none rest
    | .begun p => decodeFrom (position + 1) done (some p) rest
    | .wrong => .error ⟨p.start, some (position - p.start)⟩

def decode (octets : List UInt8) : Except Refusal String :=
  (decodeFrom 0 [] none octets).map String.ofList

def Refusal.message : Refusal → String
  | ⟨index, some n⟩ => s!"invalid utf-8 sequence of {n} bytes from index {index}"
  | ⟨index, none⟩ => s!"incomplete utf-8 byte sequence from index {index}"

/-! ## With replacements -/

structure Reading where
  done : List Char
  begun : Option Partial

def replacement : Char := '\uFFFD'

namespace Reading

def empty : Reading := ⟨[], none⟩

def take (done : List Char) (b : UInt8) : Reading :=
  match begin 0 b with
  | .char c => ⟨c :: done, none⟩
  | .begun p => ⟨done, some p⟩
  | .wrong => ⟨replacement :: done, none⟩

/-- An octet that cannot continue a character may begin one. -/
def next (r : Reading) (b : UInt8) : Reading :=
  match r.begun with
  | none => take r.done b
  | some p =>
    match p.next b with
    | .char c => ⟨c :: r.done, none⟩
    | .begun p => ⟨r.done, some p⟩
    | .wrong => take (replacement :: r.done) b

def text (r : Reading) : String :=
  String.ofList (if r.begun.isSome then replacement :: r.done else r.done).reverse

end Reading

def lossy (octets : List UInt8) : String := (octets.foldl Reading.next .empty).text

/-! ## Encoding -/

def encode (s : String) : List UInt8 := s.toList.flatMap String.utf8EncodeChar

def text? (octets : List UInt8) : Option String :=
  if encode (lossy octets) = octets then some (lossy octets) else none

end CompileIndex.Text.Utf8
