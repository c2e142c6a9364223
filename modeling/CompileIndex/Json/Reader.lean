import CompileIndex.Json.Literal
import CompileIndex.Json.Numeral

/-!
# Reading JSON

A machine with a stack of open containers that takes one octet at a time, so that every error
has a definite place. At most 127 containers may be open at once.
-/
namespace CompileIndex.Json

/-- An open container with what it holds so far, last one first; in an object, with the name
of the field whose value comes next. -/
inductive Frame
  | array (items : List Value)
  | object (fields : List (String × Value)) (key : String)

inductive Mode
  | value
  | firstItem
  | nextItem
  | afterItem
  | firstKey
  | nextKey
  | key (text : Literal)
  | colon
  | afterField
  | word (rest : List UInt8) (value : Value)
  | numeral (n : Numeral)
  | text (text : Literal)
  | done (v : Value)

structure Reader where
  stack : List Frame
  mode : Mode

/-- A refusal, with how many of the octets read do not count for its place. -/
structure Stop where
  fault : Fault
  back : Nat

namespace Reader

def start : Reader := ⟨[], .value⟩

def maxDepth : Nat := 127

def isSpace (b : UInt8) : Bool := b == 0x20 || b == 0x09 || b == 0x0A || b == 0x0D

def deliver (v : Value) : List Frame → Reader
  | [] => ⟨[], .done v⟩
  | .array items :: stack => ⟨.array (v :: items) :: stack, .afterItem⟩
  | .object fields key :: stack => ⟨.object ((key, v) :: fields) key :: stack, .afterField⟩

def openWith (stack : List Frame) (r : Reader) : Except Stop Reader :=
  if stack.length < maxDepth then .ok r else .error ⟨.tooDeep, 0⟩

def begin (stack : List Frame) (b : UInt8) : Except Stop Reader :=
  if b == 0x22 then .ok ⟨stack, .text .empty⟩
  else if b == 0x5B then openWith stack ⟨.array [] :: stack, .firstItem⟩
  else if b == 0x7B then openWith stack ⟨.object [] "" :: stack, .firstKey⟩
  else if b == 0x6E then .ok ⟨stack, .word [0x75, 0x6C, 0x6C] .null⟩
  else if b == 0x74 then .ok ⟨stack, .word [0x72, 0x75, 0x65] (.bool true)⟩
  else if b == 0x66 then .ok ⟨stack, .word [0x61, 0x6C, 0x73, 0x65] (.bool false)⟩
  else match Numeral.ofFirst? b with
    | some n => .ok ⟨stack, .numeral n⟩
    | none => .error ⟨.expectedValue, 0⟩

/-- The octets of a closed string as text. The place of a bad one is counted from the end. -/
def decoded (octets : List UInt8) : Except Stop String :=
  match Text.Utf8.decode octets with
  | .ok s => .ok s
  | .error refusal => .error ⟨.invalidCodePoint, octets.length - refusal.validUpTo⟩

def beginKey (r : Reader) (b : UInt8) : Except Stop Reader :=
  if b == 0x22 then .ok { r with mode := .key .empty } else .error ⟨.keyNotString, 0⟩

def nameField (key : String) : List Frame → Reader
  | .object fields _ :: stack => ⟨.object fields key :: stack, .colon⟩
  | stack => ⟨stack, .colon⟩

def token (r : Reader) (b : UInt8) : Except Stop Reader :=
  match r.mode, r.stack with
  | .value, stack => begin stack b
  | .firstItem, .array items :: stack =>
    if b == 0x5D then .ok (deliver (.array items.reverse) stack) else begin r.stack b
  | .firstItem, stack => begin stack b
  | .nextItem, stack =>
    if b == 0x5D then .error ⟨.trailingComma, 0⟩ else begin stack b
  | .afterItem, .array items :: stack =>
    if b == 0x5D then .ok (deliver (.array items.reverse) stack)
    else if b == 0x2C then .ok { r with mode := .nextItem }
    else .error ⟨.expectedListSeparator, 0⟩
  | .afterItem, _ => .error ⟨.expectedListSeparator, 0⟩
  | .firstKey, .object fields _ :: stack =>
    if b == 0x7D then .ok (deliver (.object fields.reverse) stack) else beginKey r b
  | .firstKey, _ => beginKey r b
  | .nextKey, _ => if b == 0x7D then .error ⟨.trailingComma, 0⟩ else beginKey r b
  | .colon, _ =>
    if b == 0x3A then .ok { r with mode := .value } else .error ⟨.expectedColon, 0⟩
  | .afterField, .object fields _ :: stack =>
    if b == 0x7D then .ok (deliver (.object fields.reverse) stack)
    else if b == 0x2C then .ok { r with mode := .nextKey }
    else .error ⟨.expectedObjectSeparator, 0⟩
  | .afterField, _ => .error ⟨.expectedObjectSeparator, 0⟩
  | _, _ => .error ⟨.trailingCharacters, 0⟩

def betweenTokens (r : Reader) (b : UInt8) : Except Stop Reader :=
  if isSpace b then .ok r else r.token b

def step (r : Reader) (b : UInt8) : Except Stop Reader :=
  match r.mode with
  | .word (c :: rest) v =>
    if b == c then
      if rest.isEmpty then .ok (deliver v r.stack) else .ok { r with mode := .word rest v }
    else .error ⟨.expectedIdent, 0⟩
  | .text l =>
    match l.step b with
    | .more l => .ok { r with mode := .text l }
    | .refused fault => .error ⟨fault, 0⟩
    | .closed octets => do return deliver (.string (← decoded octets)) r.stack
  | .key l =>
    match l.step b with
    | .more l => .ok { r with mode := .key l }
    | .refused fault => .error ⟨fault, 0⟩
    | .closed octets => do return nameField (← decoded octets) r.stack
  | .numeral n =>
    match n.step b with
    | .more n => .ok { r with mode := .numeral n }
    | .refused fault => .error ⟨fault, 0⟩
    | .complete =>
      match n.finish with
      | .ok number => (deliver (.number number) r.stack).betweenTokens b
      | .error fault => .error ⟨fault, 1⟩
  | _ => r.betweenTokens b

def finish (r : Reader) : Except Fault Value :=
  match r.mode with
  | .done v => .ok v
  | .numeral n =>
    match n.finish with
    | .error fault => .error fault
    | .ok number =>
      match deliver (.number number) r.stack with
      | ⟨_, .done v⟩ => .ok v
      | ⟨_, .afterItem⟩ => .error .endInList
      | _ => .error .endInObject
  | .value | .nextItem | .nextKey | .word _ _ => .error .endInValue
  | .firstItem | .afterItem => .error .endInList
  | .firstKey | .colon | .afterField => .error .endInObject
  | .text _ | .key _ => .error .endInString

def run (position : Nat) (r : Reader) : List UInt8 → Except (Fault × Nat) Value
  | [] => match r.finish with
    | .ok v => .ok v
    | .error fault => .error (fault, position)
  | b :: rest => match r.step b with
    | .ok r => run (position + 1) r rest
    | .error stop => .error (stop.fault, position + 1 - stop.back)

end Reader

def read (bytes : List UInt8) : Except ReadError Value :=
  match Reader.start.run 0 bytes with
  | .ok v => .ok v
  | .error (fault, position) => .error (.after fault (bytes.take position))

end CompileIndex.Json
