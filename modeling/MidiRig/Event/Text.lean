import MidiRig.Event.Basic
import MidiRig.Fault
import MidiRig.Number.Decimal
import MidiRig.Number.Shortest

/-!
# The text of an event

`kind:channel:number:value`, with the fields that the kind carries; `sysex:` and pairs of
hexadecimal digits; or the bare word of a transport message. Blanks around fields do not count.
A value that is whole and below `10^15` is written as an integer, any other in its shortest form.
-/

namespace MidiRig.Event

/-! ## Writing -/

def hexDigit (n : Nat) : Char := Nat.digitChar n |>.toUpper

/-- A byte as two hexadecimal digits. -/
def byteText (b : UInt8) : List Char := [hexDigit (b.toNat / 16), hexDigit (b.toNat % 16)]

def payloadText (bytes : List UInt8) : String := String.ofList (bytes.flatMap byteText)

/-- Whole values from here on are no longer written as integers. -/
def integerLimit : Float := 1.0e15

def valueText (x : Float) : String :=
  if Binary64.isWhole x && x.abs < integerLimit then toString (Binary64.toInt64 x)
  else Shortest.text x

def fieldText : Option Int → String
  | some n => ":" ++ toString n
  | none => ""

def text (e : Event) : String :=
  if e.kind = .exclusive then e.kind.name ++ ":" ++ payloadText e.payload
  else
    e.kind.name ++ fieldText e.channel ++ fieldText e.number ++
      (if e.kind.hasChannel then ":" ++ valueText e.value else "")

/-! ## Reading -/

/-- Value of a hexadecimal digit. -/
def hexValue? (c : Char) : Option Nat :=
  if c.isDigit then some (c.toNat - '0'.toNat)
  else if 'a' ≤ c ∧ c ≤ 'f' then some (c.toNat - 'a'.toNat + 10)
  else if 'A' ≤ c ∧ c ≤ 'F' then some (c.toNat - 'A'.toNat + 10)
  else none

/-- A byte from a pair of digits. A plus sign may stand for the first of them. -/
def readByte? (high low : Char) : Option UInt8 := do
  let tens ← if high = '+' then some 0 else hexValue? high
  let units ← hexValue? low
  return UInt8.ofNat (16 * tens + units)

def readBytes? : List Char → Option (List UInt8)
  | [] => some []
  | high :: low :: rest => do return (← readByte? high low) :: (← readBytes? rest)
  | [_] => none

/-- An exclusive payload: pairs of digits, with blanks anywhere. -/
def readPayload (cs : List Char) : Except Reason (List UInt8) :=
  let digits := Text.squeeze cs
  if digits.any (fun c => 128 ≤ c.toNat) then .error .payloadNotHex
  else if digits.length % 2 ≠ 0 then .error .payloadOddLength
  else
    match readBytes? digits with
    | some bytes => .ok bytes
    | none => .error .payloadNotHex

/-- How many fields the text of a kind has. -/
def fieldCount (kind : Kind) : Nat :=
  if kind.hasChannel then (if kind.hasNumber then 3 else 2) else 0

def readInteger (field : String) : Except Reason Int :=
  match Decimal.readInt32? (Text.trimChars field.toList) with
  | some n => .ok n
  | none => .error (.notAnInteger field)

def readNumber (field : String) : Except Reason Float :=
  match Decimal.readFloat? (Text.trimChars field.toList) with
  | some x => .ok x
  | none => .error (.notANumber field)

/-- The event of a kind with these fields. -/
def ofFields (kind : Kind) (fields : List String) : Except Reason Event :=
  if kind = .exclusive then
    exclusive <$> readPayload (String.join fields).toList
  else if fields.length ≠ fieldCount kind then
    .error (.fieldCount kind (fieldCount kind) fields.length)
  else
    match fields with
    | [channel, number, value] => do
      return make kind (some (← readInteger channel)) (some (← readInteger number))
        (← readNumber value)
    | [channel, value] => do
      return make kind (some (← readInteger channel)) none (← readNumber value)
    | _ => .ok (transport kind)

/-- Reads the text of an event. A text that names no kind is faulted for its first field, any
other as a whole. -/
def ofText (s : String) : Except CompileError Event :=
  let parts := Text.pieces ':' (Text.trim s)
  let first := parts.headD ""
  match Kind.ofName? first with
  | none => .error ⟨first, .notAKind⟩
  | some kind =>
    match ofFields kind parts.tail with
    | .ok event => .ok event
    | .error reason => .error ⟨s, reason⟩

end MidiRig.Event
