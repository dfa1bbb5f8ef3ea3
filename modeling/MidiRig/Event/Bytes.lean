import MidiRig.Event.Basic
import MidiRig.Number.Binary64

/-!
# Events on the wire

A channel message is a status byte, with the message in its high and the channel in its low four
bits, and one or two data bytes. An exclusive message stands between `F0` and `F7`. A pitch bend
has fourteen bits, the low seven first. A note without velocity is read as a note-off. Fields
that do not fit are held at the nearest value that does.
-/

namespace MidiRig.Event

/-- The high four bits of a status byte. -/
def statusOf : Kind → Nat
  | .noteOff => 0x80
  | .note => 0x90
  | .keyPressure => 0xA0
  | .control => 0xB0
  | .program => 0xC0
  | .channelPressure => 0xD0
  | .bend => 0xE0
  | .exclusive => 0xF0
  | .clock => 0xF8
  | .start => 0xFA
  | .resume => 0xFB
  | .stop => 0xFC

/-! ## Writing -/

/-- A number held between `0` and `top`. -/
def held (top : Nat) (n : Int) : Nat := min top n.toNat

/-- A value rounded and held between `0` and `top`. -/
def heldValue (top : Nat) (x : Float) : Nat := held top (Binary64.toInt32 (Binary64.round x))

def toBytes (e : Event) : List UInt8 :=
  let status := statusOf e.kind + held 15 (e.channel.getD 1 - 1)
  let number := held 127 (e.number.getD 0)
  let value := heldValue 127 e.value
  let bytes : List Nat :=
    match e.kind with
    | .note | .noteOff | .control | .keyPressure => [status, number, value]
    | .program | .channelPressure => [status, value]
    | .bend =>
      let wide := heldValue 16383 e.value
      [status, wide % 128, wide / 128]
    | .exclusive => [statusOf .exclusive] ++ e.payload.map UInt8.toNat ++ [0xF7]
    | kind => [statusOf kind]
  bytes.map UInt8.ofNat

/-! ## Reading -/

/-- A channel message with the given status and data bytes. Bytes past the last one that the
message needs do not count. -/
def ofChannelBytes? (status : Nat) (data : List UInt8) : Option Event :=
  let channel : Int := status % 16 + 1
  let voice (kind : Kind) (number : UInt8) (value : Float) : Event :=
    make kind (some channel) (some number.toNat) value
  let value (b : UInt8) : Float := Float.ofNat b.toNat
  match status / 16, data with
  | 0x9, number :: velocity :: _ =>
    if velocity = 0 then some (voice .noteOff number 0.0)
    else some (voice .note number (value velocity))
  | 0x8, number :: velocity :: _ => some (voice .noteOff number (value velocity))
  | 0xB, number :: v :: _ => some (voice .control number (value v))
  | 0xA, number :: v :: _ => some (voice .keyPressure number (value v))
  | 0xE, low :: high :: _ =>
    let wide := (high.toNat * 128) ||| low.toNat
    some (make .bend (some channel) none (Float.ofNat wide))
  | 0xC, v :: _ => some (make .program (some channel) none (value v))
  | 0xD, v :: _ => some (make .channelPressure (some channel) none (value v))
  | _, _ => none

/-- The event of a message, where the bytes are one. -/
def ofBytes? : List UInt8 → Option Event
  | [] => none
  | status :: data =>
    match status.toNat with
    | 0xF8 => some (transport .clock)
    | 0xFA => some (transport .start)
    | 0xFB => some (transport .resume)
    | 0xFC => some (transport .stop)
    | 0xF0 => some (exclusive (data.takeWhile (· != 0xF7)))
    | s => ofChannelBytes? s data

end MidiRig.Event
