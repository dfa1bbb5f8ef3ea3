import MidiRig.Event.Kind

/-!
# Events

A performance event: a kind, the channel (from 1) and number where the kind has them, a value, and
the payload of an exclusive message. Events are values; the `with…` functions give changed copies
and never a channel or number that the kind lacks.
-/

namespace MidiRig

structure Event where
  kind : Kind
  channel : Option Int
  number : Option Int
  value : Float
  payload : List UInt8
  deriving BEq, Repr

namespace Event

/-- Keeps a field only where it is carried. -/
def keepIf (carried : Bool) (field : Option Int) : Option Int := if carried then field else none

/-- An event of a kind; fields that the kind does not carry are dropped. -/
def make (kind : Kind) (channel number : Option Int) (value : Float) : Event :=
  { kind
    channel := keepIf kind.hasChannel channel
    number := keepIf kind.hasNumber number
    value
    payload := [] }

def note (channel number : Int) (value : Float) : Event :=
  make .note (some channel) (some number) value

def noteOff (channel number : Int) : Event := make .noteOff (some channel) (some number) 0.0

def transport (kind : Kind) : Event := make kind none none 0.0

/-- An exclusive message, without the bytes that frame it. -/
def exclusive (payload : List UInt8) : Event :=
  { make .exclusive none none 0.0 with payload }

/-- The payload is carried along. -/
def withKind (e : Event) (kind : Kind) : Event :=
  { make kind e.channel e.number e.value with payload := e.payload }

def withChannel (e : Event) (channel : Option Int) : Event :=
  { e with channel := keepIf e.kind.hasChannel channel }

def withNumber (e : Event) (number : Option Int) : Event :=
  { e with number := keepIf e.kind.hasNumber number }

def withValue (e : Event) (value : Float) : Event := { e with value }

/-- A key pressed. -/
def isKeyDown (e : Event) : Bool := e.kind = .note && e.value > 0.0

/-- A key released: a note-off, or a note without velocity. -/
def isKeyUp (e : Event) : Bool := e.kind = .noteOff || (e.kind = .note && e.value ≤ 0.0)

/-- The note-off that ends a note. -/
def release (e : Event) : Event := (e.withKind .noteOff).withValue 0.0

end Event

end MidiRig
