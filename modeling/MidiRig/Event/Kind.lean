import MidiRig.Text.Blank

/-!
# Kinds of event

Seven kinds of channel message, exclusive messages, and the four transport messages. Which fields
an event carries depends on its kind alone.
-/

namespace MidiRig

inductive Kind where
  | note
  | noteOff
  | control
  | program
  | bend
  | channelPressure
  | keyPressure
  | exclusive
  | clock
  | start
  | resume
  | stop
  deriving DecidableEq, Repr

namespace Kind

def all : List Kind :=
  [note, noteOff, control, program, bend, channelPressure, keyPressure, exclusive, clock, start,
    resume, stop]

/-- The word for a kind in rules and events. -/
def name : Kind → String
  | note => "note"
  | noteOff => "noteoff"
  | control => "cc"
  | program => "prog"
  | bend => "pbend"
  | channelPressure => "cpress"
  | keyPressure => "kpress"
  | exclusive => "sysex"
  | clock => "clock"
  | start => "start"
  | resume => "continue"
  | stop => "stop"

/-- The kind of that name; blanks around it do not count. -/
def ofName? (s : String) : Option Kind :=
  let wanted := Text.trim s
  all.find? (·.name = wanted)

/-- Channel messages. -/
def hasChannel : Kind → Bool
  | note | noteOff | control | program | bend | channelPressure | keyPressure => true
  | _ => false

/-- Kinds with a key or controller number. -/
def hasNumber : Kind → Bool
  | note | noteOff | control | keyPressure => true
  | _ => false

/-- Transport messages have neither channel, number nor value of their own. -/
def isTransport : Kind → Bool
  | clock | start | resume | stop => true
  | _ => false

/-- Kinds that an engine can route by itself. -/
def isNativeRoutable : Kind → Bool
  | note | control | program | bend | channelPressure | keyPressure => true
  | _ => false

/-- Largest value that a message of this kind holds. -/
def maxValue : Kind → Float
  | bend => 16383.0
  | _ => 127.0

theorem mem_all (k : Kind) : k ∈ all := by cases k <;> decide

end Kind

end MidiRig
