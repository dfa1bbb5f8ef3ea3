import MidiRig.Event.Text

/-!
# Cells of a pattern

A cell of a track is a rest or an event. Rests are written as one of a few marks and shown as an
underscore.
-/

namespace MidiRig

inductive Cell where
  | rest
  | event (event : Event)
  deriving BEq, Repr

namespace Cell

/-- The texts that are read as a rest. -/
def restMarks : List String := ["", "_", ".", "-"]

def ofText (s : String) : Except CompileError Cell :=
  let trimmed := Text.trim s
  if restMarks.contains trimmed then .ok rest else event <$> Event.ofText trimmed

def text : Cell → String
  | rest => "_"
  | event e => e.text

def event? : Cell → Option Event
  | rest => none
  | event e => some e

end Cell

/-- The cells of one voice, step by step. -/
abbrev Voice := List Cell

/-- Voices that sound together. -/
abbrev Pattern := List Voice

namespace Pattern

/-- Steps of the longest voice. -/
def length (p : Pattern) : Nat := (p.map List.length).foldl max 0

/-- The events of a step, voice by voice. -/
def eventsAt (p : Pattern) (step : Nat) : List Event :=
  p.filterMap fun voice => voice[step]?.bind Cell.event?

end Pattern

end MidiRig
