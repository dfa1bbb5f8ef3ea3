import MidiRig.Player.Arpeggio
import MidiRig.Player.Loop
import MidiRig.Player.Sequence
import MidiRig.Player.Track

/-!
# Players

The four machines as one type. Every player takes every call.
-/

namespace MidiRig

inductive Player where
  | sequence (s : Sequence)
  | arpeggio (a : Arpeggio)
  | loop (l : Loop)
  | track (t : Track)
  deriving Repr

namespace Player

/-- A new player, which does not play yet. -/
def make (d : PlayerDef) (config : SequencerConfig) (ticksPerSecond : Float) : Player :=
  match d with
  | .sequence d => sequence (Sequence.make d config ticksPerSecond)
  | .arpeggio d => arpeggio (Arpeggio.make d config ticksPerSecond)
  | .loop d => loop (Loop.make d config ticksPerSecond)
  | .track d => track (Track.make d)

def isPlaying : Player → Bool
  | sequence s => s.playing
  | arpeggio a => a.playing
  | loop l => l.playing
  | track t => t.playing

/-- Takes a call at a moment. -/
def respond (p : Player) (m : Moment) (c : Call) : Response Player :=
  match p with
  | sequence s => (s.respond m c).map sequence id
  | arpeggio a => (a.respond m c).map arpeggio id
  | loop l => (l.respond m c).map loop id
  | track t => (t.respond m c).map track id

end Player

end MidiRig
