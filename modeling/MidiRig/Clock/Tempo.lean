import MidiRig.Number.Binary64

/-!
# Ticks, beats and tempo

The engine's clock counts ticks from its start, music counts beats, and a tempo converts between
them. A tempo always lies between 1 and 999 beats a minute: one that is not a positive number
leaves the tempo as it was, and one outside these bounds is moved to the nearer of them.
-/

namespace MidiRig

structure Tempo where
  ticksPerSecond : Float
  bpm : Float
  deriving BEq, Repr

namespace Tempo

def defaultTickRate : Float := 1000.0

def defaultBpm : Float := 120.0

/-- Whether a number can be a rate: finite and positive. -/
def isRate (x : Float) : Bool := Binary64.isFinite x && x > 0.0

def setBpm (t : Tempo) (bpm : Float) : Tempo :=
  if isRate bpm then { t with bpm := Binary64.clamp 1.0 999.0 bpm } else t

def of (ticksPerSecond bpm : Float) : Tempo :=
  setBpm ⟨if ticksPerSecond > 0.0 then ticksPerSecond else defaultTickRate, defaultBpm⟩ bpm

/-- Length of a beat. -/
def ticksPerBeat (t : Tempo) : Float := t.ticksPerSecond * 60.0 / t.bpm

def toTicks (t : Tempo) (beats : Float) : Float := beats * t.ticksPerBeat

def toBeats (t : Tempo) (ticks : Float) : Float := ticks / t.ticksPerBeat

/-- The nearest whole number of ticks. -/
def roundTicks (t : Tempo) (beats : Float) : Nat :=
  Binary64.toWord64 (Binary64.round (t.toTicks beats))

/-- The tempo at which `beats` beats pass in `ticks` ticks. -/
def bpmOfInterval (t : Tempo) (beats : Float) (ticks : Nat) : Option Float :=
  if ticks = 0 then none else some (t.ticksPerSecond * 60.0 * beats / Float.ofNat ticks)

end Tempo

end MidiRig
