import MidiRig.Clock.Tempo
import MidiRig.Fault

/-!
# Configuration

How fast the engine's clock runs and how players and router behave. A configuration file is
checked once, when it is read.
-/

namespace MidiRig

/-- How players keep time. -/
structure SequencerConfig where
  ticksPerSecond : Float
  /-- How many ticks ahead of a step its callback comes. -/
  lag : Nat
  /-- Tempo of players that have none of their own. -/
  defaultTempo : Float
  deriving BEq, Repr

/-- How events are dispatched. -/
structure RouterConfig where
  /-- Whether the engine's own table takes the rules that it can run. -/
  nativeRouting : Bool
  tapRatio : Float
  tapTimeout : Nat
  deriving BEq, Repr

structure Config where
  sequencer : SequencerConfig
  router : RouterConfig
  deriving BEq, Repr

def SequencerConfig.default : SequencerConfig :=
  { ticksPerSecond := Tempo.defaultTickRate, lag := 10, defaultTempo := Tempo.defaultBpm }

def RouterConfig.default : RouterConfig :=
  { nativeRouting := true, tapRatio := 0.5, tapTimeout := 3000 }

namespace Config

def default : Config := ⟨.default, .default⟩

/-- The first setting that is out of its range. -/
def problem? (c : Config) : Option SetupProblem :=
  if !Tempo.isRate c.sequencer.ticksPerSecond then some .tickRate
  else if !Tempo.isRate c.sequencer.defaultTempo then some .tempo
  else if !(0.0 ≤ c.router.tapRatio && c.router.tapRatio ≤ 1.0) then some .tapRatio
  else none

end Config

end MidiRig
