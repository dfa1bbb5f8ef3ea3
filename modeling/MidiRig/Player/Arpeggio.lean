import MidiRig.Config
import MidiRig.Player.Action
import MidiRig.Player.Definition

/-!
# Arpeggios

An arpeggio plays while keys are held. The first key starts it and the last release stops it; in
between each step plays one of the keys, or all of them for chords. A chord strikes with the first
key, the other styles wait for their first callback.
-/

namespace MidiRig

namespace ArpeggioStyle

/-- Order of keys by number. -/
def below (a b : Event) : Bool :=
  match a.number, b.number with
  | some x, some y => x ≤ y
  | some _, none => false
  | none, _ => true

/-- The held keys by number; keys of one number stay as they were pressed. -/
def upward (held : List Event) : List Event := held.mergeSort below

/-- The keys in the order in which they play. -/
def arrange (style : ArpeggioStyle) (held : List Event) : List Event :=
  let keys := upward held
  match style with
  | .up | .chord => keys
  | .down => keys.reverse
  | .both => keys ++ keys.tail.dropLast.reverse
  | .manual => held

end ArpeggioStyle

structure Arpeggio where
  style : ArpeggioStyle
  stepping : Stepping
  tempo : Tempo
  lag : Nat
  /-- Held keys, the latest press last. -/
  held : List Event
  /-- The keys in the order in which they play. -/
  notes : List Event
  playing : Bool
  step : Nat
  /-- Tick of the step to come. -/
  nextTick : Nat
  sounding : Sounding
  deriving Repr

namespace Arpeggio

def make (d : ArpeggioDef) (config : SequencerConfig) (ticksPerSecond : Float) : Arpeggio :=
  { style := d.style
    stepping := Stepping.of d.division d.swing d.groove
    tempo := Tempo.of ticksPerSecond (d.tempo.getD config.defaultTempo)
    lag := config.lag
    held := []
    notes := []
    playing := false
    step := 0
    nextTick := 0
    sounding := [] }

/-- Numbers of the keys in the order in which they play. -/
def numbers (a : Arpeggio) : List Int := a.notes.filterMap Event.number

/-! ## Steps -/

/-- The keys of the step to come. -/
def stepKeys (a : Arpeggio) : List Event :=
  if a.style = .chord then a.notes else (a.notes[a.step % a.notes.length]?).toList

/-- The keys of the step to come with their accent. -/
def stepEvents (a : Arpeggio) : List Event :=
  a.stepKeys.map fun key => key.withValue (velocity (key.value * a.stepping.accent a.step))

def stepTicks (a : Arpeggio) : Nat := a.stepping.stepTicks a.tempo a.step

/-- Queues the step to come and asks for the one after it. -/
def emit (a : Arpeggio) : Response Arpeggio :=
  if a.notes.isEmpty then (a, [])
  else
    let nextTick := a.nextTick + a.stepTicks
    ({ a with
        step := a.step + 1
        nextTick
        sounding := a.sounding ++ a.stepEvents.flatMap (noteOffs a.stepTicks a.nextTick) },
      a.stepEvents.flatMap (strike a.stepTicks a.nextTick) ++ [.callback (nextTick - a.lag)])

/-! ## Starting and stopping -/

def start (a : Arpeggio) (m : Moment) : Response Arpeggio :=
  let started := { a with playing := true, step := 0 }
  if a.style = .chord then { started with nextTick := m.now }.emit
  else ({ started with nextTick := m.now + a.lag }, [.callback m.now])

def stop (a : Arpeggio) (m : Moment) : Response Arpeggio :=
  ({ a with playing := false, sounding := [] }, .cancel :: a.sounding.release m.now)

/-- Lets go of every key. -/
def letGo (a : Arpeggio) (m : Moment) : Response Arpeggio :=
  let free := { a with held := [], notes := [] }
  if free.playing then free.stop m else (free, [])

/-- Takes a callback. -/
def wake (a : Arpeggio) (m : Moment) : Response Arpeggio :=
  if a.playing then { a with sounding := a.sounding.prune m.now }.emit else (a, [])

/-! ## Keys -/

/-- Whether two events are about one key. -/
def sameKey (a b : Event) : Bool := a.channel == b.channel && a.number == b.number

/-- The held keys after a key is pressed or released. -/
def holdKey (held : List Event) (e : Event) : List Event :=
  let others := held.filter fun key => !sameKey key e
  if e.isKeyDown then others ++ [e] else others

/-- Takes a key; other events are ignored. -/
def add (a : Arpeggio) (e : Event) (m : Moment) : Response Arpeggio :=
  if e.kind ≠ .note ∧ e.kind ≠ .noteOff then (a, [])
  else
    let held := holdKey a.held e
    let keyed := { a with held, notes := a.style.arrange held }
    if a.held.isEmpty then if held.isEmpty then (keyed, []) else keyed.start m
    else if held.isEmpty then keyed.stop m
    else (keyed, [])

/-! ## Calls -/

/-- To play zero times lets go of the keys; other counts mean nothing to an arpeggio. -/
def respond (a : Arpeggio) (m : Moment) : Call → Response Arpeggio
  | .play loops => if loops == 0.0 then a.letGo m else (a, [])
  | .tempo bpm => ({ a with tempo := a.tempo.setBpm bpm }, [])
  | .swing share => ({ a with stepping := a.stepping.setSwing share }, [])
  | .groove accents => ({ a with stepping := a.stepping.setGroove accents }, [])
  | .add e => a.add e m
  | .dismiss => a.letGo m
  | .wake => a.wake m
  | .record _ | .seek _ | .fileTick _ => (a, [])

end Arpeggio

end MidiRig
