import MidiRig.Config
import MidiRig.Player.Action
import MidiRig.Player.Definition
import MidiRig.Player.Order

/-!
# Sequences

A sequence wakes a little ahead of each step, queues the events of the step for their tick and
asks to be woken for the next one. It remembers the note-offs it has queued, and plays those that
are not yet due when it stops.
-/

namespace MidiRig

structure Sequence where
  patterns : List Pattern
  order : List Int
  stepping : Stepping
  tempo : Tempo
  lag : Nat
  playing : Bool
  cursor : Cursor
  /-- The pattern that plays. -/
  current : Nat
  step : Nat
  /-- Tick of the step to come. -/
  nextTick : Nat
  sounding : Sounding
  deriving Repr

namespace Sequence

def make (d : SequenceDef) (config : SequencerConfig) (ticksPerSecond : Float) : Sequence :=
  { patterns := d.patterns
    order := d.playedOrder
    stepping := Stepping.of d.division d.swing d.groove
    tempo := Tempo.of ticksPerSecond (d.tempo.getD config.defaultTempo)
    lag := config.lag
    playing := false
    cursor := Cursor.start d.playedOrder.length none
    current := 0
    step := 0
    nextTick := 0
    sounding := [] }

/-! ## Starting and stopping -/

def start (s : Sequence) (passes : Option Nat) (m : Moment) : Response Sequence :=
  ({ s with
      cursor := Cursor.start s.order.length passes
      step := 0
      playing := true
      nextTick := m.now + s.lag },
    [.callback m.now])

def stop (s : Sequence) (m : Moment) : Response Sequence :=
  ({ s with playing := false, sounding := [] }, .cancel :: s.sounding.release m.now)

def stopIfPlaying (s : Sequence) (m : Moment) : Response Sequence :=
  if s.playing then s.stop m else (s, [])

/-- Playing again starts over. -/
def play (s : Sequence) (loops : Float) (m : Moment) : Response Sequence :=
  let (stopped, stopping) := s.stopIfPlaying m
  match playCount? loops with
  | none => (stopped, stopping)
  | some passes =>
    let (started, starting) := stopped.start passes m
    (started, stopping ++ starting)

/-! ## Steps -/

/-- At the first step of a pattern finds that pattern. -/
def choose? (s : Sequence) : Option Sequence :=
  if s.step = 0 then
    (s.cursor.pattern? s.order s.patterns.length).map fun (pattern, cursor) =>
      { s with current := pattern, cursor }
  else some s

def pattern (s : Sequence) : Pattern := s.patterns.getD s.current []

def stepTicks (s : Sequence) : Nat := s.stepping.stepTicks s.tempo s.step

/-- An event with its accent; notes stay within the range of velocities. -/
def accented (accent : Float) (e : Event) : Event :=
  let value := e.value * accent
  e.withValue (if e.kind = .note then velocity value else value)

/-- The events of the step to come. -/
def stepEvents (s : Sequence) : List Event :=
  (s.pattern.eventsAt s.step).map (accented (s.stepping.accent s.step))

/-- The place after this step. -/
def stepOn (s : Sequence) : Sequence :=
  if s.pattern.length ≤ s.step + 1 then { s with step := 0, cursor := s.cursor.next }
  else { s with step := s.step + 1 }

/-- Queues the step to come and asks for the one after it. -/
def emit (s : Sequence) : Response Sequence :=
  let nextTick := s.nextTick + s.stepTicks
  ({ s.stepOn with
      nextTick
      sounding := s.sounding ++ s.stepEvents.flatMap (noteOffs s.stepTicks s.nextTick) },
    s.stepEvents.flatMap (strike s.stepTicks s.nextTick) ++ [.callback (nextTick - s.lag)])

/-- Takes a callback. -/
def wake (s : Sequence) (m : Moment) : Response Sequence :=
  if !s.playing then (s, [])
  else
    let pruned := { s with sounding := s.sounding.prune m.now }
    match pruned.choose? with
    | some chosen => chosen.emit
    | none => pruned.stop m

/-! ## Calls -/

def respond (s : Sequence) (m : Moment) : Call → Response Sequence
  | .play loops => s.play loops m
  | .tempo bpm => ({ s with tempo := s.tempo.setBpm bpm }, [])
  | .swing share => ({ s with stepping := s.stepping.setSwing share }, [])
  | .groove accents => ({ s with stepping := s.stepping.setGroove accents }, [])
  | .dismiss => s.stopIfPlaying m
  | .wake => s.wake m
  | .record _ | .add _ | .seek _ | .fileTick _ => (s, [])

end Sequence

end MidiRig
