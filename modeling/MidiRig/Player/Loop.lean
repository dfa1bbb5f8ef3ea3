import MidiRig.Config
import MidiRig.Player.Action
import MidiRig.Player.Definition

/-!
# Loops

A loop records events at their beat in the pass, one layer a recording, and repeats what all
layers hold together, in the order of the beats. Without a fixed length the first recording sets
the length. A callback comes ahead of each event and ahead of the end of the pass.
-/

namespace MidiRig

/-- Events at their beats. -/
abbrev Layer := List (Float × Event)

namespace Layer

def beforeOrAt (a b : Float × Event) : Bool := Binary64.orderKey a.1 ≤ Binary64.orderKey b.1

/-- All layers in the order of the beats; events of one beat stay in the order of the layers. -/
def merge (layers : List Layer) : Layer := layers.flatten.mergeSort beforeOrAt

/-- How many events lie before a beat. -/
def countBefore (layer : Layer) (beat : Float) : Nat :=
  (layer.takeWhile fun entry => entry.1 < beat).length

end Layer

structure Loop where
  tempo : Tempo
  lag : Nat
  fixedBeats : Option Float
  /-- Length, once it is known. -/
  beats : Option Float
  layers : List Layer
  timeline : Layer
  recording : Bool
  playing : Bool
  /-- Passes that are left, this one included; `none` for ever. -/
  passes : Option Nat
  /-- Tick at which the pass began. -/
  passStart : Nat
  /-- Place in the timeline of the event to come. -/
  next : Nat
  /-- Whether the callback to come is the one for the end of the pass. -/
  atEnd : Bool
  deriving Repr

namespace Loop

def make (d : LoopDef) (config : SequencerConfig) (ticksPerSecond : Float) : Loop :=
  { tempo := Tempo.of ticksPerSecond (d.tempo.getD config.defaultTempo)
    lag := config.lag
    fixedBeats := d.beats
    beats := d.beats
    layers := []
    timeline := []
    recording := false
    playing := false
    passes := none
    passStart := 0
    next := 0
    atEnd := false }

/-! ## Time within the pass -/

/-- Length of a pass, if it is known and not less than a tick. -/
def passTicks? (l : Loop) : Option Nat :=
  l.beats.bind fun beats =>
    let ticks := l.tempo.roundTicks beats
    if 0 < ticks then some ticks else none

/-- Beats since the pass began, within the length if that is known. -/
def beatAt (l : Loop) (now : Nat) : Float :=
  let elapsed := l.tempo.toBeats (Float.ofNat now - Float.ofNat l.passStart)
  match l.beats with
  | some beats => Binary64.modulo elapsed beats
  | none => Binary64.larger elapsed 0.0

/-- Moves the start to that of the pass in which `now` lies. -/
def align (l : Loop) (now : Nat) : Loop :=
  match l.passTicks? with
  | none => l
  | some length =>
    if now < l.passStart then
      let passes := (l.passStart - now + (length - 1)) / length
      { l with passStart := l.passStart - passes * length }
    else { l with passStart := l.passStart + (now - l.passStart) / length * length }

/-! ## Callbacks -/

/-- Tick at which an entry of the timeline plays in this pass. -/
def tickOf (l : Loop) (beat : Float) : Nat := l.passStart + l.tempo.roundTicks beat

/-- Asks for the callback of the event to come, or of the end of the pass. -/
def arm (l : Loop) : Response Loop :=
  match l.passTicks? with
  | none => (l, [])
  | some length =>
    match l.timeline[l.next]? with
    | some entry => (l, [.callback (l.tickOf entry.1 - l.lag)])
    | none => ({ l with atEnd := true }, [.callback (l.passStart + length - l.lag)])

/-- Drops what is queued and asks for the next callback. -/
def rearm (l : Loop) : Response Loop :=
  let (armed, actions) := { l with atEnd := false }.arm
  (armed, .cancel :: actions)

/-- Begins a first pass now. -/
def startPlaying (l : Loop) (m : Moment) : Response Loop :=
  { l with playing := true, passStart := m.now, next := 0 }.rearm

/-- Finds its place again after the timeline or the tempo has changed. -/
def resync (l : Loop) (m : Moment) : Response Loop :=
  let aligned := l.align m.now
  { aligned with next := aligned.timeline.countBefore (aligned.beatAt m.now) }.rearm

def stop (l : Loop) : Response Loop :=
  ({ l with playing := false, atEnd := false }, [.cancel])

/-- The pass after one of this length. -/
def nextPass (l : Loop) (length : Nat) : Loop :=
  { l with atEnd := false, passStart := l.passStart + length, next := 0 }

/-- Begins the next pass, or stops after the last one. -/
def turnOver (l : Loop) (length : Nat) : Response Loop :=
  match l.passes with
  | none => (l.nextPass length).arm
  | some left =>
    if left ≤ 1 then (l.nextPass length).stop
    else { l.nextPass length with passes := some (left - 1) }.arm

/-- Queues the event to come. -/
def playNext (l : Loop) : Response Loop :=
  match l.timeline[l.next]? with
  | some entry =>
    let (armed, actions) := { l with next := l.next + 1 }.arm
    (armed, .event entry.2 (l.tickOf entry.1) :: actions)
  | none => l.arm

/-- Takes a callback. -/
def wake (l : Loop) : Response Loop :=
  match l.playing, l.passTicks? with
  | true, some length => if l.atEnd then l.turnOver length else l.playNext
  | _, _ => (l, [])

/-! ## Playing -/

/-- A loop without a length has nothing to play. -/
def play (l : Loop) (loops : Float) (m : Moment) : Response Loop :=
  match playCount? loops with
  | none => { l with recording := false }.stop
  | some passes =>
    if l.beats.isNone then (l, []) else { l with passes }.startPlaying m

/-- A loop that plays keeps its place in beats. -/
def setTempo (l : Loop) (bpm : Float) (m : Moment) : Response Loop :=
  if !l.playing then ({ l with tempo := l.tempo.setBpm bpm }, [])
  else
    let aligned := l.align m.now
    let tempo := l.tempo.setBpm bpm
    let offset := tempo.roundTicks (aligned.beatAt m.now)
    { aligned with tempo, passStart := m.now - offset }.resync m

/-! ## Recording -/

/-- Puts an event into a layer that is being recorded. -/
def add (l : Loop) (e : Event) (m : Moment) : Loop :=
  if l.recording then
    let last := l.layers.length - 1
    { l with layers := l.layers.modify last fun layer => layer ++ [(l.beatAt m.now, e)] }
  else l

/-- Begins a layer. A loop of known length starts to play with it. -/
def startRecording (l : Loop) (m : Moment) : Response Loop :=
  if l.recording then (l, [])
  else
    let (ready, actions) :=
      if l.playing then (l, [])
      else if l.beats.isSome then l.startPlaying m
      else ({ l with passStart := m.now }, [])
    ({ ready with recording := true, layers := ready.layers ++ [[]] }, actions)

/-- Ends a layer. The first one sets the length, unless no time has passed: then it is dropped. -/
def endLayer (l : Loop) (m : Moment) : Loop :=
  let ended := { l with recording := false }
  if l.recording && l.beats.isNone then
    let elapsed := l.tempo.toBeats (Float.ofNat (m.now - l.passStart))
    if elapsed > 0.0 then { ended with beats := some elapsed }
    else { ended with layers := l.layers.dropLast }
  else ended

/-- Keeps only the first layers. -/
def keepLayers (l : Loop) (keep : Option Nat) : Loop :=
  let layers := match keep with
    | some n => l.layers.take n
    | none => l.layers
  { l with layers, timeline := Layer.merge layers }

/-- Stops and forgets its length, with no layer left. -/
def becomeEmpty (l : Loop) : Response Loop :=
  let (stopped, actions) := if l.playing then l.stop else (l, [])
  ({ stopped with beats := l.fixedBeats }, actions)

/-- Ends the recording, keeps only the first layers where a number of them is given, and plays
what has been recorded. -/
def stopRecording (l : Loop) (keep : Option Nat) (m : Moment) : Response Loop :=
  let kept := (l.endLayer m).keepLayers keep
  if kept.layers.isEmpty then kept.becomeEmpty
  else if kept.playing then kept.resync m
  else if l.recording then { kept with passes := none }.startPlaying m
  else (kept, [])

def record (l : Loop) (value : Float) (m : Moment) : Response Loop :=
  if value > 0.0 then l.startRecording m
  else if value == 0.0 then l.stopRecording none m
  else if value < 0.0 then
    let undone := Binary64.toWord64 (Binary64.round value.abs)
    l.stopRecording (some (l.layers.length - undone)) m
  else (l, [])

/-! ## Calls -/

def respond (l : Loop) (m : Moment) : Call → Response Loop
  | .play loops => l.play loops m
  | .tempo bpm => l.setTempo bpm m
  | .record value => l.record value m
  | .add e => (l.add e m, [])
  | .dismiss => { l with recording := false }.stop
  | .wake => l.wake
  | .swing _ | .groove _ | .seek _ | .fileTick _ => (l, [])

end Loop

end MidiRig
