import MidiRig.Player.Action
import MidiRig.Player.Definition

/-!
# Tracks

A track plays a file on the engine's transport and follows its position. At a bar line it goes
where it has been asked to; on reaching the bar of a jump it goes to the target of that jump, or
stops. Bars are counted from 1.
-/

namespace MidiRig

structure Track where
  file : Path
  jumps : List Jump
  meter : Meter
  tempo : Option Float
  playing : Bool
  /-- Position of the last report, seek or jump. -/
  lastTick : Nat
  /-- The bar to go to at the next bar line. -/
  pending : Option Nat
  deriving Repr

namespace Track

def make (d : TrackDef) : Track :=
  { file := d.file
    jumps := d.jumps
    meter := d.meter
    tempo := d.tempo
    playing := false
    lastTick := 0
    pending := none }

/-! ## Bars -/

/-- Length of a bar in a file of some resolution, at least one tick. -/
def barLength (meter : Meter) (resolution : Nat) : Nat :=
  max (Binary64.toWord64 (Binary64.round (Float.ofNat resolution * meter.beatsPerBar))) 1

/-- Position at which a bar starts. -/
def barStart (length bar : Nat) : Nat := (bar - 1) * length

/-- Whether the way from `last` to `now` reaches a bar line. -/
def crossesBar (length last now : Nat) : Bool := now % length < now - last

/-- The jump that is taken on the way from `last` to `now`. -/
def jump? (jumps : List Jump) (length last now : Nat) : Option Jump :=
  jumps.find? fun jump =>
    last < barStart length jump.source && barStart length jump.source ≤ now

/-! ## Playing -/

def stop (t : Track) : Response Track :=
  if t.playing then ({ t with playing := false, pending := none }, [.fileStop]) else (t, [])

/-- Starts the file, whatever the count, or stops it. -/
def play (t : Track) (loops : Float) : Response Track :=
  match playCount? loops with
  | none => t.stop
  | some _ =>
    ({ t with playing := true, lastTick := 0 },
      .filePlay t.file :: (t.tempo.map Action.fileTempo).toList)

def setTempo (t : Track) (bpm : Float) : Response Track :=
  if Tempo.isRate bpm then ({ t with tempo := some bpm }, [.fileTempo bpm]) else (t, [])

def seek (t : Track) (bar : Nat) : Track := { t with pending := some (max bar 1) }

/-- Goes on at another position. -/
def moveTo (t : Track) (position : Nat) : Response Track :=
  ({ t with lastTick := position }, [.fileSeek position])

/-- Takes a jump if one is reached, and follows the position otherwise. -/
def follow (t : Track) (length now : Nat) : Response Track :=
  match jump? t.jumps length t.lastTick now with
  | some jump => if jump.target = 0 then t.stop else t.moveTo (barStart length jump.target)
  | none => ({ t with lastTick := now }, [])

/-- Takes a report of the position. -/
def fileTick (t : Track) (now : Nat) (m : Moment) : Response Track :=
  if !t.playing then (t, [])
  else
    let length := barLength t.meter m.resolution
    match t.pending with
    | some bar =>
      if crossesBar length t.lastTick now then
        { t with pending := none }.moveTo (barStart length bar)
      else t.follow length now
    | none => t.follow length now

/-! ## Calls -/

def respond (t : Track) (m : Moment) : Call → Response Track
  | .play loops => t.play loops
  | .tempo bpm => t.setTempo bpm
  | .seek bar => (t.seek bar, [])
  | .fileTick now => t.fileTick now m
  | .dismiss => t.stop
  | .record _ | .swing _ | .groove _ | .add _ | .wake => (t, [])

end Track

end MidiRig
