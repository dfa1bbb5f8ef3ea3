import MidiRig.Clock.Meter
import MidiRig.Clock.Stepping
import MidiRig.Engine.Path
import MidiRig.Fault
import MidiRig.Player.Cell

/-!
# Player definitions

What a player is made from:

- a sequence steps through patterns in an order;
- an arpeggio plays the keys that are held;
- a loop records events and repeats them;
- a track drives the engine's file transport and jumps between bars.

`problem?` tells the first thing wrong with a definition. It is asked before a player is made, so
players themselves need not expect bad definitions.
-/

namespace MidiRig

structure SequenceDef where
  patterns : List Pattern
  /-- Pattern numbers from 1; `-n` goes back by `n` entries once a pass, `0` stops. Without an
  order the patterns play in turn. -/
  order : List Int
  division : Nat
  swing : Float
  groove : List Float
  tempo : Option Float
  deriving BEq, Repr

/-- Which of the held keys an arpeggio plays, in which order. -/
inductive ArpeggioStyle where
  | up
  | down
  /-- Up, and down again without the keys at the ends. -/
  | both
  /-- All of them on every step. -/
  | chord
  /-- As they were pressed. -/
  | manual
  deriving DecidableEq, Repr

structure ArpeggioDef where
  style : ArpeggioStyle
  division : Nat
  swing : Float
  groove : List Float
  tempo : Option Float
  deriving BEq, Repr

structure LoopDef where
  /-- A fixed length. Without it the first recording gives the length. -/
  beats : Option Float
  tempo : Option Float
  deriving BEq, Repr

/-- On reaching bar `source` the file goes on at bar `target`, or stops where that is `0`. -/
structure Jump where
  source : Nat
  target : Nat
  deriving DecidableEq, Repr

structure TrackDef where
  file : Path
  jumps : List Jump
  meter : Meter
  tempo : Option Float
  deriving BEq, Repr

inductive PlayerDef where
  | sequence (d : SequenceDef)
  | arpeggio (d : ArpeggioDef)
  | loop (d : LoopDef)
  | track (d : TrackDef)
  deriving BEq, Repr

def SequenceDef.default : SequenceDef :=
  { patterns := [], order := [], division := 8, swing := 0.5, groove := Stepping.plainGroove,
    tempo := none }

def ArpeggioDef.default : ArpeggioDef :=
  { style := .up, division := 16, swing := 0.5, groove := Stepping.plainGroove, tempo := none }

def LoopDef.default : LoopDef := { beats := none, tempo := none }

namespace SequenceDef

/-- The order that is played. -/
def playedOrder (d : SequenceDef) : List Int :=
  if d.order.isEmpty then (List.range d.patterns.length).map fun (k : Nat) => (k : Int) + 1
  else d.order

/-- The first entry of the order that names no pattern. -/
def missingPattern? (d : SequenceDef) : Option Int :=
  d.order.find? fun entry => d.patterns.length < entry

def problem? (d : SequenceDef) : Option PlayerProblem :=
  if d.patterns.isEmpty then some .noPatterns
  else
    match d.patterns.findIdx? (fun pattern => pattern.length == 0) with
    | some k => some (.emptyPattern (k + 1))
    | none =>
      if d.division = 0 then some .noSubdivision
      else
        match d.missingPattern? with
        | some entry => some (.missingPattern entry)
        | none =>
          if !d.order.isEmpty && !d.order.any (0 < ·) then some .neverPlays else none

end SequenceDef

def LoopDef.problem? (d : LoopDef) : Option PlayerProblem :=
  match d.beats with
  | some beats => if Tempo.isRate beats then none else some .loopLength
  | none => none

def TrackDef.problem? (d : TrackDef) : Option PlayerProblem :=
  if d.file.isEmpty then some .noFile
  else if d.jumps.any (·.source == 0) then some .jumpBar
  else none

namespace PlayerDef

def problem? : PlayerDef → Option PlayerProblem
  | sequence d => d.problem?
  | arpeggio _ => none
  | loop d => d.problem?
  | track d => d.problem?

/-- Refuses a definition with a problem. -/
def validate (d : PlayerDef) (name : String) : Except Fault Unit :=
  match d.problem? with
  | some problem => .error (.player name problem)
  | none => .ok ()

end PlayerDef

end MidiRig
