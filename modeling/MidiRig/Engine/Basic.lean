import MidiRig.Data.Dict
import MidiRig.Engine.Path
import MidiRig.Engine.Queue
import MidiRig.Player.Action
import MidiRig.Rule.Basic

/-!
# The sound engine

An engine that keeps a record of what it plays. It has

- a clock that never goes back, and a queue of what is to be done at later ticks;
- a table of rules that it applies by itself to the events that are sent to be routed;
- settings and the ports of effects;
- a transport that plays one file.
-/

namespace MidiRig

/-- An event that has been played. -/
structure Sent where
  tick : Nat
  event : Event
  /-- Whether the engine's own rules were applied to it. -/
  routed : Bool
  deriving BEq, Repr

/-- What the transport does. -/
structure Transport where
  path : Option Path
  playing : Bool
  position : Nat
  tempo : Option Float
  deriving BEq, Repr

namespace Transport

def idle : Transport := ⟨none, false, 0, none⟩

/-- Plays a file: from where it stands if it is the same file, else from its beginning. -/
def play (t : Transport) (path : Path) : Transport :=
  { t with
    path := some path
    playing := true
    position := if t.path == some path then t.position else 0 }

end Transport

structure Engine where
  now : Nat
  ticksPerSecond : Float
  /-- Ticks of a beat in the file that plays. -/
  fileResolution : Nat
  queue : Queue
  /-- What has been played, first event first. -/
  sent : List Sent
  /-- What the engine's own rules have given. -/
  routed : List Event
  /-- The engine's own rules, in the order in which they were added. -/
  native : List Rule
  settings : Dict Float
  /-- The ports of each effect. -/
  ports : Dict (Dict Float)
  transport : Transport
  deriving Repr

namespace Engine

def make (ticksPerSecond : Float) : Engine :=
  { now := 0
    ticksPerSecond
    fileResolution := 480
    queue := .empty
    sent := []
    routed := []
    native := []
    settings := .empty
    ports := .empty
    transport := .idle }

/-! ## Clock and queue -/

def moment (e : Engine) : Moment := ⟨e.now, e.fileResolution⟩

/-- Moves the clock, unless that would be backwards. -/
def setTick (e : Engine) (tick : Nat) : Engine := { e with now := max e.now tick }

/-- Queues something; what would be past is due at once. -/
def enqueue (e : Engine) (tick : Nat) (due : Due) : Engine :=
  { e with queue := e.queue.insert (max tick e.now) due }

def schedule (e : Engine) (player : Nat) (tick : Nat) (event : Event) : Engine :=
  e.enqueue tick (.event player event)

def scheduleCallback (e : Engine) (player : Nat) (tick : Nat) : Engine :=
  e.enqueue tick (.callback player)

def cancel (e : Engine) (player : Nat) : Engine :=
  { e with queue := e.queue.removePlayer player }

def pending (e : Engine) (player : Nat) : Nat := e.queue.pending player

/-- Tick of the item that leaves next. -/
def nextDue? (e : Engine) : Option Nat := e.queue.first?.map Item.tick

/-- Takes the first item that is due at `limit` or before, and moves the clock to its tick. -/
def popDue? (e : Engine) (limit : Nat) : Option (Item × Engine) :=
  match e.queue.first? with
  | some item =>
    if item.tick ≤ limit then some (item, { e.setTick item.tick with queue := e.queue.rest })
    else none
  | none => none

/-! ## Playing and routing -/

/-- What the engine's own rules give for an event. The rule added last is asked first. -/
def route (e : Engine) (event : Event) : List Event :=
  (e.native.reverse.filter fun rule => rule.applies event).map fun rule => (rule.apply event).event

/-- Plays an event, and applies the engine's own rules to it where that is wanted. -/
def send (e : Engine) (event : Event) (routed : Bool) : Engine :=
  { e with
    routed := if routed then e.routed ++ e.route event else e.routed
    sent := e.sent ++ [⟨e.now, event, routed⟩] }

/-- Forgets what has been played. -/
def clearSent (e : Engine) : Engine := { e with sent := [] }

def addNative (e : Engine) (rule : Rule) : Engine := { e with native := e.native ++ [rule] }

def clearNative (e : Engine) : Engine := { e with native := [] }

/-! ## Settings and ports -/

def setSetting (e : Engine) (name : String) (value : Float) : Engine :=
  { e with settings := e.settings.insert name value }

def setting? (e : Engine) (name : String) : Option Float := e.settings.get? name

def setPort (e : Engine) (effect port : String) (value : Float) : Engine :=
  let ports := ((e.ports.get? effect).getD .empty).insert port value
  { e with ports := e.ports.insert effect ports }

def port? (e : Engine) (effect port : String) : Option Float :=
  (e.ports.get? effect).bind fun ports => ports.get? port

/-! ## Files -/

def filePlay (e : Engine) (path : Path) : Engine := { e with transport := e.transport.play path }

def fileStop (e : Engine) : Engine := { e with transport.playing := false }

def fileSeek (e : Engine) (position : Nat) : Engine :=
  { e with transport.position := position }

def fileTempo (e : Engine) (bpm : Float) : Engine := { e with transport.tempo := some bpm }

/-- A file has at least one tick a beat. -/
def setFileResolution (e : Engine) (ticks : Nat) : Engine :=
  { e with fileResolution := max ticks 1 }

/-! ## Actions of players -/

/-- Does what a player asks for. -/
def act (e : Engine) (player : Nat) : Action → Engine
  | .event event tick => e.schedule player tick event
  | .callback tick => e.scheduleCallback player tick
  | .cancel => e.cancel player
  | .send event => e.send event false
  | .filePlay path => e.filePlay path
  | .fileStop => e.fileStop
  | .fileSeek position => e.fileSeek position
  | .fileTempo bpm => e.fileTempo bpm

/-- Does what a player asks for, in order. -/
def perform (e : Engine) (player : Nat) (actions : List Action) : Engine :=
  actions.foldl (fun engine a => engine.act player a) e

end Engine

end MidiRig
