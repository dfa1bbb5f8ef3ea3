import MidiRig.Engine.Basic
import MidiRig.Stage.Directory

/-!
# The stage

An engine with the players that use it. Calls go to players by name, by number or to all of them.
A player that is added again with the same definition stays as it is; with another one it gives
way to a new player. A player that leaves is dismissed first, and takes with it what it has queued.
-/

namespace MidiRig

structure Stage where
  engine : Engine
  directory : Directory
  deriving Repr

namespace Stage

def make (ticksPerSecond : Float) (config : SequencerConfig) : Stage :=
  { engine := .make ticksPerSecond, directory := .make config }

/-! ## Calls -/

/-- Calls the first player of those asked for, if there is one. -/
def ask? (s : Stage) (asked : Member → Bool) (c : Call) : Option Stage :=
  (Member.ask? asked s.engine.moment c s.directory.members).map fun answer =>
    { engine := s.engine.perform answer.id answer.actions
      directory := { s.directory with members := answer.members } }

def call? (s : Stage) (name : String) (c : Call) : Option Stage :=
  s.ask? (fun member => member.name == name) c

def callId? (s : Stage) (id : Nat) (c : Call) : Option Stage :=
  s.ask? (fun member => member.id == id) c

/-- A call to a player that is not there does nothing. -/
def call (s : Stage) (name : String) (c : Call) : Stage := (s.call? name c).getD s

/-- A call to a player that is not there does nothing. -/
def callId (s : Stage) (id : Nat) (c : Call) : Stage := (s.callId? id c).getD s

/-- Calls every player in turn. -/
def callAll (s : Stage) (c : Call) : Stage :=
  let answer (member : Member) := member.player.respond s.engine.moment c
  { engine := s.directory.members.foldl
      (fun engine member => engine.perform member.id (answer member).2) s.engine
    directory :=
      { s.directory with
        members := s.directory.members.map fun member =>
          { member with player := (answer member).1 } } }

/-! ## Adding and removing players -/

/-- Dismisses a player and takes it out. -/
def remove (s : Stage) (name : String) : Stage :=
  let dismissed := s.call name .dismiss
  { dismissed with directory := dismissed.directory.erase name }

/-- Makes a new player in place of one that has the name. -/
def create (s : Stage) (name : String) (definition : PlayerDef) :
    Except Fault (Nat × Stage) := do
  definition.validate name
  let cleared := s.remove name
  let directory := cleared.directory.push name definition cleared.engine.ticksPerSecond
  return (cleared.directory.nextId, { cleared with directory })

/-- Adds a player and gives its number. -/
def add (s : Stage) (name : String) (definition : PlayerDef) : Except Fault (Nat × Stage) :=
  match s.directory.find? name with
  | some member =>
    if member.definition == definition then .ok (member.id, s) else s.create name definition
  | none => s.create name definition

/-- Removes the players whose names are not kept. -/
def keepOnly (s : Stage) (kept : List String) : Stage :=
  (s.directory.names.filter fun name => !kept.contains name).foldl remove s

end Stage

end MidiRig
