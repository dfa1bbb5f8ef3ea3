import MidiRig.Config
import MidiRig.Player.Basic

/-!
# The directory of players

Players have a name, by which rules call them, and a number, by which the engine knows them.
Numbers are never given twice.
-/

namespace MidiRig

structure Member where
  id : Nat
  name : String
  definition : PlayerDef
  player : Player
  deriving Repr

/-- The answer of a player in a list: its number, its actions, and the list after it. -/
structure Answer where
  id : Nat
  actions : List Action
  members : List Member
  deriving Repr

/-- Calls the first player of those asked for. -/
def Member.ask? (asked : Member → Bool) (m : Moment) (c : Call) : List Member → Option Answer
  | [] => none
  | member :: rest =>
    if asked member then
      let (player, actions) := member.player.respond m c
      some ⟨member.id, actions, { member with player } :: rest⟩
    else
      (ask? asked m c rest).map fun answer => { answer with members := member :: answer.members }

structure Directory where
  members : List Member
  /-- The number of the next player. -/
  nextId : Nat
  config : SequencerConfig
  deriving Repr

namespace Directory

def make (config : SequencerConfig) : Directory := { members := [], nextId := 1, config }

def find? (d : Directory) (name : String) : Option Member :=
  d.members.find? fun member => member.name == name

def names (d : Directory) : List String := d.members.map Member.name

/-- Puts a new player behind the others. -/
def push (d : Directory) (name : String) (definition : PlayerDef) (ticksPerSecond : Float) :
    Directory :=
  let player := Player.make definition d.config ticksPerSecond
  { d with members := d.members ++ [⟨d.nextId, name, definition, player⟩], nextId := d.nextId + 1 }

/-- Without a player. -/
def erase (d : Directory) (name : String) : Directory :=
  { d with members := d.members.eraseP fun member => member.name == name }

end Directory

end MidiRig
