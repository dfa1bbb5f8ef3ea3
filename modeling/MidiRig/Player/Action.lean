import MidiRig.Clock.Tempo
import MidiRig.Engine.Path
import MidiRig.Event.Basic

/-!
# What players are told and what they ask for

A player is a state machine apart from the engine. An operation on it sees the engine as it is at
that moment, and answers with the new player and with actions for the engine to perform in order.
So what a player does depends on its own history and on the clock alone.
-/

namespace MidiRig

/-- What a player sees of the engine. -/
structure Moment where
  now : Nat
  /-- Ticks of a beat in the file that plays. -/
  resolution : Nat
  deriving DecidableEq, Repr

/-- What a player asks of the engine. -/
inductive Action where
  /-- Play an event at a tick. -/
  | event (e : Event) (tick : Nat)
  /-- Wake the player at a tick. -/
  | callback (tick : Nat)
  /-- Forget everything queued for the player. -/
  | cancel
  /-- Play an event now. -/
  | send (e : Event)
  | filePlay (path : Path)
  | fileStop
  | fileSeek (position : Nat)
  | fileTempo (bpm : Float)
  deriving Repr

/-- The player after an operation, and its actions. -/
abbrev Response (α : Type) := α × List Action

/-- What can be asked of any player. One that has no use for it does nothing. -/
inductive Call where
  /-- Less than zero plays for ever, more than zero that many times; zero stops. -/
  | play (loops : Float)
  | tempo (bpm : Float)
  /-- More than zero starts a layer; zero ends it; less than zero ends it and undoes that many. -/
  | record (value : Float)
  | swing (share : Float)
  | groove (accents : List Float)
  /-- A key or another event for players that take them. -/
  | add (e : Event)
  /-- Go on at this bar, from 1, at the next bar line. -/
  | seek (bar : Nat)
  /-- The position of the file that plays. -/
  | fileTick (position : Nat)
  /-- Stop for good. -/
  | dismiss
  /-- A callback has come. -/
  | wake
  deriving Repr

/-- How often a call to play asks for: `none` not at all, `some none` for ever. A number that is
not finite asks for nothing, and a fraction for the nearest whole number, at least one. -/
def playCount? (loops : Float) : Option (Option Nat) :=
  if !Binary64.isFinite loops || loops == 0.0 then none
  else if loops < 0.0 then some none
  else some (some (max (Binary64.toWord32 (Binary64.round loops)) 1))

theorem playCount?_pos {loops : Float} {passes : Nat} (h : playCount? loops = some (some passes)) :
    0 < passes := by
  unfold playCount? at h
  split at h
  · cases h
  · split at h
    · cases h
    · cases h
      exact Nat.lt_of_lt_of_le Nat.zero_lt_one (Nat.le_max_right _ _)

/-- Velocities of notes. -/
def velocity (x : Float) : Float := Binary64.clamp 0.0 127.0 (Binary64.round x)

/-- Note-offs that are queued and not yet due, with their ticks. -/
abbrev Sounding := List (Nat × Event)

namespace Sounding

/-- Without those that are due. -/
def prune (s : Sounding) (now : Nat) : Sounding := s.filter fun off => now < off.1

/-- Plays what is not yet due at once. -/
def release (s : Sounding) (now : Nat) : List Action :=
  (s.prune now).map fun off => .send off.2

end Sounding

/-- The note-off of an event that presses a key. -/
def noteOffs (length tick : Nat) (e : Event) : Sounding :=
  if e.isKeyDown then [(tick + length, e.release)] else []

/-- Queues an event and the note-off that ends it. -/
def strike (length tick : Nat) (e : Event) : List Action :=
  .event e tick :: (noteOffs length tick e).map fun off => .event off.2 off.1

end MidiRig
