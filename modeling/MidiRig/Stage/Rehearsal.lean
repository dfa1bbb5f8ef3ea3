import MidiRig.Stage.Drain

/-!
# Rehearsals

A single player with an engine of its own. Its definition need not be a valid one, and the events
that it queues are handed out instead of being played.
-/

namespace MidiRig

structure Rehearsal where
  engine : Engine
  player : Player
  deriving Repr

namespace Rehearsal

/-- The number of the player. -/
def playerId : Nat := 1

def make (definition : PlayerDef) (config : SequencerConfig) (ticksPerSecond : Float) :
    Rehearsal :=
  let engine := Engine.make ticksPerSecond
  { engine, player := Player.make definition config engine.ticksPerSecond }

/-- Takes the response of the player. -/
def take (r : Rehearsal) (response : Response Player) : Rehearsal :=
  { engine := r.engine.perform playerId response.2, player := response.1 }

def call (r : Rehearsal) (c : Call) : Rehearsal := r.take (r.player.respond r.engine.moment c)

/-- Ends the recording of a loop, and keeps only its first layers where a number is given. -/
def stopRecording (r : Rehearsal) (keep : Option Nat) : Rehearsal :=
  match r.player with
  | .loop l => r.take ((l.stopRecording keep r.engine.moment).map .loop id)
  | _ => r

/-! ## Letting time pass -/

/-- What is left to deliver up to a tick: work of the player, then items. -/
def load (r : Rehearsal) (limit : Nat) : Nat × Nat :=
  (r.player.work limit, r.engine.queue.dueBy limit)

/-- Every callback wakes the player. -/
def deliver (r : Rehearsal) (item : Item) : Rehearsal :=
  match item.due with
  | .callback _ => r.call .wake
  | .event .. => r

theorem load_deliver {r : Rehearsal} {limit : Nat} {item : Item} {popped : Engine}
    (h : r.engine.popDue? limit = some (item, popped)) :
    Prod.Lex (· < ·) (· < ·) (({ r with engine := popped }.deliver item).load limit)
      (r.load limit) := by
  have fewer := r.engine.dueBy_of_popDue? h
  apply lex_of_eased
  simp only [deliver]
  split
  · refine (r.player.eases_wake popped.moment limit).imp_right fun ⟨le, quiet⟩ => ⟨le, ?_⟩
    have := popped.dueBy_perform_le playerId quiet
    simp only [call, take]
    omega
  · refine .inr ⟨Nat.le_refl _, ?_⟩
    change popped.queue.dueBy limit < r.engine.queue.dueBy limit
    omega

/-- Delivers everything that is due up to `limit`, in order, and gives what was delivered. The
clock stays at the last item. -/
def run (r : Rehearsal) (limit : Nat) : List Item × Rehearsal :=
  match _h : r.engine.popDue? limit with
  | none => ([], r)
  | some (item, popped) =>
    let (items, last) := ({ r with engine := popped }.deliver item).run limit
    (item :: items, last)
termination_by r.load limit
decreasing_by exact load_deliver (by assumption)

end Rehearsal

end MidiRig
