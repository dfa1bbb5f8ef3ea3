import MidiRig.Engine.Basic
import MidiRig.Player.Work

/-!
# Actions and what is due

What is left of the items due by a tick after one of them has left the queue, and after a player's
actions. Actions that are quiet until that tick add nothing to them.
-/

namespace MidiRig.Engine

theorem dueBy_of_popDue? {e popped : Engine} {limit : Nat} {item : Item}
    (h : e.popDue? limit = some (item, popped)) :
    popped.queue.dueBy limit + 1 = e.queue.dueBy limit := by
  simp only [popDue?] at h
  split at h
  · rename_i first found
    split at h
    · rename_i due
      cases h
      exact Queue.dueBy_rest found due
    · cases h
  · cases h

theorem dueBy_act_le {limit : Nat} {a : Action} (player : Nat) (e : Engine)
    (quiet : a.isDueBy limit = false) :
    (e.act player a).queue.dueBy limit ≤ e.queue.dueBy limit := by
  cases a with
  | event event tick =>
    have := of_decide_eq_false quiet
    exact Nat.le_of_eq (Queue.dueBy_insert_of_lt _ _ (by omega))
  | callback tick =>
    have := of_decide_eq_false quiet
    exact Nat.le_of_eq (Queue.dueBy_insert_of_lt _ _ (by omega))
  | cancel => exact Queue.dueBy_removePlayer_le ..
  | _ => exact Nat.le_refl _

theorem dueBy_perform_le {limit : Nat} {actions : List Action} (player : Nat) (e : Engine)
    (quiet : QuietUntil limit actions) :
    (e.perform player actions).queue.dueBy limit ≤ e.queue.dueBy limit := by
  induction actions generalizing e with
  | nil => exact Nat.le_refl _
  | cons a rest ih =>
    obtain ⟨head, tail⟩ := quietUntil_cons.1 quiet
    exact Nat.le_trans (ih (e.act player a) tail) (dueBy_act_le player e head)

end MidiRig.Engine
