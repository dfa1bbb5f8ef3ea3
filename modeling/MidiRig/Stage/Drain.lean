import MidiRig.Engine.Perform
import MidiRig.Stage.Basic

/-!
# Letting time pass

Time passes by delivering what is due, item by item: a callback wakes its player, an event is
played. Players queue more as they are woken, also for the same tick, and yet this ends: each
delivery lessens the work of the players, or leaves it and takes an item from those that are due.
-/

namespace MidiRig

/-- The work left for all players. -/
def membersWork (limit : Nat) : List Member → Nat
  | [] => 0
  | member :: rest => member.player.work limit + membersWork limit rest

theorem eases_ask? {asked : Member → Bool} {m : Moment} {members : List Member} {answer : Answer}
    (limit : Nat) (h : Member.ask? asked m .wake members = some answer) :
    Eases limit (membersWork limit members) (membersWork limit answer.members) answer.actions := by
  induction members generalizing answer with
  | nil => simp [Member.ask?] at h
  | cons member rest ih =>
    simp only [Member.ask?] at h
    split at h
    · cases h
      rcases member.player.eases_wake m limit with less | ⟨le, quiet⟩
      · exact .inl (Nat.add_lt_add_right less _)
      · exact .inr ⟨Nat.add_le_add_right le _, quiet⟩
    · obtain ⟨inner, found, rfl⟩ := Option.map_eq_some_iff.1 h
      rcases ih found with less | ⟨le, quiet⟩
      · exact .inl (Nat.add_lt_add_left less _)
      · exact .inr ⟨Nat.add_le_add_left le _, quiet⟩

/-- Less work, or no more of it and fewer items that are due. -/
theorem lex_of_eased {work work' due due' : Nat}
    (h : work' < work ∨ (work' ≤ work ∧ due' < due)) :
    Prod.Lex (· < ·) (· < ·) (work', due') (work, due) := by
  rcases h with less | ⟨le, less⟩
  · exact .left _ _ less
  · rcases Nat.lt_or_eq_of_le le with lt | rfl
    · exact .left _ _ lt
    · exact .right _ less

namespace Stage

/-- What is left to deliver up to a tick: work of the players, then items. -/
def load (s : Stage) (limit : Nat) : Nat × Nat :=
  (membersWork limit s.directory.members, s.engine.queue.dueBy limit)

theorem load_wake (s : Stage) (id limit : Nat) :
    ((s.callId id .wake).load limit).1 < (s.load limit).1 ∨
      (((s.callId id .wake).load limit).1 ≤ (s.load limit).1 ∧
        ((s.callId id .wake).load limit).2 ≤ (s.load limit).2) := by
  simp only [callId, callId?, ask?]
  cases h : Member.ask? (fun member => member.id == id) s.engine.moment .wake
    s.directory.members with
  | none => exact .inr ⟨Nat.le_refl _, Nat.le_refl _⟩
  | some answer =>
    rcases eases_ask? limit h with less | ⟨le, quiet⟩
    · exact .inl less
    · exact .inr ⟨le, s.engine.dueBy_perform_le answer.id quiet⟩

/-- Does what is due. -/
def deliver (s : Stage) (item : Item) : Stage :=
  match item.due with
  | .callback player => s.callId player .wake
  | .event _ e => { s with engine := s.engine.send e false }

theorem load_deliver {s : Stage} {limit : Nat} {item : Item} {popped : Engine}
    (h : s.engine.popDue? limit = some (item, popped)) :
    Prod.Lex (· < ·) (· < ·) (({ s with engine := popped }.deliver item).load limit)
      (s.load limit) := by
  have fewer := s.engine.dueBy_of_popDue? h
  apply lex_of_eased
  simp only [deliver]
  split
  · rename_i player _
    refine ({ s with engine := popped }.load_wake player limit).imp_right fun eased => ?_
    simp only [load] at eased ⊢
    omega
  · refine .inr ⟨Nat.le_refl _, ?_⟩
    simp only [Engine.send]
    omega

/-- Delivers everything that is due up to `limit`, in order, and gives what was delivered. The
clock stays at the last item. -/
def drain (s : Stage) (limit : Nat) : List Item × Stage :=
  match _h : s.engine.popDue? limit with
  | none => ([], s)
  | some (item, popped) =>
    let (items, last) := ({ s with engine := popped }.deliver item).drain limit
    (item :: items, last)
termination_by s.load limit
decreasing_by exact load_deliver (by assumption)

/-- Lets time pass until `limit`. -/
def advance (s : Stage) (limit : Nat) : List Item × Stage :=
  let (items, last) := s.drain limit
  (items, { last with engine := last.engine.setTick limit })

end Stage

end MidiRig
