import MidiRig.Engine.Basic

/-!
# The queue as one player sees it

All players share one queue. `Queue.agenda q p` is the part of it that belongs to player `p`, with
the serial numbers left out: what is queued, in the order in which it leaves. The lemmas say what
each operation of the queue does to the agenda of the player it is for, and that it leaves every
other agenda alone. So a player with its agenda can be looked at by itself: `Agenda.perform` is
what a list of actions does to it.
-/

namespace MidiRig

/-- What waits for a tick: an event to play or, without one, a callback. -/
structure Slot where
  tick : Nat
  event : Option Event

/-- What is queued for one player, in the order in which it leaves. -/
abbrev Agenda := List Slot

def Due.event? : Due → Option Event
  | .callback _ => none
  | .event _ e => some e

def Item.slot (i : Item) : Slot := ⟨i.tick, i.due.event?⟩

namespace Agenda

/-- Puts something behind all that is due no later. -/
def put (x : Slot) : Agenda → Agenda
  | [] => [x]
  | first :: rest => if first.tick ≤ x.tick then first :: put x rest else x :: first :: rest

/-- What one action does to the agenda of the player that asks for it. -/
def act (now : Nat) (a : Agenda) : Action → Agenda
  | .event e tick => put ⟨max tick now, some e⟩ a
  | .callback tick => put ⟨max tick now, none⟩ a
  | .cancel => []
  | _ => a

def perform (now : Nat) (a : Agenda) (actions : List Action) : Agenda := actions.foldl (act now) a

/-- Earlier ticks come first. -/
def Sorted (a : Agenda) : Prop := a.Pairwise fun x y => x.tick ≤ y.tick

theorem perm_put (x : Slot) (a : Agenda) : (put x a).Perm (x :: a) := by
  induction a with
  | nil => exact .refl _
  | cons first rest ih =>
    unfold put
    split
    · exact (ih.cons first).trans (.swap x first rest)
    · exact .refl _

theorem mem_put {x y : Slot} {a : Agenda} : y ∈ put x a ↔ y = x ∨ y ∈ a := by
  rw [(perm_put x a).mem_iff, List.mem_cons]

theorem sorted_put (x : Slot) {a : Agenda} (h : Sorted a) : Sorted (put x a) := by
  induction a with
  | nil => exact List.pairwise_singleton _ _
  | cons first rest ih =>
    obtain ⟨hfirst, hrest⟩ := List.pairwise_cons.mp h
    unfold put
    split
    · next hle =>
      refine List.pairwise_cons.mpr ⟨fun y hy => ?_, ih hrest⟩
      rcases mem_put.mp hy with rfl | hy
      · exact hle
      · exact hfirst y hy
    · next hgt =>
      refine List.pairwise_cons.mpr ⟨fun y hy => ?_, h⟩
      rcases List.mem_cons.mp hy with rfl | hy
      · omega
      · have := hfirst y hy
        omega

@[simp] theorem perform_nil (now : Nat) (a : Agenda) : perform now a [] = a := rfl

@[simp] theorem perform_cons (now : Nat) (a : Agenda) (x : Action) (xs : List Action) :
    perform now a (x :: xs) = perform now (act now a x) xs := rfl

@[simp] theorem perform_append (now : Nat) (a : Agenda) (xs ys : List Action) :
    perform now a (xs ++ ys) = perform now (perform now a xs) ys := List.foldl_append

/-- Events sent at once do not pass through the queue. -/
@[simp] theorem perform_release (now : Nat) (a : Agenda) (s : Sounding) (at_ : Nat) :
    perform now a (s.release at_) = a := by
  unfold Sounding.release
  induction s.prune at_ with
  | nil => rfl
  | cons _ _ ih => exact ih

theorem sorted_act (now : Nat) {a : Agenda} (h : Sorted a) (x : Action) : Sorted (act now a x) := by
  cases x with
  | event e tick => exact sorted_put _ h
  | callback tick => exact sorted_put _ h
  | cancel => exact List.Pairwise.nil
  | _ => exact h

theorem sorted_perform (now : Nat) {a : Agenda} (h : Sorted a) (xs : List Action) :
    Sorted (perform now a xs) := by
  induction xs generalizing a with
  | nil => exact h
  | cons x xs ih => exact ih (sorted_act now h x)

end Agenda

/-! ## Agendas of a queue -/

namespace Queue

/-- The items of a player. -/
def itemsOf (q : Queue) (player : Nat) : List Item := q.items.filter fun i => i.player == player

/-- What is queued for a player. -/
def agenda (q : Queue) (player : Nat) : Agenda := (q.itemsOf player).map Item.slot

theorem agenda_eq_nil_iff {q : Queue} {player : Nat} :
    q.agenda player = [] ↔ ∀ i ∈ q.items, i.player ≠ player := by
  unfold agenda itemsOf
  rw [List.map_eq_nil_iff, List.filter_eq_nil_iff]
  simp

theorem length_agenda (q : Queue) (player : Nat) :
    (q.agenda player).length = q.pending player := by
  unfold agenda itemsOf pending
  rw [List.length_map, List.countP_eq_length_filter]

theorem map_slot_insertItem (item : Item) (items : List Item) :
    (insertItem item items).map Item.slot = Agenda.put item.slot (items.map Item.slot) := by
  induction items with
  | nil => rfl
  | cons first rest ih =>
    simp only [insertItem, List.map_cons, Agenda.put]
    split
    · next h => rw [if_pos (show first.slot.tick ≤ item.slot.tick from h), List.map_cons, ih]
    · next h => rw [if_neg (show ¬ first.slot.tick ≤ item.slot.tick from h)]; rfl

/-- Order makes the place of a new item independent of the items that are filtered out. -/
theorem filter_insertItem (p : Item → Bool) {item : Item} {items : List Item}
    (h : items.Pairwise Item.Before) :
    (insertItem item items).filter p =
      if p item then insertItem item (items.filter p) else items.filter p := by
  induction items with
  | nil => by_cases hp : p item <;> simp [insertItem, hp]
  | cons first rest ih =>
    obtain ⟨hfirst, hrest⟩ := List.pairwise_cons.mp h
    simp only [insertItem]
    split
    · next hle =>
      rw [List.filter_cons, ih hrest, List.filter_cons]
      by_cases hp : p item <;> by_cases hf : p first <;> simp [hp, hf, insertItem, hle]
    · next hgt =>
      -- everything behind `first` is later than the item, so the item comes first in any case
      have hhead : ∀ (l : List Item), (∀ i ∈ l, item.tick < i.tick) →
          insertItem item l = item :: l := by
        intro l hl
        cases l with
        | nil => rfl
        | cons i l => rw [insertItem, if_neg (by have := hl i List.mem_cons_self; omega)]
      rw [List.filter_cons, hhead ((first :: rest).filter p)]
      intro i hi
      rcases List.mem_cons.mp (List.mem_filter.mp hi).1 with rfl | hi
      · omega
      · rcases hfirst i hi with h | ⟨h, _⟩ <;> omega

theorem agenda_insert_self (q : Queue) (tick : Nat) (due : Due) :
    (q.insert tick due).agenda due.player =
      Agenda.put ⟨tick, due.event?⟩ (q.agenda due.player) := by
  have hown : (Item.player ⟨tick, q.nextSerial, due⟩ == due.player) = true := beq_self_eq_true _
  unfold agenda itemsOf
  rw [insert, filter_insertItem _ q.ordered, if_pos hown, map_slot_insertItem]
  rfl

theorem itemsOf_insert_other (q : Queue) (tick : Nat) {due : Due} {player : Nat}
    (h : due.player ≠ player) : (q.insert tick due).itemsOf player = q.itemsOf player := by
  have hother : (Item.player ⟨tick, q.nextSerial, due⟩ == player) = false := beq_false_of_ne h
  unfold itemsOf
  rw [insert, filter_insertItem _ q.ordered, hother]
  rfl

theorem agenda_removePlayer_self (q : Queue) (player : Nat) :
    (q.removePlayer player).agenda player = [] := by
  rw [agenda_eq_nil_iff]
  intro i hi
  simpa using (List.mem_filter.mp hi).2

theorem itemsOf_removePlayer_other (q : Queue) {gone player : Nat} (h : gone ≠ player) :
    (q.removePlayer gone).itemsOf player = q.itemsOf player := by
  unfold itemsOf removePlayer
  rw [List.filter_filter]
  refine List.filter_congr fun i _ => ?_
  by_cases hi : i.player = player
  · simp [hi, Ne.symm h]
  · simp [hi]

theorem agenda_rest_self {q : Queue} {item : Item} (h : q.first? = some item) :
    q.agenda item.player = item.slot :: q.rest.agenda item.player := by
  obtain ⟨items, hq⟩ := List.head?_eq_some_iff.mp h
  unfold agenda itemsOf rest
  simp [hq]

theorem agenda_rest_other {q : Queue} {item : Item} (h : q.first? = some item) {player : Nat}
    (hne : item.player ≠ player) : q.rest.agenda player = q.agenda player := by
  obtain ⟨items, hq⟩ := List.head?_eq_some_iff.mp h
  unfold agenda itemsOf rest
  simp [hq, hne]

/-- Nothing in any agenda is due before the first item. -/
theorem first_le_agenda {q : Queue} {item : Item} (h : q.first? = some item) (player : Nat) :
    ∀ x ∈ q.agenda player, item.tick ≤ x.tick := by
  obtain ⟨items, hq⟩ := List.head?_eq_some_iff.mp h
  intro x hx
  obtain ⟨i, hi, rfl⟩ := List.mem_map.mp hx
  have hord := q.ordered
  rw [hq] at hord
  have hmem := (List.mem_filter.mp hi).1
  rw [hq] at hmem
  rcases List.mem_cons.mp hmem with rfl | hmem
  · exact Nat.le_refl _
  · rcases (List.pairwise_cons.mp hord).1 i hmem with h | ⟨h, _⟩
    · exact Nat.le_of_lt h
    · exact Nat.le_of_eq h

end Queue

/-! ## Actions -/

namespace Engine

theorem now_act (e : Engine) (player : Nat) (x : Action) : (e.act player x).now = e.now := by
  cases x <;> rfl

theorem now_perform (e : Engine) (player : Nat) (xs : List Action) :
    (e.perform player xs).now = e.now := by
  induction xs generalizing e with
  | nil => rfl
  | cons x xs ih => exact (ih (e.act player x)).trans (now_act e player x)

theorem rate_perform (e : Engine) (player : Nat) (xs : List Action) :
    (e.perform player xs).ticksPerSecond = e.ticksPerSecond := by
  induction xs generalizing e with
  | nil => rfl
  | cons x xs ih =>
    show ((e.act player x).perform player xs).ticksPerSecond = _
    rw [ih]
    cases x <;> rfl

theorem agenda_act_self (e : Engine) (player : Nat) (x : Action) :
    (e.act player x).queue.agenda player = (e.queue.agenda player).act e.now x := by
  cases x with
  | event event tick => exact e.queue.agenda_insert_self _ (.event player event)
  | callback tick => exact e.queue.agenda_insert_self _ (.callback player)
  | cancel => exact e.queue.agenda_removePlayer_self player
  | _ => rfl

theorem itemsOf_act_other (e : Engine) {player other : Nat} (h : player ≠ other) (x : Action) :
    (e.act player x).queue.itemsOf other = e.queue.itemsOf other := by
  cases x with
  | event event tick => exact e.queue.itemsOf_insert_other _ h
  | callback tick => exact e.queue.itemsOf_insert_other _ h
  | cancel => exact e.queue.itemsOf_removePlayer_other h
  | _ => rfl

theorem agenda_perform_self (e : Engine) (player : Nat) (xs : List Action) :
    (e.perform player xs).queue.agenda player = (e.queue.agenda player).perform e.now xs := by
  induction xs generalizing e with
  | nil => rfl
  | cons x xs ih =>
    show ((e.act player x).perform player xs).queue.agenda player = _
    rw [ih, agenda_act_self, now_act]
    rfl

theorem itemsOf_perform_other (e : Engine) {player other : Nat} (h : player ≠ other)
    (xs : List Action) : (e.perform player xs).queue.itemsOf other = e.queue.itemsOf other := by
  induction xs generalizing e with
  | nil => rfl
  | cons x xs ih => exact (ih (e.act player x)).trans (itemsOf_act_other e h x)

theorem agenda_perform_other (e : Engine) {player other : Nat} (h : player ≠ other)
    (xs : List Action) : (e.perform player xs).queue.agenda other = e.queue.agenda other :=
  congrArg (List.map Item.slot) (itemsOf_perform_other e h xs)

end Engine

end MidiRig
