import MidiRig.Clock.Tempo
import MidiRig.Event.Basic

/-!
# The queue of the engine's timer

Items wait in the queue for their tick, each for a player, which the engine knows by a number.
They leave it by tick, and those of one tick in the order in which they were queued: each has a
serial number, and these are never given twice. Both facts are part of the type.
-/

namespace MidiRig

/-- What the timer does when an item is due. -/
inductive Due where
  /-- Wake the player. -/
  | callback (player : Nat)
  /-- Play an event of the player. -/
  | event (player : Nat) (e : Event)
  deriving BEq, Repr

def Due.player : Due → Nat
  | callback player => player
  | event player _ => player

structure Item where
  tick : Nat
  serial : Nat
  due : Due
  deriving BEq, Repr

namespace Item

def player (i : Item) : Nat := i.due.player

/-- Whether one item leaves the queue before another. -/
def Before (a b : Item) : Prop := a.tick < b.tick ∨ (a.tick = b.tick ∧ a.serial < b.serial)

end Item

/-- Puts an item that is newer than all others behind those of its tick. -/
def insertItem (item : Item) : List Item → List Item
  | [] => [item]
  | first :: rest =>
    if first.tick ≤ item.tick then first :: insertItem item rest else item :: first :: rest

theorem mem_insertItem {item i : Item} {items : List Item} :
    i ∈ insertItem item items ↔ i = item ∨ i ∈ items := by
  induction items with
  | nil => simp [insertItem]
  | cons first rest ih =>
    simp only [insertItem]
    split
    · simp only [List.mem_cons, ih]
      exact or_left_comm
    · simp

theorem countP_insertItem (p : Item → Bool) (item : Item) (items : List Item) :
    (insertItem item items).countP p = items.countP p + if p item then 1 else 0 := by
  induction items with
  | nil => simp [insertItem, List.countP_cons]
  | cons first rest ih =>
    simp only [insertItem]
    split
    · simp only [List.countP_cons, ih]
      omega
    · simp [List.countP_cons]

theorem pairwise_insertItem {item : Item} {items : List Item}
    (ordered : items.Pairwise Item.Before) (newest : ∀ i ∈ items, i.serial < item.serial) :
    (insertItem item items).Pairwise Item.Before := by
  induction items with
  | nil => simp [insertItem]
  | cons first rest ih =>
    obtain ⟨below, inner⟩ := List.pairwise_cons.1 ordered
    simp only [insertItem]
    split
    · rename_i le
      refine List.pairwise_cons.2 ⟨fun i mem => ?_, ih inner fun i mem => newest i (by simp [mem])⟩
      rcases mem_insertItem.1 mem with rfl | mem
      · have := newest first (by simp)
        simp only [Item.Before]
        omega
      · exact below i mem
    · rename_i gt
      refine List.pairwise_cons.2 ⟨fun i mem => ?_, ordered⟩
      rcases List.mem_cons.1 mem with rfl | mem
      · exact .inl (by omega)
      · have := below i mem
        simp only [Item.Before] at this ⊢
        omega

structure Queue where
  items : List Item
  /-- The number of the next item. -/
  nextSerial : Nat
  ordered : items.Pairwise Item.Before
  fresh : ∀ i ∈ items, i.serial < nextSerial

namespace Queue

def empty : Queue := ⟨[], 0, by simp, by simp⟩

instance : Inhabited Queue := ⟨empty⟩

instance : Repr Queue := ⟨fun q prec => reprPrec q.items prec⟩

/-- Queues something for a tick. -/
def insert (q : Queue) (tick : Nat) (due : Due) : Queue where
  items := insertItem ⟨tick, q.nextSerial, due⟩ q.items
  nextSerial := q.nextSerial + 1
  ordered := pairwise_insertItem q.ordered q.fresh
  fresh := fun i mem => by
    rcases mem_insertItem.1 mem with rfl | mem
    · exact Nat.lt_succ_self _
    · exact Nat.lt_succ_of_lt (q.fresh i mem)

/-- The item that leaves next. -/
def first? (q : Queue) : Option Item := q.items.head?

/-- Without the item that leaves next. -/
def rest (q : Queue) : Queue where
  items := q.items.tail
  nextSerial := q.nextSerial
  ordered := q.ordered.tail
  fresh := fun i mem => q.fresh i (List.mem_of_mem_tail mem)

/-- Without the items of a player. -/
def removePlayer (q : Queue) (player : Nat) : Queue where
  items := q.items.filter fun i => i.player != player
  nextSerial := q.nextSerial
  ordered := q.ordered.filter _
  fresh := fun i mem => q.fresh i (List.mem_filter.1 mem).1

/-- How many items wait for a player. -/
def pending (q : Queue) (player : Nat) : Nat := q.items.countP fun i => i.player == player

/-- How many items are due up to a tick. -/
def dueBy (q : Queue) (limit : Nat) : Nat := q.items.countP fun i => i.tick ≤ limit

theorem dueBy_insert_of_lt (q : Queue) {limit tick : Nat} (due : Due) (late : limit < tick) :
    (q.insert tick due).dueBy limit = q.dueBy limit := by
  have : ¬ tick ≤ limit := by omega
  simp [dueBy, insert, countP_insertItem, this]

theorem dueBy_removePlayer_le (q : Queue) (player limit : Nat) :
    (q.removePlayer player).dueBy limit ≤ q.dueBy limit :=
  List.Sublist.countP_le List.filter_sublist

theorem dueBy_rest {q : Queue} {item : Item} {limit : Nat} (first : q.first? = some item)
    (due : item.tick ≤ limit) : q.rest.dueBy limit + 1 = q.dueBy limit := by
  obtain ⟨rest, eq⟩ := List.head?_eq_some_iff.1 first
  simp [dueBy, Queue.rest, eq, due]

end Queue

end MidiRig
