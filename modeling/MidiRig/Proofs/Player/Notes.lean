import MidiRig.Proofs.Player.Callbacks

/-!
# Notes that players end

A key that a stepper presses must come up again, also where the stepper is stopped in the middle of
a step. It remembers the note-offs it has queued (`sounding`), with their ticks; those whose tick
is not after the clock are forgotten, for they are taken to have been played. `Stepper.Timely` says
why that is safe where the clock stops at every item: a callback leaves before everything else of
its tick, and each note-off that lies ahead is still queued. `Stepper.Balanced` counts: the presses
of a key that have been played or will be are no more than its releases that have been played, are
remembered, or are due.
-/

namespace MidiRig

/-- A key on a channel. -/
structure Key where
  channel : Option Int
  number : Option Int

namespace Key

variable (k : Key)

def isOf (e : Event) : Bool := e.channel == k.channel && e.number == k.number

/-- Whether an event presses this key. -/
def presses (e : Event) : Bool := e.isKeyDown && k.isOf e

/-- Whether an event is a note-off of this key. -/
def releases (e : Event) : Bool := e.kind == .noteOff && k.isOf e

/-- How often the key has been pressed. -/
def downs (played : List Played) : Nat := played.countP fun x => k.presses x.event

/-- How often the key has been released. -/
def offs (played : List Played) : Nat := played.countP fun x => k.releases x.event

theorem downs_append (xs ys : List Played) : k.downs (xs ++ ys) = k.downs xs + k.downs ys :=
  List.countP_append

theorem offs_append (xs ys : List Played) : k.offs (xs ++ ys) = k.offs xs + k.offs ys :=
  List.countP_append

theorem releases_of_noteOff {e : Event} (h : e.kind = .noteOff) : k.releases e = k.isOf e := by
  unfold releases
  rw [h]
  exact Bool.true_and _

theorem presses_of_noteOff {e : Event} (h : e.kind = .noteOff) : k.presses e = false := by
  unfold presses Event.isKeyDown
  rw [h]
  rfl

end Key

/-! ## Counting what is queued -/

namespace Agenda

/-- How many events of some sort are queued. -/
def countOf (P : Nat → Event → Bool) (a : Agenda) : Nat := a.countP fun x => x.event.any (P x.tick)

variable {P Q : Nat → Event → Bool} {now : Nat} {a : Agenda}

@[simp] theorem countOf_nil : countOf P [] = 0 := rfl

theorem countOf_put (x : Slot) (a : Agenda) :
    countOf P (put x a) = countOf P a + if x.event.any (P x.tick) then 1 else 0 := by
  unfold countOf
  rw [(perm_put x a).countP_eq, List.countP_cons]

@[simp] theorem countOf_act_callback (tick : Nat) :
    countOf P (act now a (.callback tick)) = countOf P a := countOf_put _ a

/-- An event is queued for its own tick, unless that lies in the past. -/
theorem countOf_act_event {tick : Nat} (h : now ≤ tick) (e : Event) :
    countOf P (act now a (.event e tick)) = countOf P a + if P tick e then 1 else 0 := by
  have htick : max tick now = tick := Nat.max_eq_left h
  rw [act, countOf_put, htick]
  rfl

@[simp] theorem countOf_cons_callback (tick : Nat) :
    countOf P (⟨tick, none⟩ :: a) = countOf P a := by
  unfold countOf
  rw [List.countP_cons]
  rfl

theorem countOf_cons_event (tick : Nat) (e : Event) :
    countOf P (⟨tick, some e⟩ :: a) = countOf P a + if P tick e then 1 else 0 := by
  unfold countOf
  rw [List.countP_cons]
  rfl

theorem countOf_mono (h : ∀ x ∈ a, ∀ e, P x.tick e = true → Q x.tick e = true) :
    countOf P a ≤ countOf Q a := by
  refine List.countP_mono_left fun x hx hP => ?_
  obtain ⟨tick, event⟩ := x
  cases event with
  | none => cases hP
  | some e => exact h _ hx e hP

theorem countOf_eq_zero (h : ∀ x ∈ a, ∀ e, P x.tick e = false) : countOf P a = 0 := by
  refine List.countP_eq_zero.mpr fun x hx hP => ?_
  obtain ⟨tick, event⟩ := x
  cases event with
  | none => cases hP
  | some e =>
    rw [show (Option.some e).any (P tick) = P tick e from rfl, h _ hx e] at hP
    cases hP

/-- What is due later is due now or becomes due in between. -/
theorem countOf_due (P : Event → Bool) (a : Agenda) {later : Nat} (h : now ≤ later) :
    countOf (fun tick e => decide (tick ≤ later) && P e) a =
      countOf (fun tick e => decide (tick ≤ now) && P e) a +
        countOf (fun tick e => decide (now < tick) && (decide (tick ≤ later) && P e)) a := by
  induction a with
  | nil => rfl
  | cons x rest ih =>
    obtain ⟨tick, event⟩ := x
    cases event with
    | none => simp only [countOf_cons_callback, ih]
    | some e =>
      simp only [countOf_cons_event, ih]
      by_cases hdue : tick ≤ now
      · have hlater : tick ≤ later := by omega
        have hpast : ¬ now < tick := by omega
        simp [hdue, hlater, hpast]
        omega
      · have hahead : now < tick := by omega
        simp [hdue, hahead]
        omega

end Agenda

namespace Sounding

variable {now : Nat}

/-- How many note-offs of some sort are remembered. -/
def countOf (P : Nat → Event → Bool) (s : Sounding) : Nat := s.countP fun off => P off.1 off.2

theorem countOf_append (P : Nat → Event → Bool) (s t : Sounding) :
    countOf P (s ++ t) = countOf P s + countOf P t := List.countP_append

theorem prune_append (s t : Sounding) (now : Nat) :
    prune (s ++ t) now = s.prune now ++ t.prune now := List.filter_append s t

theorem mem_prune {s : Sounding} {off : Nat × Event} :
    off ∈ s.prune now ↔ off ∈ s ∧ now < off.1 := by
  unfold prune
  rw [List.mem_filter, decide_eq_true_iff]

/-- Where all lies ahead, nothing is forgotten. -/
theorem prune_eq_self {s : Sounding} (h : ∀ off ∈ s, now < off.1) : s.prune now = s :=
  List.filter_eq_self.mpr fun off hoff => decide_eq_true (h off hoff)

theorem prune_prune (s : Sounding) (now : Nat) : (s.prune now).prune now = s.prune now :=
  prune_eq_self fun _ hoff => (mem_prune.mp hoff).2

theorem countOf_prune_le (P : Nat → Event → Bool) (s : Sounding) (now : Nat) :
    countOf P (s.prune now) ≤ countOf P s := List.Sublist.countP_le List.filter_sublist

/-- To forget at a tick is to count what is later. -/
theorem countOf_prune (P : Nat → Event → Bool) (s : Sounding) (now : Nat) :
    countOf P (s.prune now) = countOf (fun tick e => decide (now < tick) && P tick e) s := by
  unfold countOf prune
  rw [List.countP_filter]
  exact List.countP_congr fun off _ => by rw [Bool.and_comm]

/-- What lies ahead later is part of what lies ahead now. -/
theorem countOf_prune_later (P : Nat → Event → Bool) (s : Sounding) {later : Nat}
    (h : now ≤ later) : countOf P (s.prune later) =
      countOf (fun tick e => decide (later < tick) && P tick e) (s.prune now) := by
  rw [countOf_prune, countOf_prune]
  refine List.countP_congr fun off _ => ?_
  by_cases hoff : later < off.1
  · have : now < off.1 := by omega
    simp [hoff, this]
  · simp [hoff]

theorem countOf_prune_split (P : Event → Bool) (s : Sounding) {later : Nat} (h : now ≤ later) :
    countOf (fun _ => P) (s.prune now) = countOf (fun _ => P) (s.prune later) +
      countOf (fun tick e => decide (tick ≤ later) && P e) (s.prune now) := by
  rw [countOf_prune_later _ s h]
  unfold countOf
  induction s.prune now with
  | nil => rfl
  | cons off rest ih =>
    simp only [List.countP_cons, ih]
    by_cases hlater : off.1 ≤ later
    · have hpast : ¬ later < off.1 := by omega
      simp [hlater, hpast]
      omega
    · have hahead : later < off.1 := by omega
      simp [hlater, hahead]
      omega

end Sounding

/-! ## Strikes -/

section Strikes

variable {now length tick : Nat} {events : List Event}

/-- Note-offs come when the step ends. -/
theorem mem_noteOffs {off : Nat × Event} (h : off ∈ events.flatMap (noteOffs length tick)) :
    off.1 = tick + length ∧ off.2.kind = .noteOff := by
  obtain ⟨e, -, hoff⟩ := List.mem_flatMap.mp h
  unfold noteOffs at hoff
  split at hoff
  · rw [List.mem_singleton.mp hoff]
    exact ⟨rfl, rfl⟩
  · cases hoff

/-- Each press has its note-off. -/
theorem countOf_noteOffs (k : Key) (length tick : Nat) (events : List Event) :
    Sounding.countOf (fun _ => k.isOf) (events.flatMap (noteOffs length tick)) =
      events.countP k.presses := by
  induction events with
  | nil => rfl
  | cons e rest ih =>
    rw [List.flatMap_cons, Sounding.countOf_append, ih, List.countP_cons, Nat.add_comm]
    congr 1
    unfold noteOffs Key.presses Sounding.countOf
    split
    · next h =>
      rw [h, List.countP_singleton, Bool.true_and]
      rfl
    · next h => rw [Bool.eq_false_iff.mpr h]; rfl

theorem Agenda.countOf_strike {P : Nat → Event → Bool} (h : now ≤ tick) (a : Agenda) (e : Event) :
    countOf P (perform now a (strike length tick e)) =
      countOf P a + (if P tick e then 1 else 0) + Sounding.countOf P (noteOffs length tick e) := by
  have hoff : now ≤ tick + length := by omega
  unfold strike noteOffs Sounding.countOf
  split
  · rw [List.map_singleton, perform_cons, perform_cons, perform_nil, countOf_act_event hoff,
      countOf_act_event h, List.countP_singleton]
  · rw [List.map_nil, perform_cons, perform_nil, countOf_act_event h, List.countP_nil]
    rfl

/-- A step queues its events, and the note-offs that it remembers. -/
theorem Agenda.countOf_strikes {P : Nat → Event → Bool} (h : now ≤ tick) (a : Agenda) :
    countOf P (perform now a (events.flatMap (strike length tick))) =
      countOf P a + events.countP (P tick) +
        Sounding.countOf P (events.flatMap (noteOffs length tick)) := by
  induction events generalizing a with
  | nil => rfl
  | cons e rest ih =>
    rw [List.flatMap_cons, perform_append, ih, countOf_strike h, List.flatMap_cons,
      Sounding.countOf_append, List.countP_cons]
    omega

theorem Stepper.countOf_stepActions {P : Nat → Event → Bool} (h : now ≤ tick) (p : Stepper)
    (a : Agenda) :
    (a.perform now (p.stepActions events tick length)).countOf P =
      a.countOf P + events.countP (P tick) +
        Sounding.countOf P (events.flatMap (noteOffs length tick)) := by
  rw [stepActions, Agenda.perform_append, Agenda.perform_cons, Agenda.perform_nil,
    Agenda.countOf_act_callback, Agenda.countOf_strikes h]

end Strikes

/-! ## Order -/

namespace Agenda

/-- Callbacks leave before everything else of their tick. -/
def Prompt (a : Agenda) : Prop := a.Pairwise fun x y => x.event = none → x.tick < y.tick

theorem prompt_of_callbacks {a : Agenda} (h : a.callbacks = 0) : a.Prompt := by
  refine List.pairwise_of_forall_mem_list fun x hx y _ hnone => ?_
  have hcount := List.countP_eq_zero.mp h x hx
  rw [hnone] at hcount
  exact absurd rfl hcount

/-- A callback is put behind the events that are due no later, so those that follow it are later. -/
theorem prompt_put {a : Agenda} (hsorted : a.Sorted) (h : a.callbacks = 0) (tick : Nat) :
    (put ⟨tick, none⟩ a).Prompt := by
  induction a with
  | nil => exact List.pairwise_singleton _ _
  | cons first rest ih =>
    obtain ⟨hfirst, hrest⟩ := List.pairwise_cons.mp hsorted
    have hevent : first.event ≠ none := by
      intro hnone
      have hcount := List.countP_eq_zero.mp h first List.mem_cons_self
      rw [hnone] at hcount
      exact absurd rfl hcount
    unfold put
    split
    · refine List.pairwise_cons.mpr ⟨fun y _ hnone => absurd hnone hevent, ih hrest ?_⟩
      exact List.countP_eq_zero.mpr fun x hx =>
        List.countP_eq_zero.mp h x (List.mem_cons_of_mem _ hx)
    · next hlate =>
      refine List.pairwise_cons.mpr ⟨fun y hy _ => ?_, prompt_of_callbacks h⟩
      have hgt : tick < first.tick := Nat.lt_of_not_le hlate
      rcases List.mem_cons.mp hy with rfl | hy
      · exact hgt
      · have := hfirst y hy
        exact Nat.lt_of_lt_of_le hgt this

end Agenda

namespace Stepper

variable {now later length tick : Nat} {p q : Stepper} {xs : List Action} {a : Agenda}
  {events : List Event}

/-- What a stepper keeps in step with its agenda where the clock stops at every item. -/
structure Timely (now : Nat) (p : Stepper) (a : Agenda) : Prop extends p.Armed a where
  sorted : a.Sorted
  prompt : a.Prompt
  /-- It is woken no later than at its next step. -/
  ahead : ∀ x ∈ a, x.event = none → x.tick ≤ p.nextTick
  silent : p.playing = false → p.sounding = []
  noteOffs : ∀ off ∈ p.sounding, off.2.kind = .noteOff
  /-- What it remembers and lies ahead is still queued. -/
  queued : ∀ P, (p.sounding.prune now).countOf P ≤ a.countOf P

/-- What a step leaves behind: the agenda had no callback before. -/
theorem timely_stepped (hsorted : a.Sorted) (hcallbacks : a.callbacks = 0)
    (hevents : ∀ off ∈ p.sounding, off.2.kind = .noteOff)
    (hqueued : ∀ P, (p.sounding.prune now).countOf P ≤ a.countOf P) (htick : now ≤ tick) :
    (p.stepped events tick length).Timely now
      (a.perform now (p.stepActions events tick length)) := by
  have hstruck : (a.perform now (events.flatMap (strike length tick))).callbacks = 0 :=
    (Agenda.callbacks_perform_strikes now a length tick events).trans hcallbacks
  have hafter : a.perform now (p.stepActions events tick length) =
      Agenda.put ⟨max (tick + length - p.lag) now, none⟩
        (a.perform now (events.flatMap (strike length tick))) := by
    rw [stepActions, Agenda.perform_append]
    rfl
  refine ⟨⟨fun _ => ?_, nofun⟩, Agenda.sorted_perform now hsorted _, ?_, ?_, nofun, ?_, ?_⟩
  · rw [perform_stepActions, hcallbacks]
  · rw [hafter]
    exact Agenda.prompt_put (Agenda.sorted_perform now hsorted _) hstruck _
  · rw [hafter]
    intro x hx hnone
    rcases Agenda.mem_put.mp hx with rfl | hx
    · show max (tick + length - p.lag) now ≤ tick + length
      omega
    · have hcount := List.countP_eq_zero.mp hstruck x hx
      rw [hnone] at hcount
      exact absurd rfl hcount
  · intro off hoff
    rcases List.mem_append.mp hoff with hoff | hoff
    · exact hevents off hoff
    · exact (mem_noteOffs hoff).2
  · intro P
    have hnew := Sounding.countOf_prune_le P (events.flatMap (MidiRig.noteOffs length tick)) now
    have hold := hqueued P
    rw [countOf_stepActions htick]
    show Sounding.countOf P (Sounding.prune (p.sounding ++ _) now) ≤ _
    rw [Sounding.prune_append, Sounding.countOf_append]
    omega

theorem timely_stopped (p : Stepper) : p.stopped.Timely now [] :=
  ⟨⟨nofun, fun _ => rfl⟩, List.Pairwise.nil, List.Pairwise.nil, nofun, fun _ => rfl, nofun,
    fun _ => Nat.le_refl _⟩

theorem Timely.does (h : p.Timely now a) (hdoes : Does now p xs q) :
    q.Timely now (a.perform now xs) := by
  induction hdoes generalizing a with
  | rests => exact h
  | stops =>
    rw [Agenda.perform_cons, Agenda.act_cancel, Agenda.perform_release]
    exact timely_stopped _
  | @starts p hsilent =>
    rw [h.rest hsilent]
    refine ⟨⟨fun _ => rfl, nofun⟩, List.pairwise_singleton _ _, List.pairwise_singleton _ _, ?_,
      nofun, h.noteOffs, fun P => ?_⟩
    · intro x hx _
      rw [List.mem_singleton.mp hx]
      show max now now ≤ now + p.lag
      omega
    · show Sounding.countOf P (p.sounding.prune now) ≤ _
      rw [h.silent hsilent]
      exact Nat.zero_le _
  | strikes hsilent events hpos =>
    have hnil := h.rest hsilent
    have hcallbacks : a.callbacks = 0 := by
      rw [hnil]
      rfl
    exact timely_stepped h.sorted hcallbacks h.noteOffs h.queued (Nat.le_refl now)
  | seq _ _ ihxs ihys =>
    rw [Agenda.perform_append]
    exact ihys (ihxs h)

/-- While time passes, less lies ahead. -/
theorem Timely.passes (h : p.Timely now a) (hle : now ≤ later) : p.Timely later a := by
  refine { h with queued := fun P => ?_ }
  rw [Sounding.countOf_prune_later P _ hle]
  refine Nat.le_trans (h.queued _) (Agenda.countOf_mono fun x _ e hx => ?_)
  exact (Bool.and_eq_true_iff.mp hx).2

/-- An event that is played does not lie ahead. -/
theorem Timely.plays {e : Event} (h : p.Timely now (⟨tick, some e⟩ :: a)) (hdue : tick ≤ now) :
    p.Timely now a := by
  refine { h.toArmed.tail, h with
    sorted := h.sorted.tail
    prompt := h.prompt.tail
    ahead := fun x hx => h.ahead x (List.mem_cons_of_mem _ hx)
    queued := fun P => ?_ }
  have hpast : ¬ now < tick := by omega
  have hqueued := h.queued fun tick e => decide (now < tick) && P tick e
  rw [← Sounding.countOf_prune_later P _ (Nat.le_refl now), Agenda.countOf_cons_event,
    decide_eq_false hpast, Bool.false_and, if_neg Bool.false_ne_true, Nat.add_zero] at hqueued
  refine Nat.le_trans hqueued (Agenda.countOf_mono fun x _ e hx => ?_)
  exact (Bool.and_eq_true_iff.mp hx).2

/-- All that is left behind a callback is later. -/
theorem Timely.lt_of_mem (h : p.Timely now (⟨tick, none⟩ :: a)) {x : Slot} (hx : x ∈ a) :
    tick < x.tick :=
  (List.pairwise_cons.mp h.prompt).1 x hx rfl

theorem Timely.wakes (h : p.Timely now (⟨tick, none⟩ :: a)) (hnow : now ≤ tick)
    (hwakes : Wakes now p xs q) : q.Timely now (a.perform now xs) := by
  have hplaying := h.toArmed.playing
  cases hwakes with
  | sleeps hsilent =>
    rw [hplaying] at hsilent
    cases hsilent
  | steps _ events hpos =>
    have hnext : tick ≤ p.nextTick := h.ahead _ List.mem_cons_self rfl
    refine timely_stepped (p := p.pruned now) h.sorted.tail h.toArmed.callbacks_eq_zero ?_ ?_ ?_
    · exact fun off hoff => h.noteOffs off (Sounding.mem_prune.mp hoff).1
    · intro P
      have hqueued := h.queued P
      rw [Agenda.countOf_cons_callback] at hqueued
      show Sounding.countOf P (Sounding.prune (p.sounding.prune now) now) ≤ _
      rwa [Sounding.prune_prune]
    · exact Nat.le_trans hnow hnext
  | ends =>
    rw [Agenda.perform_cons, Agenda.act_cancel, Agenda.perform_release]
    exact timely_stopped p

end Stepper

/-! ## Accounts -/

section Accounts

variable {k : Key} {now : Nat} {played : List Played}

theorem atOnce_append (now : Nat) (xs ys : List Action) :
    atOnce now (xs ++ ys) = atOnce now xs ++ atOnce now ys := List.filterMap_append

theorem atOnce_release (now : Nat) (s : Sounding) :
    atOnce now (.cancel :: s.release now) = (s.prune now).map fun off => ⟨now, off.2, false⟩ := by
  unfold atOnce Sounding.release
  rw [List.filterMap_cons]
  dsimp only
  rw [List.filterMap_map]
  exact congrFun List.filterMap_eq_map _

/-- A step queues, and sends nothing at once. -/
theorem Stepper.atOnce_stepActions (p : Stepper) (events : List Event) (tick length : Nat) :
    atOnce now (p.stepActions events tick length) = [] := by
  refine List.filterMap_eq_nil_iff.mpr fun x hx => ?_
  rcases List.mem_append.mp hx with hx | hx
  · obtain ⟨e, -, hx⟩ := List.mem_flatMap.mp hx
    rcases List.mem_cons.mp hx with rfl | hx
    · rfl
    · obtain ⟨off, -, rfl⟩ := List.mem_map.mp hx
      rfl
  · rw [List.mem_singleton.mp hx]

/-- Note-offs that are sent at once press nothing. -/
theorem Key.downs_release {s : Sounding} (h : ∀ off ∈ s, off.2.kind = .noteOff) :
    k.downs (played ++ atOnce now (.cancel :: s.release now)) = k.downs played := by
  have hnone : k.downs (atOnce now (.cancel :: s.release now)) = 0 := by
    rw [atOnce_release]
    unfold Key.downs
    rw [List.countP_map]
    refine List.countP_eq_zero.mpr fun off hoff hpresses => ?_
    have hpress : k.presses off.2 = true := hpresses
    rw [k.presses_of_noteOff (h off (Sounding.mem_prune.mp hoff).1)] at hpress
    cases hpress
  rw [k.downs_append, hnone, Nat.add_zero]

/-- All that is remembered and lies ahead is released. -/
theorem Key.offs_release {s : Sounding} (h : ∀ off ∈ s, off.2.kind = .noteOff) :
    k.offs (played ++ atOnce now (.cancel :: s.release now)) =
      k.offs played + (s.prune now).countOf fun _ => k.isOf := by
  rw [k.offs_append, atOnce_release]
  unfold Key.offs Sounding.countOf
  rw [List.countP_map]
  congr 1
  refine List.countP_congr fun off hoff => ?_
  show k.releases off.2 = true ↔ _
  rw [k.releases_of_noteOff (h off (Sounding.mem_prune.mp hoff).1)]

end Accounts

namespace Stepper

variable {k : Key} {busy : Bool} {now later length tick : Nat} {p q : Stepper} {xs : List Action}
  {a : Agenda} {played : List Played}

/-- How many note-offs of a key lie ahead, or are due where more is due. -/
def toCome (k : Key) (busy : Bool) (now : Nat) (p : Stepper) (a : Agenda) : Nat :=
  (p.sounding.prune now).countOf (fun _ => k.isOf) +
    if busy then a.countOf (fun tick e => decide (tick ≤ now) && k.releases e) else 0

/-- No press of a key, played or queued, goes without its release. -/
def Balanced (k : Key) (busy : Bool) (now : Nat) (p : Stepper) (a : Agenda)
    (played : List Played) : Prop :=
  k.downs played + a.countOf (fun _ => k.presses) ≤ k.offs played + p.toCome k busy now a

/-- In the midst of deliveries at least as much is to come. -/
theorem Balanced.hurry (h : p.Balanced k busy now a played) : p.Balanced k true now a played := by
  cases busy with
  | true => exact h
  | false =>
    unfold Balanced toCome at h ⊢
    rw [if_neg Bool.false_ne_true] at h
    omega

/-- When nothing is due any more, only what lies ahead is to come. -/
theorem Balanced.settles (h : p.Balanced k busy now a played) (hdone : ∀ x ∈ a, now < x.tick) :
    p.Balanced k false now a played := by
  have hnone : a.countOf (fun tick e => decide (tick ≤ now) && k.releases e) = 0 := by
    refine Agenda.countOf_eq_zero fun x hx e => ?_
    have hlate := hdone x hx
    have : ¬ x.tick ≤ now := by omega
    rw [decide_eq_false this, Bool.false_and]
  have hbusy := h.hurry
  unfold Balanced toCome at hbusy ⊢
  rw [if_pos rfl, hnone] at hbusy
  exact hbusy

/-- What no longer lies ahead has become due. -/
theorem Balanced.passes (h : p.Balanced k busy now a played) (htimely : p.Timely now a)
    (hle : now ≤ later) : p.Balanced k true later a played := by
  have hbusy := h.hurry
  have hsplit := Sounding.countOf_prune_split k.isOf p.sounding hle
  have hdue := Agenda.countOf_due k.releases a hle
  have hqueued : (p.sounding.prune now).countOf (fun tick e => decide (tick ≤ later) && k.isOf e) ≤
      a.countOf (fun tick e => decide (now < tick) && (decide (tick ≤ later) && k.releases e)) := by
    refine Nat.le_trans (Nat.le_of_eq ?_) (htimely.queued _)
    refine List.countP_congr fun off hoff => ?_
    obtain ⟨hmem, hahead⟩ := Sounding.mem_prune.mp hoff
    dsimp only
    rw [k.releases_of_noteOff (htimely.noteOffs off hmem), decide_eq_true hahead, Bool.true_and]
  unfold Balanced toCome at hbusy ⊢
  rw [if_pos rfl] at hbusy ⊢
  omega

/-- What is played is not queued any more. -/
theorem Balanced.plays {e : Event} (h : p.Balanced k busy now (⟨tick, some e⟩ :: a) played)
    (hdue : tick ≤ now) : p.Balanced k true now a (played ++ [⟨now, e, true⟩]) := by
  have hbusy := h.hurry
  have hdown : k.downs [⟨now, e, true⟩] = if k.presses e then 1 else 0 := List.countP_singleton
  have hoff : k.offs [⟨now, e, true⟩] = if k.releases e then 1 else 0 := List.countP_singleton
  unfold Balanced toCome at hbusy ⊢
  rw [if_pos rfl, Agenda.countOf_cons_event, Agenda.countOf_cons_event, decide_eq_true hdue,
    Bool.true_and] at hbusy
  rw [if_pos rfl, k.downs_append, k.offs_append, hdown, hoff]
  omega

/-- A callback is no event. -/
theorem Balanced.tail (h : p.Balanced k busy now (⟨tick, none⟩ :: a) played) :
    p.Balanced k busy now a played := by
  unfold Balanced toCome at h ⊢
  rwa [Agenda.countOf_cons_callback, Agenda.countOf_cons_callback] at h

theorem Balanced.pruned (h : p.Balanced k busy now a played) :
    (p.pruned now).Balanced k busy now a played := by
  unfold Balanced toCome at h ⊢
  rwa [show (p.pruned now).sounding.prune now = p.sounding.prune now from
    Sounding.prune_prune p.sounding now]

/-- What lies ahead is released at once, so nothing is left to come. -/
theorem Balanced.stopped (h : p.Balanced k false now a played)
    (hoffs : ∀ off ∈ p.sounding, off.2.kind = .noteOff) :
    p.stopped.Balanced k false now (a.perform now (.cancel :: p.sounding.release now))
      (played ++ atOnce now (.cancel :: p.sounding.release now)) := by
  have hnone : p.stopped.toCome k false now [] = 0 := rfl
  rw [Agenda.perform_cons, Agenda.act_cancel, Agenda.perform_release]
  unfold Balanced at h ⊢
  unfold toCome at h
  rw [if_neg Bool.false_ne_true] at h
  rw [Key.downs_release hoffs, Key.offs_release hoffs, hnone, Agenda.countOf_nil]
  omega

/-- Each press that a step queues has a note-off that lies ahead. -/
theorem Balanced.stepped (h : p.Balanced k false now a played) (htick : now ≤ tick)
    (hpos : 0 < length) (events : List Event) :
    (p.stepped events tick length).Balanced k false now
      (a.perform now (p.stepActions events tick length))
      (played ++ atOnce now (p.stepActions events tick length)) := by
  have hdowns : Sounding.countOf (fun _ => k.presses)
      (events.flatMap (MidiRig.noteOffs length tick)) = 0 := by
    refine List.countP_eq_zero.mpr fun off hoff => ?_
    dsimp only
    rw [k.presses_of_noteOff (mem_noteOffs hoff).2]
    exact Bool.false_ne_true
  have hahead : Sounding.prune (events.flatMap (MidiRig.noteOffs length tick)) now =
      events.flatMap (MidiRig.noteOffs length tick) := by
    refine Sounding.prune_eq_self fun off hoff => ?_
    rw [(mem_noteOffs hoff).1]
    omega
  have hsounding : ((p.stepped events tick length).sounding.prune now).countOf (fun _ => k.isOf) =
      (p.sounding.prune now).countOf (fun _ => k.isOf) + events.countP k.presses := by
    show Sounding.countOf _ (Sounding.prune (p.sounding ++ _) now) = _
    rw [Sounding.prune_append, Sounding.countOf_append, hahead, countOf_noteOffs]
  rw [atOnce_stepActions, List.append_nil]
  unfold Balanced toCome at h ⊢
  rw [countOf_stepActions htick, hdowns, hsounding]
  rw [if_neg Bool.false_ne_true] at h ⊢
  omega

theorem Balanced.does (h : p.Balanced k false now a played) (htimely : p.Timely now a)
    (hdoes : Does now p xs q) :
    q.Balanced k false now (a.perform now xs) (played ++ atOnce now xs) := by
  induction hdoes generalizing a played with
  | rests =>
    rw [show atOnce now [] = [] from rfl, List.append_nil]
    exact h
  | stops => exact h.stopped htimely.noteOffs
  | starts =>
    rw [show atOnce now [.callback now] = [] from rfl, List.append_nil]
    unfold Balanced at h ⊢
    rw [Agenda.perform_cons, Agenda.perform_nil, Agenda.countOf_act_callback]
    exact h
  | strikes _ events hpos => exact h.stepped (Nat.le_refl now) hpos events
  | seq hxs _ ihxs ihys =>
    rw [Agenda.perform_append, atOnce_append, ← List.append_assoc]
    exact ihys (ihxs h htimely) (htimely.does hxs)

theorem Balanced.wakes (h : p.Balanced k busy now (⟨tick, none⟩ :: a) played)
    (htimely : p.Timely now (⟨tick, none⟩ :: a)) (hnow : now ≤ tick) (hwakes : Wakes now p xs q) :
    q.Balanced k true now (a.perform now xs) (played ++ atOnce now xs) := by
  have hplaying := htimely.toArmed.playing
  -- nothing else is due when the callback leaves
  have hrest : p.Balanced k false now a played :=
    h.tail.settles fun x hx => Nat.lt_of_le_of_lt hnow (htimely.lt_of_mem hx)
  cases hwakes with
  | sleeps hsilent =>
    rw [hplaying] at hsilent
    cases hsilent
  | steps _ events hpos =>
    have hnext : tick ≤ p.nextTick := htimely.ahead _ List.mem_cons_self rfl
    exact (hrest.pruned.stepped (Nat.le_trans hnow hnext) hpos events).hurry
  | ends =>
    refine (hrest.pruned.stopped fun off hoff => ?_).hurry
    exact htimely.noteOffs off (Sounding.mem_prune.mp hoff).1

end Stepper

/-! ## Along a life -/

/-- Whether players of this definition step. -/
def PlayerDef.isStepped : PlayerDef → Bool
  | sequence _ | arpeggio _ => true
  | loop _ | track _ => false

namespace Player

/-- What the player has in common with others that step, if it does. -/
def stepper? : Player → Option Stepper
  | sequence s => some s.stepper
  | arpeggio p => some p.stepper
  | loop _ | track _ => none

variable {p : Player} {q : Stepper} {a : Agenda}

theorem stepper?_make {d : PlayerDef} (h : d.isStepped = true) (config : SequencerConfig)
    (rate : Float) : ∃ q : Stepper, (Player.make d config rate).stepper? = some q.stopped := by
  cases d with
  | sequence d => exact ⟨(Sequence.make d config rate).stepper, rfl⟩
  | arpeggio d => exact ⟨(Arpeggio.make d config rate).stepper, rfl⟩
  | loop d => cases h
  | track d => cases h

theorem isSome_stepper?_make (d : PlayerDef) (config : SequencerConfig) (rate : Float) :
    (Player.make d config rate).stepper?.isSome = d.isStepped := by
  cases d <;> rfl

theorem isSome_stepper?_respond (p : Player) (m : Moment) (c : Call) :
    (p.respond m c).1.stepper?.isSome = p.stepper?.isSome := by
  cases p <;> rfl

theorem Armed.does_stepper (h : p.Armed a) (hp : p.stepper? = some q) (m : Moment) {c : Call}
    (hc : c ≠ .wake) : ∃ q', (p.respond m c).1.stepper? = some q' ∧
      Stepper.Does m.now q (p.respond m c).2 q' := by
  cases p with
  | sequence s =>
    cases hp
    exact ⟨_, rfl, s.does_respond m hc⟩
  | arpeggio p =>
    cases hp
    exact ⟨_, rfl, (Arpeggio.does_respond h.1 m hc).1⟩
  | loop l => cases hp
  | track t => cases hp

theorem Armed.wakes_stepper {x : Slot} (h : p.Armed (x :: a)) (hp : p.stepper? = some q)
    (m : Moment) : ∃ q', (p.respond m .wake).1.stepper? = some q' ∧
      Stepper.Wakes m.now q (p.respond m .wake).2 q' := by
  cases p with
  | sequence s =>
    cases hp
    exact ⟨_, rfl, s.wakes_wake m⟩
  | arpeggio p =>
    cases hp
    exact ⟨_, rfl, (Arpeggio.wakes_wake h.1 m).1⟩
  | loop l => cases hp
  | track t => cases hp

end Player

/-- What a player is made from tells whether it steps. -/
theorem Life.stepped {r : Conduct} {d : PlayerDef} {busy : Bool} {now : Nat} {p : Part}
    {played : List Played} (h : Life r d busy now p played) :
    ∀ player ∈ p.player, player.stepper?.isSome = d.isStepped := by
  induction h with
  | born busy now config rate hvalid =>
    intro player hplayer
    rw [← Option.mem_some.mp hplayer]
    exact Player.isSome_stepper?_make d config rate
  | steps _ _ hs ih =>
    cases hs with
    | stays => exact ih
    | answers c =>
      intro player hplayer
      rw [← Option.mem_some.mp hplayer, Player.isSome_stepper?_respond]
      exact ih _ rfl
    | leaves => exact nofun
  | turns _ ht ih =>
    cases ht with
    | plays => exact ih
    | wakes =>
      intro player hplayer
      rw [← Option.mem_some.mp hplayer, Player.isSome_stepper?_respond]
      exact ih _ rfl
    | lost => exact nofun
  | passes _ _ _ ih => exact ih
  | settles _ _ ih => exact ih

/-- A stepper is timely and balanced, and one that is gone has ended all its notes. -/
def Part.Even (k : Key) (busy : Bool) (now : Nat) (played : List Played) : Part → Prop
  | ⟨some p, a⟩ => ∃ q, p.stepper? = some q ∧ q.Timely now a ∧ q.Balanced k busy now a played
  | ⟨none, _⟩ => k.downs played ≤ k.offs played

/-- Between operations all that is to come is remembered. -/
theorem Stepper.Balanced.downs_le_sounding {k : Key} {now : Nat} {q : Stepper} {a : Agenda}
    {played : List Played} (h : q.Balanced k false now a played) :
    k.downs played ≤ k.offs played + (q.sounding.prune now).countOf fun _ => k.isOf := by
  unfold Balanced toCome at h
  rw [if_neg Bool.false_ne_true] at h
  omega

/-- A stepper that does not play has ended all its notes. -/
theorem Stepper.Balanced.downs_le {k : Key} {busy : Bool} {now : Nat} {q : Stepper} {a : Agenda}
    {played : List Played} (h : q.Balanced k busy now a played) (htimely : q.Timely now a)
    (hsilent : q.playing = false) : k.downs played ≤ k.offs played := by
  have hnone : q.toCome k busy now [] = 0 := by
    unfold toCome
    rw [htimely.silent hsilent]
    cases busy <;> rfl
  unfold Balanced at h
  rw [htimely.rest hsilent, hnone, Agenda.countOf_nil] at h
  exact h

namespace Part

variable {k : Key} {busy : Bool} {now later : Nat} {m : Moment} {p q : Part}
  {played more : List Played}

theorem Even.step (h : p.Even k false m.now played) (harmed : p.Armed)
    (hs : Part.Step m Conduct.timed.Allows p more q) : q.Even k false m.now (played ++ more) := by
  cases hs with
  | stays =>
    rw [List.append_nil]
    exact h
  | answers c hc =>
    obtain ⟨s, hstepper, htimely, hbalanced⟩ := h
    have hcall : c ≠ .wake := by
      rintro rfl
      exact hc
    obtain ⟨t, hafter, hdoes⟩ := Player.Armed.does_stepper harmed hstepper m hcall
    exact ⟨t, hafter, htimely.does hdoes, hbalanced.does htimely hdoes⟩
  | leaves =>
    obtain ⟨s, hstepper, htimely, hbalanced⟩ := h
    obtain ⟨t, -, hdoes⟩ := Player.Armed.does_stepper harmed hstepper m (c := .dismiss) nofun
    have hnil := Player.Tidy.dismiss (Player.Armed.tidy harmed) m
    have hafter := htimely.does hdoes
    -- nothing is queued any more, and a stepper that plays has its callback queued
    have hsilent : t.playing = false := by
      by_contra hplaying
      have hone := hafter.one (by simpa using hplaying)
      rw [hnil] at hone
      cases hone
    exact (hbalanced.does htimely hdoes).downs_le hafter hsilent

theorem Even.turn (h : p.Even k busy m.now played) (harmed : p.Armed)
    (hnow : ∀ x ∈ p.agenda, m.now ≤ x.tick) (ht : Part.Turn m p more q) :
    q.Even k true m.now (played ++ more) := by
  cases ht with
  | @plays player a tick e hdue =>
    cases player with
    | none => cases (show _ :: a = [] from harmed)
    | some player =>
      obtain ⟨s, hstepper, htimely, hbalanced⟩ := h
      exact ⟨s, hstepper, htimely.plays hdue, hbalanced.plays hdue⟩
  | @wakes player a tick hdue =>
    obtain ⟨s, hstepper, htimely, hbalanced⟩ := h
    have htick : m.now ≤ tick := hnow _ List.mem_cons_self
    obtain ⟨t, hafter, hwoken⟩ := Player.Armed.wakes_stepper harmed hstepper m
    exact ⟨t, hafter, htimely.wakes htick hwoken, hbalanced.wakes htimely htick hwoken⟩
  | lost => cases (show _ :: _ = [] from harmed)

theorem Even.passes (h : p.Even k busy now played) (hle : now ≤ later) :
    p.Even k true later played := by
  obtain ⟨player, a⟩ := p
  cases player with
  | none => exact h
  | some player =>
    obtain ⟨s, hstepper, htimely, hbalanced⟩ := h
    exact ⟨s, hstepper, htimely.passes hle, hbalanced.passes htimely hle⟩

theorem Even.settles (h : p.Even k busy now played) (hdone : ∀ x ∈ p.agenda, now < x.tick) :
    p.Even k false now played := by
  obtain ⟨player, a⟩ := p
  cases player with
  | none => exact h
  | some player =>
    obtain ⟨s, hstepper, htimely, hbalanced⟩ := h
    exact ⟨s, hstepper, htimely, hbalanced.settles hdone⟩

end Part

/-- Where the clock stops at every item, the life of a stepper is even. -/
theorem Life.even {d : PlayerDef} (hd : d.isStepped = true) (k : Key) {busy : Bool} {now : Nat}
    {p : Part} {played : List Played} (h : Life .timed d busy now p played) :
    p.Even k busy now played := by
  have hwakes : ¬ Conduct.timed.wakes := id
  have hskips : ¬ Conduct.timed.skips := id
  induction h with
  | born busy now config rate hvalid =>
    obtain ⟨q, hq⟩ := Player.stepper?_make hd config rate
    exact ⟨q.stopped, hq, Stepper.timely_stopped q, Nat.zero_le _⟩
  | @steps busy m p q played _ h hbusy hs ih =>
    obtain rfl : busy = false := Bool.eq_false_iff.mpr hbusy
    exact ih.step (h.armed hwakes) hs
  | turns h ht ih => exact ih.turn (h.armed hwakes) (h.now_le hskips) ht
  | passes _ hle _ ih => exact ih.passes hle
  | settles _ hdone ih => exact ih.settles (hdone.resolve_left hskips)

end MidiRig
