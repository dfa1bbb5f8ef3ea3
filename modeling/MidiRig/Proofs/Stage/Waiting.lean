import MidiRig.Proofs.Stage.Solo

/-!
# A player that waits

A player waits for its callback, with events of its own queued around it. The events that are due
no later than the callback play before it, each at its tick, and the others are still queued when
the player is woken (`Solo.Drains.wake`). Time may come in slices: to let it pass by one after the
other is to let it pass until the latest of their ends (`Solo.Plays.of_advances`).
-/

namespace MidiRig

/-! ## Events in the queue -/

/-- An event and the tick at which it is to play. -/
structure Timed where
  tick : Nat
  event : Event

namespace Timed

def slot (x : Timed) : Slot := ⟨x.tick, some x.event⟩

def played (x : Timed) : Played := ⟨x.tick, x.event, true⟩

/-- Earlier ticks come first. -/
def Ordered (xs : List Timed) : Prop := xs.Pairwise fun x y => x.tick ≤ y.tick

def upTo (tick : Nat) (xs : List Timed) : List Timed := xs.filter fun x => x.tick ≤ tick

def after (tick : Nat) (xs : List Timed) : List Timed := xs.filter fun x => tick < x.tick

variable {x : Timed} {xs ys : List Timed} {tick : Nat}

theorem upTo_cons_of_le (h : x.tick ≤ tick) : upTo tick (x :: xs) = x :: upTo tick xs := by
  simp [upTo, h]

theorem after_cons_of_le (h : x.tick ≤ tick) : after tick (x :: xs) = after tick xs := by
  simp [after, Nat.not_lt.mpr h]

theorem upTo_append : upTo tick (xs ++ ys) = upTo tick xs ++ upTo tick ys := List.filter_append _ _

theorem upTo_eq_nil (h : ∀ x ∈ xs, tick < x.tick) : upTo tick xs = [] :=
  List.filter_eq_nil_iff.mpr fun x hx => by simpa using h x hx

theorem after_eq_self (h : ∀ x ∈ xs, tick < x.tick) : after tick xs = xs :=
  List.filter_eq_self.mpr fun x hx => by simpa using h x hx

theorem upTo_eq_self (h : ∀ x ∈ xs, x.tick ≤ tick) : upTo tick xs = xs :=
  List.filter_eq_self.mpr fun x hx => by simpa using h x hx

theorem after_append : after tick (xs ++ ys) = after tick xs ++ after tick ys :=
  List.filter_append _ _

theorem after_eq_nil (h : ∀ x ∈ xs, x.tick ≤ tick) : after tick xs = [] :=
  List.filter_eq_nil_iff.mpr fun x hx => by simpa using h x hx

theorem after_after {later : Nat} (h : tick ≤ later) : after later (after tick xs) = after later xs := by
  unfold after
  rw [List.filter_filter]
  refine List.filter_congr fun x _ => ?_
  simp only [Bool.and_eq_decide, decide_eq_true_eq, decide_eq_decide]
  omega

theorem mem_after : x ∈ after tick xs ↔ x ∈ xs ∧ tick < x.tick := by
  simp [after]

/-- What is due by a tick comes first, and the rest of what is due by a later one behind it. -/
theorem upTo_append_after (h : Ordered xs) {later : Nat} (hle : tick ≤ later) :
    upTo tick xs ++ upTo later (after tick xs) = upTo later xs := by
  induction xs with
  | nil => rfl
  | cons x xs ih =>
    obtain ⟨hfirst, hrest⟩ := List.pairwise_cons.mp h
    by_cases hx : x.tick ≤ tick
    · rw [upTo_cons_of_le hx, after_cons_of_le hx, upTo_cons_of_le (Nat.le_trans hx hle), List.cons_append,
        ih hrest]
    · have hlate : ∀ y ∈ x :: xs, tick < y.tick := by
        intro y hy
        rcases List.mem_cons.mp hy with rfl | hy
        · omega
        · have := hfirst y hy
          omega
      rw [upTo_eq_nil hlate, after_eq_self hlate, List.nil_append]

theorem upTo_after_append (h : Ordered xs) {later : Nat} (hle : tick ≤ later) :
    upTo tick xs ++ upTo later (after tick xs ++ ys) = upTo later (xs ++ ys) := by
  rw [upTo_append, ← List.append_assoc, upTo_append_after h hle, ← upTo_append]

end Timed

namespace Agenda

/-- What is due no earlier than everything else comes last. -/
theorem put_of_le {x : Slot} {a : Agenda} (h : ∀ y ∈ a, y.tick ≤ x.tick) : put x a = a ++ [x] := by
  induction a with
  | nil => rfl
  | cons first rest ih =>
    rw [put, if_pos (h first List.mem_cons_self), ih fun y hy => h y (List.mem_cons_of_mem _ hy)]
    rfl

/-- What is due before everything else comes first. -/
theorem put_of_lt {x : Slot} {a : Agenda} (h : ∀ y ∈ a, x.tick < y.tick) : put x a = x :: a := by
  cases a with
  | nil => rfl
  | cons first rest => rw [put, if_neg (Nat.not_le.mpr (h first List.mem_cons_self))]

/-- Behind what is due no later and before the rest. -/
theorem put_append {x : Slot} {a b : Agenda} (ha : ∀ y ∈ a, y.tick ≤ x.tick)
    (hb : ∀ y ∈ b, x.tick < y.tick) : put x (a ++ b) = a ++ x :: b := by
  induction a with
  | nil => exact put_of_lt hb
  | cons first rest ih =>
    rw [List.cons_append, put, if_pos (ha first List.mem_cons_self),
      ih fun y hy => ha y (List.mem_cons_of_mem _ hy)]
    rfl

end Agenda

namespace Solo

variable {s t u : Solo} {limit : Nat} {played more : List Played}

/-! ## The events before a callback -/

/-- The events up to the callback play at their ticks, and then the player is woken. -/
theorem Drains.wake {p : Player} {m : Moment} {now : Nat} {xs : List Timed}
    (hordered : Timed.Ordered xs) (hnow : now ≤ m.now) (hxs : ∀ x ∈ xs, now ≤ x.tick)
    (hlimit : m.now ≤ limit)
    (hwoken : Drains limit ⟨m.now, some (p.respond m .wake).1,
      Agenda.perform m.now ((Timed.after m.now xs).map Timed.slot) (p.respond m .wake).2⟩ more t) :
    Drains limit ⟨now, some p, Agenda.put ⟨m.now, none⟩ (xs.map Timed.slot)⟩
      ((Timed.upTo m.now xs).map Timed.played ++
        (atOnce m.now (p.respond m .wake).2 ++ more)) t := by
  have hclock : m.now = max now m.now := (Nat.max_eq_right hnow).symm
  induction xs generalizing now with
  | nil =>
    show Drains limit _ (atOnce m.now (p.respond m .wake).2 ++ more) t
    exact .turn (x := ⟨m.now, none⟩) rfl hlimit hclock (.wakes (Nat.le_refl _)) hwoken
  | cons x xs ih =>
    obtain ⟨hfirst, hrest⟩ := List.pairwise_cons.mp hordered
    by_cases hx : x.tick ≤ m.now
    · -- the event is due first, and stops the clock at its tick
      rw [Timed.after_cons_of_le hx] at hwoken
      have hput : Agenda.put ⟨m.now, none⟩ ((x :: xs).map Timed.slot) =
          x.slot :: Agenda.put ⟨m.now, none⟩ (xs.map Timed.slot) := if_pos hx
      rw [Timed.upTo_cons_of_le hx, hput]
      show Drains limit _ ([x.played] ++ ((Timed.upTo m.now xs).map Timed.played ++ _)) t
      have hstop : x.tick = max now x.slot.tick :=
        (Nat.max_eq_right (hxs x List.mem_cons_self)).symm
      exact .turn (m := ⟨x.tick, m.resolution⟩) rfl (Nat.le_trans hx hlimit) hstop
        (.plays x.event (Nat.le_refl _)) (ih hrest hx hfirst hwoken (Nat.max_eq_right hx).symm)
    · have hlate : ∀ y ∈ x :: xs, m.now < y.tick := by
        intro y hy
        rcases List.mem_cons.mp hy with rfl | hy
        · omega
        · have := hfirst y hy
          omega
      have hput : Agenda.put ⟨m.now, none⟩ ((x :: xs).map Timed.slot) =
          ⟨m.now, none⟩ :: (x :: xs).map Timed.slot := by
        refine Agenda.put_of_lt fun y hy => ?_
        obtain ⟨z, hz, rfl⟩ := List.mem_map.mp hy
        exact hlate z hz
      rw [Timed.after_eq_self hlate] at hwoken
      rw [Timed.upTo_eq_nil hlate, hput, List.map_nil, List.nil_append]
      exact .turn (x := ⟨m.now, none⟩) rfl hlimit hclock (.wakes (Nat.le_refl _)) hwoken

/-- Where the callback is not due, the events that are due play at their ticks. -/
theorem Drains.events {p : Option Player} {now callback : Nat} {xs : List Timed}
    (hordered : Timed.Ordered xs) (hxs : ∀ x ∈ xs, now ≤ x.tick) (hlate : limit < callback) :
    ∃ t, Drains limit ⟨now, p, Agenda.put ⟨callback, none⟩ (xs.map Timed.slot)⟩
      ((Timed.upTo limit xs).map Timed.played) t := by
  induction xs generalizing now with
  | nil => exact ⟨_, .rest fun y hy => List.mem_singleton.mp hy ▸ hlate⟩
  | cons x xs ih =>
    obtain ⟨hfirst, hrest⟩ := List.pairwise_cons.mp hordered
    by_cases hx : x.tick ≤ limit
    · have hput : Agenda.put ⟨callback, none⟩ ((x :: xs).map Timed.slot) =
          x.slot :: Agenda.put ⟨callback, none⟩ (xs.map Timed.slot) :=
        if_pos (Nat.le_trans hx (Nat.le_of_lt hlate))
      obtain ⟨t, ht⟩ := ih hrest hfirst
      rw [Timed.upTo_cons_of_le hx, hput]
      have hstop : x.tick = max now x.slot.tick :=
        (Nat.max_eq_right (hxs x List.mem_cons_self)).symm
      show ∃ t, Drains limit _ ([x.played] ++ (Timed.upTo limit xs).map Timed.played) t
      exact ⟨t, .turn (m := ⟨x.tick, 0⟩) rfl hx hstop (.plays x.event (Nat.le_refl _)) ht⟩
    · have hlater : ∀ y ∈ x :: xs, limit < y.tick := by
        intro y hy
        rcases List.mem_cons.mp hy with rfl | hy
        · omega
        · have := hfirst y hy
          omega
      rw [Timed.upTo_eq_nil hlater]
      refine ⟨_, .rest fun y hy => ?_⟩
      rcases Agenda.mem_put.mp hy with rfl | hy
      · exact hlate
      · obtain ⟨z, hz, rfl⟩ := List.mem_map.mp hy
        exact hlater z hz

/-! ## Time in slices -/

theorem Drains.now_le (h : Drains limit s played t) :
    s.now ≤ t.now ∧ t.now ≤ max s.now limit := by
  induction h with
  | rest => exact ⟨Nat.le_refl _, Nat.le_max_left _ _⟩
  | turn _ hdue hnow _ _ ih =>
    obtain ⟨hle, hge⟩ := ih
    simp only at hle hge
    omega

/-- After a drain nothing is due. -/
theorem Drains.late (h : Drains limit s played t) : ∀ x ∈ t.part.agenda, limit < x.tick := by
  induction h with
  | rest h => exact h
  | turn _ _ _ _ _ ih => exact ih

/-- Where nothing is due by an earlier tick, it does not matter whether the clock has come there. -/
theorem Drains.of_clock {now tick : Nat} {p : Part} (h : Drains limit ⟨max now tick, p⟩ played t)
    (hlate : ∀ x ∈ p.agenda, tick < x.tick) {earlier : Nat} (hnow : now ≤ earlier)
    (hearlier : earlier ≤ max now tick) :
    ∃ u, Drains limit ⟨earlier, p⟩ played u ∧ u.part = t.part := by
  cases h with
  | rest h => exact ⟨_, .rest h, rfl⟩
  | turn hfirst hdue hclock hturn hrest =>
    refine ⟨t, .turn hfirst hdue ?_ hturn hrest, rfl⟩
    have := hlate _ (List.mem_of_head? hfirst)
    rw [hclock]
    simp only
    omega

/-- To drain up to a later tick is to drain up to an earlier one first. -/
theorem Drains.append (h : Drains limit s played t) {later : Nat} (hle : limit ≤ later)
    (h' : Drains later t more u) : Drains later s (played ++ more) u := by
  induction h with
  | rest => exact h'
  | turn hfirst hdue hnow hturn _ ih =>
    rw [List.append_assoc]
    exact .turn hfirst (Nat.le_trans hdue hle) hnow hturn (ih h')

variable {config : SequencerConfig} {rate : Float}

/-- What comes of time in slices comes of it at once, up to the latest tick. -/
theorem Plays.of_advances {first : Nat} {rest : List Nat}
    (h : Plays config rate s ((first :: rest).map .advance) played t) :
    ∃ latest ∈ first :: rest, (∀ tick ∈ first :: rest, tick ≤ latest) ∧
      ∃ u, Drains latest s played u ∧ u.part = t.part := by
  induction rest generalizing first s played with
  | nil =>
    cases h with
    | cons hadvance hnil =>
      cases hnil
      cases hadvance with
      | advance hdrains =>
        rw [List.append_nil]
        exact ⟨first, List.mem_cons_self, by simp, _, hdrains, rfl⟩
  | cons next rest ih =>
    cases h with
    | cons hadvance hrest =>
      cases hadvance with
      | @advance _ v _ _ hdrains =>
        obtain ⟨latest, hmem, hticks, w, hlater, hpart⟩ := ih hrest
        obtain ⟨hle, hge⟩ := hdrains.now_le
        rcases Nat.le_total first latest with hfirst | hfirst
        · obtain ⟨w', hlater', hpart'⟩ := hlater.of_clock hdrains.late hle hge
          exact ⟨latest, List.mem_cons_of_mem _ hmem,
            List.forall_mem_cons.mpr ⟨hfirst, hticks⟩, w', hdrains.append hfirst hlater',
            hpart'.trans hpart⟩
        · -- the slices after the first one end before it
          have hbefore : ∀ tick ∈ first :: next :: rest, tick ≤ first :=
            List.forall_mem_cons.mpr
              ⟨Nat.le_refl _, fun tick htick => Nat.le_trans (hticks tick htick) hfirst⟩
          cases hlater with
          | rest =>
            rw [List.append_nil]
            exact ⟨first, List.mem_cons_self, hbefore, v, hdrains, hpart⟩
          | turn hhead hdue =>
            have hlate := hdrains.late _ (List.mem_of_head? hhead)
            exact absurd (Nat.le_trans hdue hfirst) (Nat.not_le.mpr hlate)

end Solo

end MidiRig
