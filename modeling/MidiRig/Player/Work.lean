import MidiRig.Player.Basic

/-!
# How much a player has left to do

A player that plays asks for its next callback each time it is woken, so a queue that is served
up to some tick keeps filling up again. `Player.work` bounds the callbacks that can still be due
by that tick: waking a player makes its work less, or leaves no more of it and queues nothing that
is due by then (`Player.eases_wake`).
-/

namespace MidiRig

/-- Whether an action queues something for a tick up to `limit`. -/
def Action.isDueBy (limit : Nat) : Action → Bool
  | .event _ tick => tick ≤ limit
  | .callback tick => tick ≤ limit
  | _ => false

/-- Whether none of the actions queues anything for a tick up to `limit`. -/
def QuietUntil (limit : Nat) (actions : List Action) : Prop :=
  ∀ a ∈ actions, a.isDueBy limit = false

theorem quietUntil_nil (limit : Nat) : QuietUntil limit [] := by simp [QuietUntil]

theorem quietUntil_cons {limit : Nat} {a : Action} {actions : List Action} :
    QuietUntil limit (a :: actions) ↔ a.isDueBy limit = false ∧ QuietUntil limit actions := by
  simp [QuietUntil]

theorem quietUntil_append {limit : Nat} {as bs : List Action} :
    QuietUntil limit (as ++ bs) ↔ QuietUntil limit as ∧ QuietUntil limit bs := by
  simp [QuietUntil, or_imp, forall_and]

theorem quietUntil_callback {limit tick : Nat} (h : limit < tick) :
    QuietUntil limit [.callback tick] := by
  simp only [QuietUntil, List.mem_singleton, forall_eq, Action.isDueBy, decide_eq_false_iff_not]
  omega

theorem quietUntil_strike {limit tick : Nat} (length : Nat) (e : Event) (h : limit < tick) :
    QuietUntil limit (strike length tick e) := by
  intro a mem
  simp only [strike, noteOffs, List.mem_cons] at mem
  rcases mem with rfl | mem
  · simp only [Action.isDueBy, decide_eq_false_iff_not]; omega
  · split at mem <;> simp at mem
    subst mem
    simp only [Action.isDueBy, decide_eq_false_iff_not]; omega

theorem quietUntil_flatMap_strike {limit tick : Nat} (length : Nat) (events : List Event)
    (h : limit < tick) : QuietUntil limit (events.flatMap (strike length tick)) := by
  intro a mem
  obtain ⟨e, _, mem⟩ := List.mem_flatMap.1 mem
  exact quietUntil_strike length e h a mem

theorem quietUntil_release (limit : Nat) (s : Sounding) (now : Nat) :
    QuietUntil limit (s.release now) := by
  intro a mem
  obtain ⟨off, _, rfl⟩ := List.mem_map.1 mem
  rfl

/-- What waking leaves of a measure of work: less of it, or as much and nothing due. -/
def Eases (limit before after : Nat) (actions : List Action) : Prop :=
  after < before ∨ (after ≤ before ∧ QuietUntil limit actions)

/-! ## Sequences and arpeggios

Both move their next step on by at least a tick, and wake no more than the lag ahead of it. -/

/-- Ticks left for steps whose callbacks come up to `limit`. -/
def stepsLeft (playing : Bool) (lag nextTick limit : Nat) : Nat :=
  if playing then limit + lag + 1 - nextTick else 0

/-- Emitting a step at `nextTick` that lasts `length`. -/
theorem eases_of_step (lag nextTick limit : Nat) (events : List Event) {length : Nat}
    (pos : 0 < length) :
    Eases limit (stepsLeft true lag nextTick limit) (stepsLeft true lag (nextTick + length) limit)
      (events.flatMap (strike length nextTick) ++ [.callback (nextTick + length - lag)]) := by
  simp only [stepsLeft, if_true]
  by_cases due : nextTick ≤ limit + lag
  · exact .inl (by omega)
  · refine .inr ⟨by omega, quietUntil_append.2 ⟨?_, ?_⟩⟩
    · exact quietUntil_flatMap_strike length events (by omega)
    · exact quietUntil_callback (by omega)

namespace Sequence

def work (s : Sequence) (limit : Nat) : Nat := stepsLeft s.playing s.lag s.nextTick limit

theorem choose?_eq_some {s chosen : Sequence} (h : s.choose? = some chosen) :
    chosen.playing = s.playing ∧ chosen.lag = s.lag ∧ chosen.nextTick = s.nextTick := by
  simp only [choose?] at h
  split at h
  · obtain ⟨found, _, rfl⟩ := Option.map_eq_some_iff.1 h
    simp
  · cases h; simp

theorem stepOn_frame (s : Sequence) : s.stepOn.playing = s.playing ∧ s.stepOn.lag = s.lag := by
  simp only [stepOn]
  split <;> simp

theorem eases_wake (s : Sequence) (m : Moment) (limit : Nat) :
    Eases limit (s.work limit) ((s.wake m).1.work limit) (s.wake m).2 := by
  simp only [wake]
  split
  · exact .inr ⟨Nat.le_refl _, quietUntil_nil _⟩
  · rename_i playing
    simp only [Bool.not_eq_true', Bool.not_eq_false] at playing
    split
    · rename_i chosen h
      obtain ⟨hp, hl, hn⟩ := choose?_eq_some h
      obtain ⟨sp, sl⟩ := chosen.stepOn_frame
      have := eases_of_step s.lag s.nextTick limit chosen.stepEvents
        (chosen.stepping.stepTicks_pos chosen.tempo chosen.step)
      simpa only [work, emit, stepTicks, sp, sl, hp, hl, hn, playing] using this
    · refine .inr ⟨by simp [work, stop, stepsLeft], quietUntil_cons.2 ⟨rfl, ?_⟩⟩
      exact quietUntil_release _ _ _

end Sequence

namespace Arpeggio

def work (a : Arpeggio) (limit : Nat) : Nat := stepsLeft a.playing a.lag a.nextTick limit

theorem eases_wake (a : Arpeggio) (m : Moment) (limit : Nat) :
    Eases limit (a.work limit) ((a.wake m).1.work limit) (a.wake m).2 := by
  simp only [wake]
  split
  · rename_i playing
    simp only [emit]
    split
    · exact .inr ⟨Nat.le_refl _, quietUntil_nil _⟩
    · have := eases_of_step a.lag a.nextTick limit a.stepEvents
        (a.stepping.stepTicks_pos a.tempo a.step)
      simpa only [work, stepTicks, stepEvents, stepKeys, playing] using this
  · exact .inr ⟨Nat.le_refl _, quietUntil_nil _⟩

end Arpeggio

/-! ## Loops

A pass takes a callback for each event and one for its end, and passes begin later and later. -/

namespace Loop

/-- Callbacks left in this pass. -/
def leftInPass (l : Loop) : Nat := if l.atEnd then 1 else l.timeline.length - l.next + 2

def work (l : Loop) (limit : Nat) : Nat :=
  if l.playing ∧ l.passStart ≤ limit + l.lag then
    (limit + l.lag + 1 - l.passStart) * (l.timeline.length + 3) + l.leftInPass
  else 0

theorem leftInPass_le (l : Loop) : l.leftInPass ≤ l.timeline.length + 2 := by
  simp only [leftInPass]
  split <;> omega

/-- Less is left, or as much of what is left queues nothing, where no more is left in the pass. -/
theorem eases_of_leftInPass {l l' : Loop} {limit : Nat} {actions : List Action}
    (playing : l'.playing = l.playing) (lag : l'.lag = l.lag)
    (passStart : l'.passStart = l.passStart) (timeline : l'.timeline = l.timeline)
    (less : l'.leftInPass < l.leftInPass)
    (quiet : limit + l.lag < l.passStart → QuietUntil limit actions) :
    Eases limit (l.work limit) (l'.work limit) actions ∨ l.playing = false := by
  simp only [Eases, work, playing, lag, passStart, timeline]
  by_cases started : l.passStart ≤ limit + l.lag
  · by_cases p : l.playing <;> simp [p, started, less]
  · simp only [started, and_false, if_false]
    exact .inl (.inr ⟨Nat.le_refl _, quiet (by omega)⟩)

theorem arm_frame (l : Loop) :
    l.arm.1.playing = l.playing ∧ l.arm.1.lag = l.lag ∧ l.arm.1.passStart = l.passStart ∧
      l.arm.1.timeline = l.timeline ∧ l.arm.1.leftInPass ≤ l.leftInPass := by
  simp only [arm]
  split
  · simp
  · split
    · simp
    · refine ⟨rfl, rfl, rfl, rfl, ?_⟩
      simp only [leftInPass, if_true]
      split <;> omega

theorem quietUntil_arm (l : Loop) {limit : Nat} (late : limit + l.lag < l.passStart) :
    QuietUntil limit l.arm.2 := by
  simp only [arm]
  split
  · exact quietUntil_nil _
  · split
    · exact quietUntil_callback (by simp only [tickOf]; omega)
    · exact quietUntil_callback (by omega)

/-- At the end of the timeline arming moves on to the end of the pass. -/
theorem leftInPass_arm_lt {l : Loop} {length : Nat} (known : l.passTicks? = some length)
    (done : l.timeline[l.next]? = none) (inside : l.atEnd = false) :
    l.arm.1.leftInPass < l.leftInPass := by
  simp [arm, known, done, leftInPass, inside]

theorem eases_playNext {l : Loop} {length : Nat} (limit : Nat) (known : l.passTicks? = some length)
    (inside : l.atEnd = false) (playing : l.playing = true) :
    Eases limit (l.work limit) (l.playNext.1.work limit) l.playNext.2 := by
  have result : Eases limit (l.work limit) (l.playNext.1.work limit) l.playNext.2 ∨
      l.playing = false := by
    simp only [playNext]
    split
    · rename_i entry found
      obtain ⟨hp, hl, hs, ht, left⟩ := arm_frame { l with next := l.next + 1 }
      refine eases_of_leftInPass hp hl hs ht (Nat.lt_of_le_of_lt left ?_) fun late => ?_
      · obtain ⟨bound, _⟩ := List.getElem?_eq_some_iff.1 found
        simp only [leftInPass, inside]
        simp only [Bool.false_eq_true, if_false]
        omega
      · refine quietUntil_cons.2 ⟨decide_eq_false ?_, quietUntil_arm _ late⟩
        simp only [tickOf]
        omega
    · rename_i done
      obtain ⟨hp, hl, hs, ht, _⟩ := arm_frame l
      exact eases_of_leftInPass hp hl hs ht (leftInPass_arm_lt known done inside)
        (quietUntil_arm l)
  simpa [playing] using result

/-- A new pass has less before it than the one that ends. -/
theorem eases_of_next_pass {l l' : Loop} {limit length : Nat} {actions : List Action}
    (pos : 0 < length) (playing : l.playing = true) (atEnd : l.atEnd = true)
    (lag : l'.lag = l.lag) (passStart : l'.passStart = l.passStart + length)
    (timeline : l'.timeline = l.timeline)
    (quiet : limit + l.lag < l.passStart + length → QuietUntil limit actions) :
    Eases limit (l.work limit) (l'.work limit) actions := by
  have left := l'.leftInPass_le
  simp only [Eases, work, lag, passStart, timeline, playing, true_and] at left ⊢
  by_cases started : l.passStart ≤ limit + l.lag
  · refine .inl ?_
    simp only [started, if_true]
    split
    · have := Nat.mul_le_mul_right (l.timeline.length + 3)
        (show limit + l.lag + 1 - (l.passStart + length) + 1 ≤ limit + l.lag + 1 - l.passStart by
          omega)
      rw [Nat.add_mul, Nat.one_mul] at this
      omega
    · simp [leftInPass, atEnd]
  · refine .inr ⟨?_, quiet (by omega)⟩
    have late : ¬ l.passStart + length ≤ limit + l.lag := by omega
    simp [late]

theorem eases_turnOver {l : Loop} {length : Nat} (limit : Nat) (pos : 0 < length)
    (playing : l.playing = true) (atEnd : l.atEnd = true) :
    Eases limit (l.work limit) ((l.turnOver length).1.work limit) (l.turnOver length).2 := by
  simp only [turnOver]
  split
  · obtain ⟨_, hl, hs, ht, _⟩ := arm_frame (l.nextPass length)
    exact eases_of_next_pass pos playing atEnd hl hs ht fun late => quietUntil_arm _ late
  · rename_i left _
    split
    · exact .inr ⟨by simp [stop, work], quietUntil_cons.2 ⟨rfl, quietUntil_nil _⟩⟩
    · obtain ⟨_, hl, hs, ht, _⟩ := arm_frame { l.nextPass length with passes := some (left - 1) }
      exact eases_of_next_pass pos playing atEnd hl hs ht fun late => quietUntil_arm _ late

theorem passTicks?_pos {l : Loop} {length : Nat} (h : l.passTicks? = some length) :
    0 < length := by
  simp only [passTicks?, Option.bind_eq_some_iff] at h
  obtain ⟨beats, _, h⟩ := h
  split at h
  · rename_i pos
    cases h
    exact pos
  · cases h

theorem eases_wake (l : Loop) (limit : Nat) :
    Eases limit (l.work limit) (l.wake.1.work limit) l.wake.2 := by
  simp only [wake]
  split
  · rename_i length playing known
    split
    · rename_i atEnd
      exact eases_turnOver limit (passTicks?_pos known) playing atEnd
    · rename_i inside
      exact eases_playNext limit known (by simpa using inside) playing
  · exact .inr ⟨Nat.le_refl _, quietUntil_nil _⟩

end Loop

/-! ## All players -/

namespace Player

/-- A bound on the callbacks that can be due by `limit`. -/
def work (p : Player) (limit : Nat) : Nat :=
  match p with
  | sequence s => s.work limit
  | arpeggio a => a.work limit
  | loop l => l.work limit
  | track _ => 0

theorem eases_wake (p : Player) (m : Moment) (limit : Nat) :
    Eases limit (p.work limit) ((p.respond m .wake).1.work limit) (p.respond m .wake).2 := by
  cases p with
  | sequence s => exact s.eases_wake m limit
  | arpeggio a => exact a.eases_wake m limit
  | loop l => exact l.eases_wake limit
  | track t => exact .inr ⟨Nat.le_refl _, quietUntil_nil _⟩

end Player

end MidiRig
