import MidiRig.Proofs.Player.Emissions

/-!
# Steps reckoned from a log

What is queued from a start on (`Told.InSteps`) leaves no choice: the opening gives the first place,
each step with its length the next one, and what the player has become at each callback says what
it strikes there. So the steps of a log can be listed (`Told.steps`), and it is these that are
queued (`Told.InSteps.eq_steps`).
-/

namespace MidiRig

/-- What a step strikes, listed. -/
def Arpeggio.struck (a : Arpeggio) (step : Nat) : List Event :=
  let keys := a.style.arrange a.held
  (if a.style = .chord then keys else (keys[step % keys.length]?).toList).map
    (Event.struck a.stepping.groove step)

theorem Arpeggio.Strikes.eq {a : Arpeggio} {step : Nat} {events : List Event}
    (h : a.Strikes step events) : events = a.struck step := by
  obtain ⟨keys, -, harranged, rfl⟩ := h
  rw [harranged.eq]
  rfl

namespace Player

/-- What a step strikes, listed. -/
def struck (p : Player) (entry : Option (Nat × Cursor)) (step : Nat) : List Event :=
  match p, entry with
  | sequence s, some (pattern, _) =>
    Pattern.struck (s.patterns.getD pattern []) s.stepping.groove step
  | arpeggio a, _ => a.struck step
  | _, _ => []

theorem Strikes.eq {p : Player} {entry : Option (Nat × Cursor)} {step : Nat} {events : List Event}
    (h : p.Strikes entry step events) : events = p.struck entry step := by
  cases p with
  | sequence s =>
    cases entry with
    | none => exact h.elim
    | some entry => exact h
  | arpeggio a =>
    cases entry with
    | none => exact Arpeggio.Strikes.eq h
    | some entry => exact h.elim
  | loop l => exact h.elim
  | track t => exact h.elim

end Player

/-- Where a step lies. -/
structure Mark where
  entry : Option (Nat × Cursor)
  step : Nat
  tick : Nat

namespace Emission

def mark (e : Emission) : Mark := ⟨e.entry, e.step, e.tick⟩

/-- The tick, the pattern, the step in it, and the texts of the events. -/
def line (e : Emission) : Nat × Option Nat × Nat × List String :=
  (e.tick, e.entry.map Prod.fst, e.step, e.events.map Event.text)

/-- Where the step after this one lies. -/
def nextMark (plan : Option (List Pattern × List Int)) (e : Emission) : Mark :=
  match plan, e.entry with
  | some (patterns, order), some (pattern, cursor) =>
    if ∃ voice ∈ patterns.getD pattern [], e.step + 1 < voice.length then
      ⟨e.entry, e.step + 1, e.tick + e.length⟩
    else ⟨cursor.next.pattern? order patterns.length, 0, e.tick + e.length⟩
  | _, _ => ⟨none, e.step + 1, e.tick + e.length⟩

theorem Follows.mark_eq {plan : Option (List Pattern × List Int)} {e next : Emission}
    (h : Follows plan e next) : next.mark = e.nextMark plan := by
  obtain ⟨entry, step, tick, length, events⟩ := e
  obtain ⟨entry', step', tick', length', events'⟩ := next
  obtain ⟨rfl, h⟩ := h
  cases plan with
  | none =>
    cases entry with
    | none =>
      obtain ⟨rfl, rfl⟩ := h
      rfl
    | some entry => exact h.elim
  | some plan =>
    cases entry with
    | none => exact h.elim
    | some entry =>
      simp only [nextMark]
      simp only at h
      split at h
      · next hon =>
        obtain ⟨rfl, rfl⟩ := h
        rw [if_pos hon]
        rfl
      · next hover =>
        obtain ⟨rfl, rfl⟩ := h
        rw [if_neg hover]
        rfl

end Emission

namespace Told

variable {x first : Told} {e : Emission} {xs rest : List Told} {es : List Emission}

/-- The step at a mark, with what the player has become. -/
def emission (x : Told) (m : Mark) : Emission :=
  { entry := m.entry
    step := m.step
    tick := m.tick
    length := x.after.stepTicks m.step
    events := x.after.struck m.entry m.step }

theorem Emits.eq (h : x.Emits e) : e = x.emission e.mark := by
  obtain ⟨entry, step, tick, length, events⟩ := e
  rw [show length = x.after.stepTicks step from h.length, show events = _ from h.events.eq]
  rfl

/-- The steps from a mark on, one for each callback. -/
def stepsFrom (plan : Option (List Pattern × List Int)) (m : Mark) : List Told → List Emission
  | [] => []
  | x :: xs =>
    match x.call with
    | .wake => x.emission m :: stepsFrom plan ((x.emission m).nextMark plan) xs
    | _ => stepsFrom plan m xs

theorem Emit.eq_stepsFrom {plan : Option (List Pattern × List Int)} {m : Mark} (h : Emit xs es)
    (hfollows : es.IsChain (Emission.Follows plan)) (hm : ∀ e ∈ es.head?, e.mark = m) :
    es = stepsFrom plan m xs := by
  induction h generalizing m with
  | nil => rfl
  | steps hcall hemits hrest ih =>
    obtain rfl := hm _ rfl
    have hnext := ih hfollows.tail fun next hnext => (hfollows.rel_head? hnext).mark_eq
    rw [stepsFrom, hcall, ← hemits.eq, ← hnext]
  | rests hcall hqueue hrest ih =>
    rw [stepsFrom]
    split
    · contradiction
    · exact ih hfollows hm

/-- Where the first step lies. -/
def opening? (x : Told) : Option Mark :=
  match x.player, x.call with
  | .sequence s, .play loops =>
    (playCount? loops).map fun passes =>
      { entry := (Cursor.start s.order.length passes).pattern? s.order s.patterns.length
        step := 0
        tick := x.moment.now + s.lag }
  | .arpeggio a, .add _ =>
    some
      { entry := none
        step := 0
        tick := if a.style = .chord then x.moment.now else x.moment.now + a.lag }
  | _, _ => none

theorem Opens.opening?_eq (h : x.Opens e) : x.opening? = some e.mark := by
  obtain ⟨m, p, a, c⟩ := x
  obtain ⟨entry, step, tick, length, events⟩ := e
  obtain ⟨rfl, h⟩ := h
  dsimp only at h
  split at h
  · obtain ⟨rfl, passes, hcount, rfl⟩ := h
    simp only [opening?, hcount]
    rfl
  · obtain ⟨rfl, rfl⟩ := h
    rfl
  · exact h.elim

/-- All the steps that are queued from a start on. -/
def steps (first : Told) (rest : List Told) : List Emission :=
  let plan := first.player.plan
  match first.opening? with
  | none => []
  | some m =>
    if first.player.strikes then
      first.emission m :: stepsFrom plan ((first.emission m).nextMark plan) rest
    else stepsFrom plan m rest

theorem InSteps.eq_steps (h : InSteps first rest es) : es = steps first rest := by
  obtain ⟨hqueued, hopens, hfollows⟩ := h
  unfold steps
  cases hopening : first.opening? with
  | none =>
    refine List.head?_eq_none_iff.mp (Option.eq_none_iff_forall_not_mem.mpr fun e he => ?_)
    rw [(hopens e he).opening?_eq] at hopening
    cases hopening
  | some m =>
    have hmark : ∀ e ∈ es.head?, e.mark = m := fun e he =>
      Option.some.inj ((hopens e he).opening?_eq.symm.trans hopening)
    dsimp only
    split at hqueued
    · next hstrikes =>
      obtain ⟨e, more, rfl, hemits, hrest⟩ := hqueued
      obtain rfl := hmark e rfl
      have hmore := hrest.eq_stepsFrom hfollows.tail fun next hnext =>
        (hfollows.rel_head? hnext).mark_eq
      rw [if_pos hstrikes, ← hemits.eq, ← hmore]
    · next hwaits =>
      rw [if_neg hwaits]
      exact hqueued.2.eq_stepsFrom hfollows hmark

/-- Whether a log is a start and what goes on from there, with these steps. -/
def lists (lines : List (Nat × Option Nat × Nat × List String)) : List Told → Bool
  | [] => false
  | first :: rest =>
    first.player.stepper?.isSome && decide first.Starts && rest.all (fun x => decide x.GoesOn) &&
      (steps first rest).map Emission.line == lines

theorem exists_of_lists {log : List Told} {lines : List (Nat × Option Nat × Nat × List String)}
    (h : lists lines log = true) : ∃ first rest, log = first :: rest ∧
      first.player.stepper?.isSome = true ∧ first.Starts ∧ (∀ x ∈ rest, x.GoesOn) ∧
      (steps first rest).map Emission.line = lines := by
  cases log with
  | nil => cases h
  | cons first rest =>
    simp only [lists, Bool.and_eq_true, decide_eq_true_eq, List.all_eq_true, beq_iff_eq] at h
    obtain ⟨⟨⟨hstepped, hstarts⟩, hgoesOn⟩, hlines⟩ := h
    exact ⟨first, rest, rfl, hstepped, hstarts, hgoesOn, hlines⟩

end Told

end MidiRig
