import Mathlib.Algebra.GroupWithZero.Nat
import MidiRig.Proofs.Player.Visits
import MidiRig.Proofs.Stage.Waiting

/-!
# A sequence by itself

A sequence that plays and is only woken emits its steps, each the lag ahead of its tick. What it
has queued plays up to the callback that finds no step to come, which is due the lag ahead of the
end of the last step, and that callback drops the rest (`Sequence.drains`).
-/

namespace MidiRig

/-! ## What a step queues -/

namespace Emission

variable {e : Emission} {queued : List Timed} {y : Timed}

/-- Its events, at its tick. -/
def onsets (e : Emission) : List Timed := e.events.map fun event => ⟨e.tick, event⟩

/-- The note-off that ends one of them, at its end. -/
def offs (e : Emission) (event : Event) : List Timed :=
  (noteOffs e.length e.tick event).map fun off => ⟨off.1, off.2⟩

def ends (e : Emission) : List Timed := e.events.flatMap e.offs

theorem tick_of_mem_onsets (hy : y ∈ e.onsets) : y.tick = e.tick := by
  obtain ⟨event, -, rfl⟩ := List.mem_map.mp hy
  rfl

theorem ordered_of_tick {xs : List Timed} {tick : Nat} (h : ∀ y ∈ xs, y.tick = tick) :
    Timed.Ordered xs :=
  List.pairwise_iff_getElem.mpr fun i j hi hj _ => by
    rw [h _ (List.getElem_mem hi), h _ (List.getElem_mem hj)]

theorem tick_of_mem_offs {event : Event} (hy : y ∈ e.offs event) : y.tick = e.tick + e.length := by
  obtain ⟨off, hoff, rfl⟩ := List.mem_map.mp hy
  unfold noteOffs at hoff
  split at hoff
  · rw [List.mem_singleton.mp hoff]
  · cases hoff

theorem tick_of_mem_ends (hy : y ∈ e.ends) : y.tick = e.tick + e.length := by
  obtain ⟨event, -, hy⟩ := List.mem_flatMap.mp hy
  exact tick_of_mem_offs hy

/-- What is queued by the tick of the step and what the step queues come in order. -/
theorem ordered_struck (hordered : Timed.Ordered queued) (hqueued : ∀ y ∈ queued, y.tick ≤ e.tick) :
    Timed.Ordered (queued ++ (e.onsets ++ e.ends)) := by
  have hstep : Timed.Ordered (e.onsets ++ e.ends) := by
    refine List.pairwise_append.mpr ⟨ordered_of_tick fun _ => tick_of_mem_onsets,
      ordered_of_tick fun _ => tick_of_mem_ends, fun y hy z hz => ?_⟩
    rw [tick_of_mem_onsets hy, tick_of_mem_ends hz]
    exact Nat.le_add_right _ _
  refine List.pairwise_append.mpr ⟨hordered, hstep, fun y hy z hz => (hqueued y hy).trans ?_⟩
  rcases List.mem_append.mp hz with hz | hz
  · rw [tick_of_mem_onsets hz]
  · rw [tick_of_mem_ends hz]
    exact Nat.le_add_right _ _

/-- One event goes behind what is due by the tick of the step, and its note-off behind all. -/
theorem putAll_strike {before behind : List Timed} (hpos : 0 < e.length)
    (hbefore : ∀ y ∈ before, y.tick ≤ e.tick) (hbehind : ∀ y ∈ behind, y.tick = e.tick + e.length)
    (event : Event) :
    Agenda.putAll ((before ++ behind).map Timed.slot) (⟨e.tick, some event⟩ ::
        (noteOffs e.length e.tick event).map fun off => ⟨off.1, some off.2⟩) =
      (before ++ [Timed.mk e.tick event] ++ (behind ++ e.offs event)).map Timed.slot := by
  have hput : Agenda.put ⟨e.tick, some event⟩ ((before ++ behind).map Timed.slot) =
      (before ++ [Timed.mk e.tick event] ++ behind).map Timed.slot := by
    rw [List.map_append, Agenda.put_append]
    · simp [Timed.slot]
    · intro y hy
      obtain ⟨z, hz, rfl⟩ := List.mem_map.mp hy
      exact hbefore z hz
    · intro y hy
      obtain ⟨z, hz, rfl⟩ := List.mem_map.mp hy
      have := hbehind z hz
      show e.tick < z.tick
      omega
  show Agenda.putAll (Agenda.put _ _) _ = _
  rw [hput]
  unfold offs noteOffs
  split
  · show Agenda.put ⟨e.tick + e.length, some event.release⟩ _ = _
    rw [Agenda.put_of_le]
    · simp [Timed.slot]
    · intro y hy
      obtain ⟨z, hz, rfl⟩ := List.mem_map.mp hy
      show z.tick ≤ e.tick + e.length
      rcases List.mem_append.mp hz with hz | hz
      · rcases List.mem_append.mp hz with hz | hz
        · have := hbefore z hz
          omega
        · rw [List.mem_singleton.mp hz]
          exact Nat.le_add_right _ _
      · exact (hbehind z hz).le
  · rw [List.map_nil, List.map_nil, List.append_nil]
    rfl

/-- In the queue the events of a step come first, and behind all of them their note-offs. -/
theorem putAll_slots (hpos : 0 < e.length) (hqueued : ∀ y ∈ queued, y.tick ≤ e.tick) :
    Agenda.putAll (queued.map Timed.slot) e.slots =
      (queued ++ (e.onsets ++ e.ends)).map Timed.slot := by
  have hevents : ∀ (events : List Event) (before behind : List Timed),
      (∀ y ∈ before, y.tick ≤ e.tick) → (∀ y ∈ behind, y.tick = e.tick + e.length) →
      Agenda.putAll ((before ++ behind).map Timed.slot) (slots { e with events }) =
        (before ++ (onsets { e with events } ++ (behind ++ ends { e with events }))).map
          Timed.slot := by
    intro events
    induction events with
    | nil =>
      intro before behind _ _
      show (before ++ behind).map Timed.slot = (before ++ (behind ++ [])).map Timed.slot
      rw [List.append_nil]
    | cons event rest ih =>
      intro before behind hbefore hbehind
      have hrest := ih (before ++ [Timed.mk e.tick event]) (behind ++ e.offs event)
        (fun y hy => ?_) (fun y hy => ?_)
      · rw [← putAll_strike hpos hbefore hbehind, ← Agenda.putAll_append] at hrest
        refine Eq.trans rfl (hrest.trans ?_)
        simp only [onsets, ends, List.map_cons, List.flatMap_cons, List.append_assoc,
          List.cons_append, List.nil_append]
        rfl
      · rcases List.mem_append.mp hy with hy | hy
        · exact hbefore y hy
        · rw [List.mem_singleton.mp hy]
      · rcases List.mem_append.mp hy with hy | hy
        · exact hbehind y hy
        · exact tick_of_mem_offs hy
  have h := hevents e.events queued [] hqueued nofun
  rwa [List.append_nil, List.nil_append] at h

end Emission

/-! ## What is taken from the queue -/

theorem queued_played (xs : List Timed) :
    (xs.map Timed.played).filter Played.queued = xs.map Timed.played := by
  refine List.filter_eq_self.mpr fun y hy => ?_
  obtain ⟨x, -, rfl⟩ := List.mem_map.mp hy
  rfl

theorem queued_atOnce (now : Nat) (xs : List Action) :
    (atOnce now xs).filter Played.queued = [] := by
  refine List.filter_eq_nil_iff.mpr fun y hy => ?_
  obtain ⟨x, -, hx⟩ := List.mem_filterMap.mp hy
  split at hx
  · cases hx
    exact nofun
  · cases hx

/-! ## Steps in turn -/

namespace Sequence

variable {s k : Sequence} {places : List Place}

/-- A step as it is queued for a tick. -/
def emission (s : Sequence) (tick : Nat) (x : Place) : Emission where
  entry := some x.entry
  step := x.step
  tick := tick
  length := s.stepping.stepTicks s.tempo x.step
  events := Pattern.struck (s.patterns.getD x.entry.1 []) s.stepping.groove x.step

/-- Steps one after the other, from a tick on. -/
def emissions (s : Sequence) (tick : Nat) : List Place → List Emission
  | [] => []
  | x :: rest => s.emission tick x :: s.emissions (tick + (s.emission tick x).length) rest

theorem emissions_congr (hpatterns : k.patterns = s.patterns) (hstepping : k.stepping = s.stepping)
    (htempo : k.tempo = s.tempo) : k.emissions = s.emissions := by
  have hone : k.emission = s.emission := by
    funext tick x
    simp only [emission, hpatterns, hstepping, htempo]
  funext tick places
  induction places generalizing tick with
  | nil => rfl
  | cons x rest ih => rw [emissions, emissions, hone, ih]

/-- All that steps play. -/
def score (es : List Emission) : List Timed := es.flatMap fun e => e.onsets ++ e.ends

/-- To emit a step changes the place and the tick to come. -/
theorem emit_frame (k : Sequence) :
    k.emit.1.place = k.stepOn.place ∧ k.emit.1.patterns = k.patterns ∧
      k.emit.1.stepping = k.stepping ∧ k.emit.1.tempo = k.tempo ∧ k.emit.1.lag = k.lag ∧
      k.emit.1.playing = k.playing ∧ k.emit.1.nextTick = k.nextTick + k.stepTicks := by
  unfold emit stepOn
  split <;> exact ⟨rfl, rfl, rfl, rfl, rfl, rfl, rfl⟩

/-- A callback for a step queues it behind what is queued, and asks for the next one. -/
theorem wake_emission {m : Moment} {entry : Nat × Cursor} {queued : List Timed}
    (hplaying : s.playing = true) (hentry : s.upcoming? = some entry)
    (hnext : s.nextTick = m.now + s.lag) (hqueued : ∀ y ∈ queued, y.tick ≤ s.nextTick) :
    let e := s.emission s.nextTick ⟨entry, s.step⟩
    (s.wake m).1.place = (s.standing entry).stepOn.place ∧
      (s.wake m).1.emissions = s.emissions ∧ (s.wake m).1.playing = true ∧
      (s.wake m).1.lag = s.lag ∧ (s.wake m).1.nextTick = s.nextTick + e.length ∧
      Agenda.perform m.now (queued.map Timed.slot) (s.wake m).2 =
        Agenda.put ⟨m.now + e.length, none⟩ ((queued ++ (e.onsets ++ e.ends)).map Timed.slot) := by
  intro e
  obtain ⟨k, hk⟩ : ∃ k, k = { s with
    current := entry.1, cursor := entry.2, sounding := s.sounding.prune m.now } := ⟨_, rfl⟩
  have hwake : s.wake m = k.emit := by rw [s.wake_eq hplaying m, hentry, hk]
  obtain ⟨hplace, hpatterns, hstepping, htempo, hlag, hon, htick⟩ := k.emit_frame
  have hlength : k.stepTicks = e.length := by rw [hk]; rfl
  have hevents : k.stepEvents = e.events := by
    rw [k.stepEvents_eq, hk]
    rfl
  have hpos : 0 < e.length := hlength ▸ k.stepping.stepTicks_pos k.tempo k.step
  have hsame : k.nextTick = s.nextTick ∧ k.lag = s.lag ∧ k.playing = true ∧
      k.place = (s.standing entry).place := by
    rw [hk]
    exact ⟨rfl, rfl, hplaying, rfl⟩
  have hactions : k.emit.2 = k.stepper.stepActions e.events e.tick e.length := by
    rw [actions_emit, hevents, hlength]
    exact congrArg (k.stepper.stepActions _ · _) hsame.1
  rw [hwake]
  refine ⟨hplace.trans (place_stepOn hsame.2.2.2), ?_, hon.trans hsame.2.2.1,
    hlag.trans hsame.2.1, by rw [htick, hsame.1, hlength], ?_⟩
  · refine emissions_congr (hpatterns.trans ?_) (hstepping.trans ?_) (htempo.trans ?_)
    all_goals rw [hk]
  · have hahead : m.now ≤ e.tick := by
      show m.now ≤ s.nextTick
      omega
    have hcallback : max (e.tick + e.length - k.stepper.lag) m.now = m.now + e.length := by
      rw [show k.stepper.lag = s.lag from hsame.2.1, show e.tick = s.nextTick from rfl]
      omega
    rw [hactions, Agenda.perform_stepActions _ hahead, Agenda.putAll_append, hcallback,
      Emission.putAll_slots hpos hqueued]
    rfl

/-- The callback that finds no step to come drops what is queued. -/
theorem wake_end (hplaying : s.playing = true) (hentry : s.upcoming? = none) (m : Moment)
    (a : Agenda) : (s.wake m).1.playing = false ∧ a.perform m.now (s.wake m).2 = [] := by
  have hwake := s.wake_eq hplaying m
  rw [hentry] at hwake
  rw [hwake]
  exact ⟨rfl, Agenda.perform_release m.now [] _ m.now⟩

/-- A callback is due the lag ahead of the next step, and all that is queued plays by that step. -/
structure Awaits (s : Sequence) (now woken : Nat) (queued : List Timed) : Prop where
  playing : s.playing = true
  next : s.nextTick = woken + s.lag
  now_le : now ≤ woken
  ordered : Timed.Ordered queued
  ahead : ∀ y ∈ queued, now ≤ y.tick
  before : ∀ y ∈ queued, y.tick ≤ s.nextTick

/-- A callback for a step leaves the sequence awaiting the one after it, with the step queued behind
what is still to play. -/
theorem Awaits.emits {now woken : Nat} {queued : List Timed} {entry : Nat × Cursor}
    (h : s.Awaits now woken queued) (hentry : s.upcoming? = some entry) :
    let e := s.emission s.nextTick ⟨entry, s.step⟩
    let waiting := Timed.after woken queued ++ (e.onsets ++ e.ends)
    (s.wake ⟨woken, 0⟩).1.Awaits woken (woken + e.length) waiting ∧
      (s.wake ⟨woken, 0⟩).1.place = (s.standing entry).stepOn.place ∧
      (s.wake ⟨woken, 0⟩).1.emissions = s.emissions ∧
      (s.wake ⟨woken, 0⟩).1.nextTick = s.nextTick + e.length ∧
      Agenda.perform woken ((Timed.after woken queued).map Timed.slot) (s.wake ⟨woken, 0⟩).2 =
        Agenda.put ⟨woken + e.length, none⟩ (waiting.map Timed.slot) := by
  intro e waiting
  have hnext := h.next
  have hlate : ∀ y ∈ Timed.after woken queued, woken < y.tick ∧ y.tick ≤ s.nextTick := by
    intro y hy
    obtain ⟨hmem, hlate⟩ := Timed.mem_after.mp hy
    exact ⟨hlate, h.before y hmem⟩
  have hstruck : ∀ y ∈ waiting, woken ≤ y.tick ∧ y.tick ≤ s.nextTick + e.length := by
    intro y hy
    rcases List.mem_append.mp hy with hy | hy
    · have := hlate y hy
      omega
    · have htick : y.tick = s.nextTick ∨ y.tick = s.nextTick + e.length :=
        (List.mem_append.mp hy).imp Emission.tick_of_mem_onsets Emission.tick_of_mem_ends
      omega
  obtain ⟨hplace, hsame, hon, hlag, hstep, hqueue⟩ := wake_emission (m := ⟨woken, 0⟩)
    h.playing hentry hnext fun y hy => (hlate y hy).2
  exact ⟨
    { playing := hon
      next := by
        rw [hstep, hlag]
        show s.nextTick + e.length = woken + e.length + s.lag
        omega
      now_le := Nat.le_add_right _ _
      ordered := Emission.ordered_struck (h.ordered.filter _) fun y hy => (hlate y hy).2
      ahead := fun y hy => (hstruck y hy).1
      before := fun y hy => hstep ▸ (hstruck y hy).2 },
    hplace, hsame, hstep, hqueue⟩

/-- From a callback on, a sequence that has so many steps to come plays what it has queued and what
these steps queue, up to the lag before the end of the last one, and stops. -/
theorem drains (hcomes : Comes s places) {now woken limit : Nat} {queued : List Timed}
    (hawaits : s.Awaits now woken queued) {last : Nat}
    (hlast : last = woken + ((s.emissions s.nextTick places).map Emission.length).sum)
    (hlimit : last ≤ limit) :
    ∃ played k, k.playing = false ∧
      Solo.Drains limit ⟨now, some (.sequence s), Agenda.put ⟨woken, none⟩ (queued.map Timed.slot)⟩
        played ⟨last, some (.sequence k), []⟩ ∧
      played.filter Played.queued =
        (Timed.upTo last (queued ++ score (s.emissions s.nextTick places))).map Timed.played := by
  induction places generalizing s now woken queued with
  | nil =>
    obtain rfl : last = woken := hlast
    cases hcomes with
    | ends hentry =>
      obtain ⟨hsilent, hnone⟩ := wake_end hawaits.playing hentry ⟨last, 0⟩
        ((Timed.after last queued).map Timed.slot)
      have hrest : Solo.Drains limit ⟨last, some (.sequence (s.wake ⟨last, 0⟩).1),
          Agenda.perform last ((Timed.after last queued).map Timed.slot) (s.wake ⟨last, 0⟩).2⟩ []
          ⟨last, some (.sequence (s.wake ⟨last, 0⟩).1), []⟩ := by
        rw [show Agenda.perform last _ (s.wake ⟨last, 0⟩).2 = [] from hnone]
        exact .rest nofun
      refine ⟨_, _, hsilent, .wake (p := .sequence s) (m := ⟨last, 0⟩) hawaits.ordered
        hawaits.now_le hawaits.ahead hlimit hrest, ?_⟩
      rw [List.filter_append, List.filter_append, queued_atOnce, queued_played, emissions, score]
      simp
  | cons x rest ih =>
    cases hcomes with
    | @steps _ entry _ hentry hcomes =>
      obtain ⟨hnext, hplace, hsame, hstep, hqueue⟩ := hawaits.emits hentry
      obtain ⟨e, he⟩ : ∃ e, e = s.emission s.nextTick ⟨entry, s.step⟩ := ⟨_, rfl⟩
      rw [← he] at hnext hstep hqueue
      have hmore : s.emissions s.nextTick (⟨entry, s.step⟩ :: rest) =
          e :: s.emissions (s.nextTick + e.length) rest := by rw [emissions, ← he]
      rw [hmore, List.map_cons, List.sum_cons, ← Nat.add_assoc] at hlast
      obtain ⟨played, k, hsilent, hdrains, hplayed⟩ :=
        ih (hcomes.congr hplace) hnext (by rw [hsame, hstep, hlast])
      have hwoken : woken ≤ last := by omega
      refine ⟨_, k, hsilent, .wake (p := .sequence s) (m := ⟨woken, 0⟩) hawaits.ordered
        hawaits.now_le hawaits.ahead (Nat.le_trans hwoken hlimit) (hqueue ▸ hdrains), ?_⟩
      rw [List.filter_append, List.filter_append, queued_atOnce, queued_played, hplayed, hsame,
        hstep, hmore, List.nil_append, ← List.map_append, List.append_assoc,
        Timed.upTo_after_append hawaits.ordered hwoken]
      rfl

end Sequence

end MidiRig
