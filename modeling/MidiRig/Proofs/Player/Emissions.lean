import MidiRig.Proofs.Player.Notes
import MidiRig.Proofs.Player.Struck
import MidiRig.Proofs.Stage.Log

/-!
# Steps as they are queued

A sequence and an arpeggio queue one step after the other, each as they are woken for it. An
`Emission` is a step that is queued: its place, its tick and its length, and the events that it
queues. `Told.InSteps` says of a stretch of a player's log, from where the player starts as far as
it goes on without a stop, what it queues in all: an emission for each callback and nothing for
anything else, in the order of the steps, each from the tick on at which the one before ends. That
is so for every stretch of a log whose callbacks are prompt (`Told.inSteps_of_goesOn`), and where
the clock stops at every item they are (`Past.prompt`).
-/

namespace MidiRig

structure Emission where
  /-- For a sequence the pattern, from `0`, and the place of its entry in the order. -/
  entry : Option (Nat × Cursor)
  step : Nat
  tick : Nat
  length : Nat
  events : List Event

namespace Agenda

/-- Puts one slot after the other. -/
def putAll (a : Agenda) (xs : List Slot) : Agenda := xs.foldl (fun a x => put x a) a

theorem putAll_append (a : Agenda) (xs ys : List Slot) :
    a.putAll (xs ++ ys) = (a.putAll xs).putAll ys := List.foldl_append

end Agenda

namespace Emission

variable {e next : Emission} {now lag : Nat}

/-- Every event at the tick of the step, and each note-off at its end. -/
def slots (e : Emission) : List Slot :=
  e.events.flatMap fun event =>
    ⟨e.tick, some event⟩ :: (noteOffs e.length e.tick event).map fun off => ⟨off.1, some off.2⟩

/-- What is queued lies ahead, so it is queued for the ticks that it asks for. -/
theorem perform_slots (h : now ≤ e.tick) (a : Agenda) :
    a.perform now (e.events.flatMap (strike e.length e.tick)) = a.putAll e.slots := by
  unfold slots
  induction e.events generalizing a with
  | nil => rfl
  | cons event rest ih =>
    have hevent : a.perform now (strike e.length e.tick event) =
        a.putAll (⟨e.tick, some event⟩ ::
          (noteOffs e.length e.tick event).map fun off => ⟨off.1, some off.2⟩) := by
      have htick : max e.tick now = e.tick := Nat.max_eq_left h
      have hend : max (e.tick + e.length) now = e.tick + e.length := Nat.max_eq_left (by omega)
      unfold strike noteOffs
      split
      · show Agenda.put ⟨max _ now, _⟩ (Agenda.put ⟨max _ now, _⟩ a) = _
        rw [htick, hend]
        rfl
      · show Agenda.put ⟨max _ now, _⟩ a = _
        rw [htick]
        rfl
    rw [List.flatMap_cons, List.flatMap_cons, Agenda.perform_append, Agenda.putAll_append, hevent]
    exact ih _

/-- The emission after this one, of a player with these patterns in this order, or of an arpeggio:
the next step of the pattern while one of its voices has one, and then the first step of the pattern
that comes next. -/
def Follows (plan : Option (List Pattern × List Int)) (e next : Emission) : Prop :=
  next.tick = e.tick + e.length ∧
    match plan, e.entry with
    | some (patterns, order), some (pattern, cursor) =>
      if ∃ voice ∈ patterns.getD pattern [], e.step + 1 < voice.length then
        next.step = e.step + 1 ∧ next.entry = e.entry
      else next.step = 0 ∧ next.entry = cursor.next.pattern? order patterns.length
    | none, none => next.step = e.step + 1 ∧ next.entry = none
    | _, _ => False

end Emission

/-! ## Players that step -/

/-- The pattern of the step to come with the place of its entry. -/
def Sequence.upcoming? (s : Sequence) : Option (Nat × Cursor) :=
  if s.step = 0 then s.cursor.pattern? s.order s.patterns.length else some (s.current, s.cursor)

namespace Player

/-- The patterns of a sequence and their order. -/
def plan : Player → Option (List Pattern × List Int)
  | sequence s => some (s.patterns, s.order)
  | _ => none

/-- Length of a step under the tempo and the swing that the player has. -/
def stepTicks (p : Player) (step : Nat) : Nat :=
  match p with
  | sequence s => s.stepping.stepTicks s.tempo step
  | arpeggio a => a.stepping.stepTicks a.tempo step
  | loop _ | track _ => 0

/-- Whether these are the events of a step: the cells of the pattern, or the keys that are held,
with their accents. -/
def Strikes (p : Player) (entry : Option (Nat × Cursor)) (step : Nat) (events : List Event) :
    Prop :=
  match p, entry with
  | sequence s, some (pattern, _) =>
    events = Pattern.struck (s.patterns.getD pattern []) s.stepping.groove step
  | arpeggio a, none => a.Strikes step events
  | _, _ => False

/-- Whether the player strikes as it starts, and does not wait for a callback. -/
def strikes : Player → Bool
  | arpeggio a => a.style == .chord
  | _ => false

/-- Whether an emission is at the place and the tick to come. -/
def Next (p : Player) (e : Emission) : Prop :=
  match p with
  | sequence s => e.tick = s.nextTick ∧ e.step = s.step ∧ e.entry = s.upcoming?
  | arpeggio a => e.tick = a.nextTick ∧ e.step = a.step ∧ e.entry = none
  | loop _ | track _ => False

end Player

instance (actions : List Action) : Decidable (.cancel ∈ actions) :=
  decidable_of_iff (actions.any (fun | .cancel => true | _ => false) = true) <| by
    rw [List.any_eq_true]
    refine ⟨fun ⟨x, hx, hcancel⟩ => ?_, fun h => ⟨_, h, rfl⟩⟩
    cases x with
    | cancel => exact hx
    | _ => cases hcancel

namespace Told

variable {x : Told} {e : Emission}

/-- A player is told something that makes it play, from the beginning. -/
def Starts (x : Told) : Prop :=
  x.after.isPlaying = true ∧ (x.player.isPlaying = true → .cancel ∈ x.actions)

/-- A player that plays is told something, and plays on with what it has queued. -/
def GoesOn (x : Told) : Prop :=
  x.player.isPlaying = true ∧ x.after.isPlaying = true ∧ .cancel ∉ x.actions

instance (x : Told) : Decidable x.Starts := inferInstanceAs (Decidable (_ ∧ _))

instance (x : Told) : Decidable x.GoesOn := inferInstanceAs (Decidable (_ ∧ _ ∧ _))

/-- It queues a step, which does not lie in the past, and asks for the next one. -/
structure Emits (x : Told) (e : Emission) : Prop where
  length : e.length = x.after.stepTicks e.step
  pos : 0 < e.length
  events : x.after.Strikes e.entry e.step e.events
  queue : ∃ p, x.player.stepper? = some p ∧ x.queue = x.agenda.putAll
    (e.slots ++ [⟨max (e.tick + e.length - p.lag) x.moment.now, none⟩])
  ahead : x.moment.now ≤ e.tick

/-- Of all that a player is told, the callbacks make it queue steps, one each, and nothing else
makes it queue anything. -/
inductive Emit : List Told → List Emission → Prop where
  | nil : Emit [] []
  | steps {x : Told} {e : Emission} {xs : List Told} {es : List Emission} (hcall : x.call = .wake)
      (h : x.Emits e) (hrest : Emit xs es) : Emit (x :: xs) (e :: es)
  | rests {x : Told} {xs : List Told} {es : List Emission} (hcall : x.call ≠ .wake)
      (h : x.queue = x.agenda) (hrest : Emit xs es) : Emit (x :: xs) es

/-- The first step, told by what starts the player: for a sequence the call to play, with its count,
and for an arpeggio a key. -/
def Opens (x : Told) (e : Emission) : Prop :=
  e.step = 0 ∧
    match x.player, x.call with
    | .sequence s, .play loops => e.tick = x.moment.now + s.lag ∧
        ∃ passes, playCount? loops = some passes ∧
          e.entry = (Cursor.start s.order.length passes).pattern? s.order s.patterns.length
    | .arpeggio a, .add _ => e.entry = none ∧
        e.tick = if a.style = .chord then x.moment.now else x.moment.now + a.lag
    | _, _ => False

/-- What is queued from a start on. Only chords strike as they start. -/
structure InSteps (first : Told) (rest : List Told) (es : List Emission) : Prop where
  queued : if first.player.strikes then
      ∃ e more, es = e :: more ∧ first.Emits e ∧ Emit rest more
    else first.queue = [⟨first.moment.now, none⟩] ∧ Emit rest es
  opens : ∀ e ∈ es.head?, first.Opens e
  follows : es.IsChain (Emission.Follows first.player.plan)

/-- Nothing is queued for a player that does not play, an arpeggio has the notes of its keys, and a
callback does not come late. -/
structure Prompt (x : Told) : Prop where
  tidy : x.player.Tidy x.agenda
  inTune : ∀ a, x.player = .arpeggio a → a.InTune
  ahead : x.call = .wake → ∀ p, x.player.stepper? = some p → p.playing = true →
    x.moment.now ≤ p.nextTick

end Told

theorem Agenda.perform_stepActions {now : Nat} (p : Stepper) {e : Emission} (h : now ≤ e.tick)
    (a : Agenda) : a.perform now (p.stepActions e.events e.tick e.length) =
      a.putAll (e.slots ++ [⟨max (e.tick + e.length - p.lag) now, none⟩]) := by
  unfold Stepper.stepActions
  rw [perform_append, putAll_append, Emission.perform_slots h]
  rfl

/-- A callback makes nothing play that has not been playing, and drops nothing that goes on. -/
theorem Stepper.Wakes.goesOn {now : Nat} {p q : Stepper} {xs : List Action} (h : Wakes now p xs q)
    (hq : q.playing = true) : p.playing = true ∧ .cancel ∉ xs := by
  cases h with
  | sleeps hp => exact absurd (hp.symm.trans hq) nofun
  | steps hp events =>
    refine ⟨hp, fun hmem => ?_⟩
    rcases List.mem_append.mp hmem with hmem | hmem
    · obtain ⟨event, -, hmem⟩ := List.mem_flatMap.mp hmem
      rcases List.mem_cons.mp hmem with hmem | hmem
      · cases hmem
      · obtain ⟨off, -, hoff⟩ := List.mem_map.mp hmem
        cases hoff
    · cases List.mem_singleton.mp hmem
  | ends => cases hq

/-! ## Sequences -/

namespace Sequence

variable {s : Sequence} {m : Moment} {a : Agenda} {c : Call}

theorem choose?_eq (s : Sequence) :
    s.choose? = s.upcoming?.map fun entry => { s with current := entry.1, cursor := entry.2 } := by
  unfold choose? upcoming?
  split
  · rfl
  · rfl

/-- After a step the place to come is the one that follows. -/
theorem follows_emit {next : Emission} (h : (Player.sequence s.emit.1).Next next)
    (events : List Event) : Emission.Follows (some (s.patterns, s.order))
      ⟨some (s.current, s.cursor), s.step, s.nextTick, s.stepTicks, events⟩ next := by
  obtain ⟨htick, hstep, hentry⟩ := h
  change next.step = s.stepOn.step at hstep
  change next.entry = upcoming? { s.stepOn with nextTick := _, sounding := _ } at hentry
  refine ⟨htick, ?_⟩
  show if ∃ voice ∈ s.pattern, s.step + 1 < voice.length then _ else _
  simp only [← Pattern.lt_length_iff]
  split
  · next hinside =>
    rw [show s.stepOn = { s with step := s.step + 1 } from if_neg (by omega)] at hstep hentry
    exact ⟨hstep, hentry.trans (if_neg (Nat.succ_ne_zero _))⟩
  · next hlast =>
    rw [show s.stepOn = { s with step := 0, cursor := s.cursor.next } from if_pos (by omega)]
      at hstep hentry
    exact ⟨hstep, hentry⟩

theorem wake_eq (hplaying : s.playing = true) (m : Moment) :
    s.wake m = match s.upcoming? with
      | some entry => Sequence.emit { s with
          current := entry.1, cursor := entry.2, sounding := s.sounding.prune m.now }
      | none => Sequence.stop { s with sounding := s.sounding.prune m.now } m := by
  unfold wake
  rw [hplaying]
  simp only [Bool.not_true, Bool.false_eq_true, if_false]
  have hsame : upcoming? { s with playing := true, sounding := s.sounding.prune m.now } =
      s.upcoming? := rfl
  rw [choose?_eq, hsame]
  cases s.upcoming? <;> rfl

/-- To emit a step is to queue it and to go on to the one that follows. -/
theorem emits_of_eq_emit {k : Sequence} (hemit : s.respond m c = k.emit)
    (hahead : m.now ≤ k.nextTick) (hlag : s.lag = k.lag) :
    ∃ e, (Told.mk m (.sequence s) a c).Emits e ∧ e.tick = k.nextTick ∧ e.step = k.step ∧
      e.entry = some (k.current, k.cursor) ∧
      ∀ next, (Told.mk m (.sequence s) a c).after.Next next →
        Emission.Follows (some (k.patterns, k.order)) e next := by
  have hafter : k.emit.1.stepping = k.stepping ∧ k.emit.1.tempo = k.tempo ∧
      k.emit.1.patterns = k.patterns := by
    unfold emit stepOn
    split <;> exact ⟨rfl, rfl, rfl⟩
  refine ⟨⟨some (k.current, k.cursor), k.step, k.nextTick, k.stepTicks, k.stepEvents⟩,
    ⟨?_, k.stepping.stepTicks_pos k.tempo k.step, ?_, ⟨s.stepper, rfl, ?_⟩, hahead⟩, rfl, rfl, rfl,
    fun next hnext => ?_⟩
  · show k.stepTicks = (s.respond m c).1.stepping.stepTicks (s.respond m c).1.tempo k.step
    rw [hemit, hafter.1, hafter.2.1]
    rfl
  · show k.stepEvents = Pattern.struck ((s.respond m c).1.patterns.getD k.current [])
      (s.respond m c).1.stepping.groove k.step
    rw [hemit, hafter.1, hafter.2.2]
    exact k.stepEvents_eq
  · show a.perform m.now (s.respond m c).2 = _
    rw [hemit, actions_emit, ← Agenda.perform_stepActions s.stepper (by exact hahead)]
    unfold Stepper.stepActions
    rw [show s.stepper.lag = k.stepper.lag from hlag]
    rfl
  · change (Player.sequence (s.respond m c).1).Next next at hnext
    rw [hemit] at hnext
    exact follows_emit hnext _

/-- A callback of a sequence that goes on queues the step to come. -/
theorem emits_wake (hplaying : s.playing = true) (hahead : m.now ≤ s.nextTick)
    (hon : (s.wake m).1.playing = true) :
    ∃ e, (Told.mk m (.sequence s) a .wake).Emits e ∧ (Player.sequence s).Next e ∧
      ∀ next, (Told.mk m (.sequence s) a .wake).after.Next next →
        Emission.Follows (some (s.patterns, s.order)) e next := by
  have hwake := s.wake_eq hplaying m
  cases hentry : s.upcoming? with
  | none =>
    rw [hwake, hentry] at hon
    cases hon
  | some entry =>
    rw [hentry] at hwake
    obtain ⟨e, hemits, htick, hstep, hplace, hnext⟩ :=
      emits_of_eq_emit (a := a) (c := .wake) hwake hahead rfl
    exact ⟨e, hemits, ⟨htick, hstep, hplace.trans hentry.symm⟩, hnext⟩

/-- What a sequence is told besides its callbacks, and goes on, leaves its queue and its place. -/
theorem rests_of_goesOn (h : (Told.mk m (.sequence s) a c).GoesOn) (hc : c ≠ .wake) :
    (Told.mk m (.sequence s) a c).queue = a ∧
      ∀ e, (Told.mk m (.sequence s) a c).after.Next e → (Player.sequence s).Next e := by
  obtain ⟨hplaying, hon, hkept⟩ := h
  change s.playing = true at hplaying
  have hstop : s.stopIfPlaying m = s.stop m := if_pos hplaying
  cases c with
  | wake => exact absurd rfl hc
  | play loops =>
    refine absurd ?_ hkept
    show Action.cancel ∈ (s.play loops m).2
    unfold play
    rw [hstop]
    cases playCount? loops <;> exact List.mem_cons_self
  | dismiss =>
    refine absurd ?_ hkept
    show Action.cancel ∈ (s.stopIfPlaying m).2
    rw [hstop]
    exact List.mem_cons_self
  | _ => exact ⟨rfl, fun e he => he⟩

/-- A call to play begins with the first step, whatever has been playing. -/
theorem play_begins {loops : Float} {passes : Option Nat} (hcount : playCount? loops = some passes)
    (htidy : (Player.sequence s).Tidy a) :
    (∃ sounding, (s.play loops m).1 = { s with
      playing := true
      cursor := Cursor.start s.order.length passes
      step := 0
      nextTick := m.now + s.lag
      sounding }) ∧ a.perform m.now (s.play loops m).2 = [⟨m.now, none⟩] := by
  obtain ⟨hstops, hsilent⟩ := s.stops_or_rests m
  have hplay : s.play loops m = (((s.stopIfPlaying m).1.start passes m).1,
      (s.stopIfPlaying m).2 ++ [.callback m.now]) := by
    unfold play
    rw [hcount]
    rfl
  rw [hplay]
  refine ⟨⟨(s.stopIfPlaying m).1.sounding, ?_⟩, ?_⟩
  · unfold stopIfPlaying
    split <;> rfl
  · rw [Agenda.perform_append, Stepper.rest_does hstops htidy hsilent]
    show [Slot.mk (max m.now m.now) none] = _
    rw [Nat.max_self]

/-- A sequence is started by a call to play. -/
theorem opens_of_starts (h : (Told.mk m (.sequence s) a c).Starts)
    (htidy : (Player.sequence s).Tidy a) :
    (Told.mk m (.sequence s) a c).queue = [⟨m.now, none⟩] ∧
      ∀ e, (Told.mk m (.sequence s) a c).after.Next e → (Told.mk m (.sequence s) a c).Opens e := by
  obtain ⟨hon, hdrops⟩ := h
  change s.playing = true → _ at hdrops
  have hquiet : ∀ {k : Sequence}, s.respond m c = (k, []) → k.playing = s.playing → False := by
    intro k hrespond hplaying
    have hafter : (s.respond m c).1.playing = true := hon
    rw [hrespond] at hafter
    have hmem : Action.cancel ∈ (s.respond m c).2 := hdrops (hplaying.symm.trans hafter)
    rw [hrespond] at hmem
    cases hmem
  cases c with
  | play loops =>
    cases hcount : playCount? loops with
    | none =>
      have hafter : (s.play loops m).1.playing = true := hon
      unfold play at hafter
      rw [hcount] at hafter
      exact absurd ((s.stops_or_rests m).2.symm.trans hafter) nofun
    | some passes =>
      obtain ⟨⟨sounding, hplay⟩, hqueue⟩ := s.play_begins (m := m) hcount htidy
      refine ⟨hqueue, fun e he => ?_⟩
      change (Player.sequence (s.play loops m).1).Next e at he
      rw [hplay] at he
      obtain ⟨htick, hstep, hentry⟩ := he
      exact ⟨hstep, htick, passes, hcount, hentry⟩
  | wake =>
    obtain ⟨hplaying, hkept⟩ := (s.wakes_wake m).goesOn hon
    exact absurd (hdrops hplaying) hkept
  | dismiss => exact absurd ((s.stops_or_rests m).2.symm.trans hon) nofun
  | _ => exact (hquiet rfl rfl).elim

end Sequence

/-! ## Arpeggios -/

namespace Arpeggio

variable {p : Arpeggio} {m : Moment} {a : Agenda} {c : Call}

/-- To emit a step is to queue it and to go on to the one that follows. -/
theorem emits_of_eq_emit {q : Arpeggio} (hemit : p.respond m c = q.emit) (hnotes : q.notes ≠ [])
    (htuned : p.InTune) (hahead : m.now ≤ q.nextTick) (hlag : p.lag = q.lag) :
    ∃ e, (Told.mk m (.arpeggio p) a c).Emits e ∧ e.tick = q.nextTick ∧ e.step = q.step ∧
      e.entry = none ∧ ∀ next, (Told.mk m (.arpeggio p) a c).after.Next next →
        Emission.Follows none e next := by
  have hstepped : (p.respond m c).1 = { q with
      step := q.step + 1
      nextTick := q.nextTick + q.stepTicks
      sounding := q.sounding ++ q.stepEvents.flatMap (noteOffs q.stepTicks q.nextTick) } := by
    rw [hemit, emit, if_neg (by simpa using hnotes)]
  refine ⟨⟨none, q.step, q.nextTick, q.stepTicks, q.stepEvents⟩,
    ⟨?_, q.stepping.stepTicks_pos q.tempo q.step, ?_, ⟨p.stepper, rfl, ?_⟩, hahead⟩, rfl, rfl, rfl,
    fun next hnext => ?_⟩
  · show q.stepTicks = (Player.arpeggio (p.respond m c).1).stepTicks q.step
    rw [hstepped]
    rfl
  · have hafter := inTune_respond htuned m c
    show (p.respond m c).1.Strikes q.step q.stepEvents
    rw [hstepped] at hafter ⊢
    obtain ⟨style, events, hafter⟩ := hafter
    exact hafter.strikes hnotes q.step
  · show a.perform m.now (p.respond m c).2 = _
    rw [hemit, actions_emit hnotes, ← Agenda.perform_stepActions p.stepper (by exact hahead)]
    unfold Stepper.stepActions
    rw [show p.stepper.lag = q.stepper.lag from hlag]
    rfl
  · change (Player.arpeggio (p.respond m c).1).Next next at hnext
    rw [hstepped] at hnext
    exact hnext

theorem emits_wake (hkeyed : p.Keyed) (htuned : p.InTune) (hplaying : p.playing = true)
    (hahead : m.now ≤ p.nextTick) :
    ∃ e, (Told.mk m (.arpeggio p) a .wake).Emits e ∧ (Player.arpeggio p).Next e ∧
      ∀ next, (Told.mk m (.arpeggio p) a .wake).after.Next next →
        Emission.Follows none e next := by
  have hheld : p.held ≠ [] := by
    have := hkeyed.playing
    rw [hplaying] at this
    simpa using this.symm
  have hwake : p.respond m .wake = Arpeggio.emit { p with sounding := p.sounding.prune m.now } :=
    if_pos hplaying
  obtain ⟨e, hemits, htick, hstep, hentry, hnext⟩ :=
    emits_of_eq_emit (a := a) hwake (hkeyed.notes hheld) htuned hahead rfl
  exact ⟨e, hemits, ⟨htick, hstep, hentry⟩, hnext⟩

/-- What an arpeggio is told besides its callbacks, and goes on, leaves its queue and its place. -/
theorem rests_of_goesOn (hkeyed : p.Keyed) (h : (Told.mk m (.arpeggio p) a c).GoesOn)
    (hc : c ≠ .wake) : (Told.mk m (.arpeggio p) a c).queue = a ∧
      ∀ e, (Told.mk m (.arpeggio p) a c).after.Next e → (Player.arpeggio p).Next e := by
  obtain ⟨hplaying, hon, -⟩ := h
  change p.playing = true at hplaying
  change (p.respond m c).1.playing = true at hon
  show a.perform m.now (p.respond m c).2 = a ∧
    ∀ e, (Player.arpeggio (p.respond m c).1).Next e → (Player.arpeggio p).Next e
  have hletGo : (p.letGo m).1.playing ≠ true := by
    rw [(p.does_letGo m).2.1]
    exact nofun
  cases c with
  | wake => exact absurd rfl hc
  | play loops =>
    simp only [respond] at hon ⊢
    split at hon
    · exact absurd hon hletGo
    · next hcount =>
      rw [if_neg hcount]
      exact ⟨rfl, fun e he => he⟩
  | dismiss => exact absurd hon hletGo
  | add key =>
    have hheld : p.held.isEmpty = false := by
      have := hkeyed.playing
      rw [hplaying] at this
      simpa using this.symm
    simp only [respond, add, hheld, Bool.false_eq_true, if_false] at hon ⊢
    split
    · exact ⟨rfl, fun e he => he⟩
    · next hkind =>
      rw [if_neg hkind] at hon
      split
      · next hnone =>
        rw [if_pos hnone] at hon
        cases hon
      · exact ⟨rfl, fun e he => he⟩
  | _ => exact ⟨rfl, fun e he => he⟩

/-- An arpeggio is started by the first key. -/
theorem start_of_starts (hkeyed : p.Keyed) (h : (Told.mk m (.arpeggio p) a c).Starts) :
    p.playing = false ∧ ∃ key, c = .add key ∧ ∃ q : Arpeggio, q.style = p.style ∧ q.lag = p.lag ∧
      q.notes ≠ [] ∧ p.respond m c = q.start m := by
  obtain ⟨hon, hdrops⟩ := h
  change (p.respond m c).1.playing = true at hon
  change p.playing = true → Action.cancel ∈ (p.respond m c).2 at hdrops
  have hletGo : (p.letGo m).1.playing ≠ true := by
    rw [(p.does_letGo m).2.1]
    exact nofun
  have hquiet : ∀ {q : Arpeggio}, p.respond m c = (q, []) → q.playing = p.playing → False := by
    intro q hrespond hplaying
    rw [hrespond] at hon hdrops
    cases hdrops (hplaying.symm.trans hon)
  cases c with
  | wake =>
    obtain ⟨hplaying, hkept⟩ := (wakes_wake hkeyed m).1.goesOn hon
    exact absurd (hdrops hplaying) hkept
  | play loops =>
    by_cases hcount : (loops == 0.0) = true
    · have hrespond : p.respond m (.play loops) = p.letGo m := if_pos hcount
      exact absurd (hrespond ▸ hon) hletGo
    · exact (hquiet (if_neg hcount) rfl).elim
  | dismiss => exact absurd hon hletGo
  | add key =>
    by_cases hkind : key.kind ≠ .note ∧ key.kind ≠ .noteOff
    · exact (hquiet (if_pos hkind) rfl).elim
    have hadd : p.respond m (.add key) = p.add key m := rfl
    rw [hadd] at hon hquiet ⊢
    unfold add at hon hquiet ⊢
    rw [if_neg hkind] at hon hquiet ⊢
    simp only at hon hquiet ⊢
    by_cases hbefore : p.held.isEmpty = true
    · rw [if_pos hbefore] at hon hquiet ⊢
      have hsilent : p.playing = false := by rw [hkeyed.playing, hbefore]; rfl
      by_cases hafter : (holdKey p.held key).isEmpty = true
      · rw [if_pos hafter] at hquiet
        exact (hquiet rfl rfl).elim
      · rw [if_neg hafter]
        exact ⟨hsilent, key, rfl,
          { p with held := holdKey p.held key, notes := p.style.arrange (holdKey p.held key) },
          rfl, rfl, arrange_ne_nil p.style (by simpa using hafter), rfl⟩
    · rw [if_neg hbefore] at hon hquiet
      by_cases hafter : (holdKey p.held key).isEmpty = true
      · rw [if_pos hafter] at hon
        cases hon
      · rw [if_neg hafter] at hquiet
        exact (hquiet rfl rfl).elim
  | _ => exact (hquiet rfl rfl).elim

/-- A chord strikes as it starts. -/
theorem emits_of_starts (hkeyed : p.Keyed) (htuned : p.InTune)
    (h : (Told.mk m (.arpeggio p) a c).Starts) (hstyle : p.style = .chord) :
    ∃ e, (Told.mk m (.arpeggio p) a c).Emits e ∧ (Told.mk m (.arpeggio p) a c).Opens e ∧
      ∀ next, (Told.mk m (.arpeggio p) a c).after.Next next → Emission.Follows none e next := by
  obtain ⟨-, key, rfl, q, hsame, hlag, hnotes, hstart⟩ := start_of_starts hkeyed h
  have hemit : p.respond m (.add key) =
      Arpeggio.emit { q with playing := true, step := 0, nextTick := m.now } := by
    rw [hstart, start]
    exact if_pos (hsame.trans hstyle)
  obtain ⟨e, hemits, htick, hstep, hentry, hnext⟩ :=
    emits_of_eq_emit (a := a) hemit hnotes htuned (Nat.le_refl _) hlag.symm
  exact ⟨e, hemits, ⟨hstep, hentry, htick.trans (if_pos hstyle).symm⟩, hnext⟩

/-- The other styles wait for their first callback. -/
theorem opens_of_starts (hkeyed : p.Keyed) (h : (Told.mk m (.arpeggio p) a c).Starts)
    (htidy : p.playing = false → a = []) (hstyle : p.style ≠ .chord) :
    (Told.mk m (.arpeggio p) a c).queue = [⟨m.now, none⟩] ∧
      ∀ e, (Told.mk m (.arpeggio p) a c).after.Next e → (Told.mk m (.arpeggio p) a c).Opens e := by
  obtain ⟨hsilent, key, rfl, q, hsame, hlag, -, hstart⟩ := start_of_starts hkeyed h
  have hwaits : p.respond m (.add key) =
      ({ q with playing := true, step := 0, nextTick := m.now + q.lag }, [.callback m.now]) := by
    rw [hstart, start]
    exact if_neg (hsame ▸ hstyle)
  refine ⟨?_, fun e he => ?_⟩
  · show a.perform m.now (p.respond m (.add key)).2 = _
    rw [hwaits, htidy hsilent]
    show [Slot.mk (max m.now m.now) none] = _
    rw [Nat.max_self]
  · change (Player.arpeggio (p.respond m (.add key)).1).Next e at he
    rw [hwaits] at he
    obtain ⟨htick, hstep, hentry⟩ := he
    refine ⟨hstep, hentry, htick.trans ?_⟩
    rw [if_neg hstyle, ← hlag]

end Arpeggio

/-! ## Stretches of a log -/

theorem Player.plan_respond (p : Player) (m : Moment) (c : Call) :
    (p.respond m c).1.plan = p.plan := by
  cases p with
  | sequence s =>
    have hstop : ∀ k : Sequence, ((k.stopIfPlaying m).1.patterns, (k.stopIfPlaying m).1.order) =
        (k.patterns, k.order) := by
      intro k
      unfold Sequence.stopIfPlaying
      split <;> rfl
    refine congrArg some (show ((s.respond m c).1.patterns, (s.respond m c).1.order) = _ from ?_)
    cases c with
    | play loops =>
      simp only [Sequence.respond, Sequence.play]
      split
      · exact hstop s
      · exact hstop s
    | dismiss => exact hstop s
    | wake =>
      show ((s.wake m).1.patterns, (s.wake m).1.order) = _
      by_cases hplaying : s.playing = true
      · rw [s.wake_eq hplaying m]
        split
        · unfold Sequence.emit Sequence.stepOn
          split <;> rfl
        · rfl
      · unfold Sequence.wake
        rw [if_pos (by simpa using hplaying)]
    | _ => rfl
  | _ => rfl

namespace Told

variable {x first : Told} {rest : List Told}

/-- A callback queues the step to come, and whatever else is told leaves that to come. -/
theorem emits_or_rests (hstepped : x.player.stepper?.isSome = true) (hprompt : x.Prompt)
    (h : x.GoesOn) :
    (x.call = .wake ∧ ∃ e, x.Emits e ∧ x.player.Next e ∧
      ∀ next, x.after.Next next → e.Follows x.player.plan next) ∨
    (x.call ≠ .wake ∧ x.queue = x.agenda ∧ ∀ e, x.after.Next e → x.player.Next e) := by
  obtain ⟨m, p, a, c⟩ := x
  by_cases hc : c = .wake
  · subst hc
    refine .inl ⟨rfl, ?_⟩
    cases p with
    | sequence s => exact s.emits_wake h.1 (hprompt.ahead rfl _ rfl h.1) h.2.1
    | arpeggio p =>
      exact p.emits_wake hprompt.tidy.1 (hprompt.inTune p rfl) h.1 (hprompt.ahead rfl _ rfl h.1)
    | loop l => cases hstepped
    | track t => cases hstepped
  · refine .inr ⟨hc, ?_⟩
    cases p with
    | sequence s => exact Sequence.rests_of_goesOn h hc
    | arpeggio p => exact Arpeggio.rests_of_goesOn hprompt.tidy.1 h hc
    | loop l => cases hstepped
    | track t => cases hstepped

/-- A chord strikes as it starts, and other steppers ask for their first callback. -/
theorem opens_of_starts (hstepped : x.player.stepper?.isSome = true) (hprompt : x.Prompt)
    (h : x.Starts) :
    if x.player.strikes then
      ∃ e, x.Emits e ∧ x.Opens e ∧ ∀ next, x.after.Next next → e.Follows x.player.plan next
    else x.queue = [⟨x.moment.now, none⟩] ∧ ∀ e, x.after.Next e → x.Opens e := by
  obtain ⟨m, p, a, c⟩ := x
  cases p with
  | sequence s => exact Sequence.opens_of_starts h hprompt.tidy
  | arpeggio p =>
    by_cases hstyle : p.style = .chord
    · have hstrikes : (Player.arpeggio p).strikes = true := by simp [Player.strikes, hstyle]
      rw [if_pos hstrikes]
      exact Arpeggio.emits_of_starts hprompt.tidy.1 (hprompt.inTune p rfl) h hstyle
    · have hwaits : ¬ (Player.arpeggio p).strikes = true := by simp [Player.strikes, hstyle]
      rw [if_neg hwaits]
      exact Arpeggio.opens_of_starts hprompt.tidy.1 h hprompt.tidy.2 hstyle
  | loop l => cases hstepped
  | track t => cases hstepped

theorem isSome_stepper?_after (x : Told) :
    x.after.stepper?.isSome = x.player.stepper?.isSome := Player.isSome_stepper?_respond _ _ _

/-- While a player goes on it queues step after step, from the one on that is to come. -/
theorem emit_of_goesOn {p : Player} (hstepped : p.stepper?.isSome = true)
    (hfirst : ∀ x ∈ rest.head?, x.player = p) (hlinked : rest.IsChain Links)
    (hprompt : ∀ x ∈ rest, x.Prompt) (hgoesOn : ∀ x ∈ rest, x.GoesOn) :
    ∃ es, Emit rest es ∧ es.IsChain (Emission.Follows p.plan) ∧ ∀ e ∈ es.head?, p.Next e := by
  induction rest generalizing p with
  | nil => exact ⟨[], .nil, .nil, by simp⟩
  | cons x xs ih =>
    obtain rfl : x.player = p := hfirst x rfl
    obtain ⟨es, hemit, hfollows, hnext⟩ := ih (p := x.after)
      (x.isSome_stepper?_after.trans hstepped) (fun y hy => hlinked.rel_head? hy)
      hlinked.tail (fun y hy => hprompt y (List.mem_cons_of_mem _ hy))
      fun y hy => hgoesOn y (List.mem_cons_of_mem _ hy)
    rw [show x.after.plan = x.player.plan from Player.plan_respond _ _ _] at hfollows
    rcases emits_or_rests hstepped (hprompt x List.mem_cons_self) (hgoesOn x List.mem_cons_self)
      with ⟨hcall, e, hemits, hplace, hafter⟩ | ⟨hcall, hqueue, hkept⟩
    · refine ⟨e :: es, .steps hcall hemits hemit, ?_, ?_⟩
      · exact hfollows.cons fun next hnext' => hafter next (hnext next hnext')
      · intro e' he'
        rw [← Option.mem_some.mp he']
        exact hplace
    · exact ⟨es, .rests hcall hqueue hemit, hfollows, fun e he => hkept e (hnext e he)⟩

/-- From a start on, as long as the player goes on. -/
theorem inSteps_of_goesOn (hstepped : first.player.stepper?.isSome = true)
    (hlinked : (first :: rest).IsChain Links) (hprompt : ∀ x ∈ first :: rest, x.Prompt)
    (hstarts : first.Starts) (hgoesOn : ∀ x ∈ rest, x.GoesOn) :
    ∃ es, InSteps first rest es := by
  obtain ⟨es, hemit, hfollows, hnext⟩ := emit_of_goesOn (p := first.after)
    (first.isSome_stepper?_after.trans hstepped) (fun y hy => hlinked.rel_head? hy) hlinked.tail
    (fun y hy => hprompt y (List.mem_cons_of_mem _ hy)) hgoesOn
  rw [show first.after.plan = first.player.plan from Player.plan_respond _ _ _] at hfollows
  have hopens := opens_of_starts hstepped (hprompt first List.mem_cons_self) hstarts
  by_cases hstrikes : first.player.strikes = true
  · rw [if_pos hstrikes] at hopens
    obtain ⟨e, hemits, hopen, hafter⟩ := hopens
    refine ⟨e :: es, ?_, ?_, hfollows.cons fun next hnext' => hafter next (hnext next hnext')⟩
    · rw [if_pos hstrikes]
      exact ⟨e, es, rfl, hemits, hemit⟩
    · intro e' he'
      rw [← Option.mem_some.mp he']
      exact hopen
  · rw [if_neg hstrikes] at hopens
    refine ⟨es, ?_, fun e he => hopens.2 e (hnext e he), hfollows⟩
    rw [if_neg hstrikes]
    exact ⟨hopens.1, hemit⟩

end Told

/-! ## Along a past -/

/-- Where the clock stops at every item, a callback comes no later than the step that it is for. -/
theorem Past.prompt {busy : Bool} {now : Nat} {p : Part} {played : List Played} {log : List Told}
    (h : Past .timed busy now p played log) : ∀ x ∈ log, x.Prompt := by
  induction h with
  | unborn | born => simp
  | hears h _ hs ih =>
    cases hs with
    | stays => simpa using ih
    | answers c hc =>
      obtain ⟨d, hlife⟩ := h.life_of_some
      refine List.forall_mem_append.mpr ⟨ih, List.forall_mem_singleton.mpr
        ⟨hlife.tidy, hlife.inTune _ rfl, ?_⟩⟩
      rintro rfl
      exact hc.elim
    | leaves =>
      obtain ⟨d, hlife⟩ := h.life_of_some
      exact List.forall_mem_append.mpr ⟨ih, List.forall_mem_singleton.mpr
        ⟨hlife.tidy, hlife.inTune _ rfl, nofun⟩⟩
  | plays _ _ ih => exact ih
  | wakes h _ ih =>
    obtain ⟨d, hlife⟩ := h.life_of_some
    refine List.forall_mem_append.mpr ⟨ih, List.forall_mem_singleton.mpr
      ⟨Player.Tidy.tail hlife.tidy, hlife.inTune _ rfl, fun _ q hq _ => ?_⟩⟩
    have hd : d.isStepped = true := by
      rw [← hlife.stepped _ rfl, show _ = some q from hq]
      rfl
    obtain ⟨q', hq', htimely, -⟩ := hlife.even hd ⟨none, none⟩
    obtain rfl : q' = q := Option.some.inj (hq'.symm.trans hq)
    exact Nat.le_trans (hlife.now_le id _ List.mem_cons_self)
      (htimely.ahead _ List.mem_cons_self rfl)
  | lost _ ih => exact ih
  | passes _ _ _ ih => exact ih
  | settles _ _ ih => exact ih

/-- A log ends with a start of a player and with what it has gone on for since. -/
def Told.Started (log : List Told) (p : Player) : Prop :=
  ∃ before first rest, log = before ++ first :: rest ∧ first.Starts ∧ (∀ x ∈ rest, x.GoesOn) ∧
    first.player.stepper?.isSome = p.stepper?.isSome

/-- One more entry starts the player, or it goes on with what has started before. -/
theorem Told.started_append {log : List Told} {x : Told} (hon : x.after.isPlaying = true)
    (hbefore : x.player.isPlaying = true → Told.Started log x.player) :
    Told.Started (log ++ [x]) x.after := by
  unfold Started
  rw [x.isSome_stepper?_after]
  by_cases hkept : x.player.isPlaying = true ∧ .cancel ∉ x.actions
  · obtain ⟨before, first, rest, rfl, hstarts, hrest, hstepper⟩ := hbefore hkept.1
    refine ⟨before, first, rest ++ [x], by simp, hstarts,
      List.forall_mem_append.mpr ⟨hrest, ?_⟩, hstepper⟩
    exact List.forall_mem_singleton.mpr ⟨hkept.1, hon, hkept.2⟩
  · refine ⟨log, x, [], rfl, ⟨hon, fun hplaying => ?_⟩, by simp, rfl⟩
    by_contra hdrops
    exact hkept ⟨hplaying, hdrops⟩

/-- A player that plays has been started, and has gone on since. -/
theorem Past.started {r : Conduct} {busy : Bool} {now : Nat} {p : Part} {played : List Played}
    {log : List Told} (h : Past r busy now p played log) :
    ∀ player, p.player = some player → player.isPlaying = true → Told.Started log player := by
  induction h with
  | unborn => nofun
  | born d config rate =>
    rintro _ ⟨⟩ hplaying
    cases d <;> cases hplaying
  | hears _ _ hs ih =>
    cases hs with
    | stays => simpa using ih
    | answers c =>
      rintro _ ⟨⟩ hplaying
      exact Told.started_append hplaying (ih _ rfl)
    | leaves => nofun
  | plays _ _ ih => exact ih
  | wakes _ _ ih =>
    rintro _ ⟨⟩ hplaying
    exact Told.started_append hplaying (ih _ rfl)
  | lost _ ih => exact ih
  | passes _ _ _ ih => exact ih
  | settles _ _ ih => exact ih

end MidiRig
