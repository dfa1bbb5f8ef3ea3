import MidiRig.Proofs.Player.Countdown
import MidiRig.Proofs.Session.Log

/-!
# Counted sequences end

A sequence that has been called to play a number of times stops by itself, whatever else it is told
in between, a call to play apart: it takes no more callbacks than `Sequence.callbackLimit` counts
for its order and its patterns, and as time passes they do come (`Session.counted_play_ends`). The
first is a countdown along the log of the player. For the second the player is watched by itself,
with what is queued for it: while it plays there is a callback in its agenda, and each one that is
delivered leaves fewer to come.
-/

namespace MidiRig

/-! ## A sequence that plays has a callback queued -/

namespace Stepper

variable {now : Nat} {p q : Stepper} {xs : List Action} {a : Agenda}

theorem Does.called (h : Does now p xs q) (hp : p.playing = true → 0 < a.callbacks)
    (hq : q.playing = true) : 0 < (a.perform now xs).callbacks := by
  induction h generalizing a with
  | rests => exact hp hq
  | stops => cases hq
  | starts =>
    rw [Agenda.perform_cons, Agenda.perform_nil, Agenda.callbacks_act_callback]
    exact Nat.succ_pos _
  | strikes =>
    rw [perform_stepActions]
    exact Nat.succ_pos _
  | seq _ _ ihxs ihys =>
    rw [Agenda.perform_append]
    exact ihys (fun hmiddle => ihxs hp hmiddle) hq

/-- Also where it is woken out of turn. -/
theorem Wakes.called (h : Wakes now p xs q) (a : Agenda) (hq : q.playing = true) :
    0 < (a.perform now xs).callbacks := by
  cases h with
  | sleeps hsilent =>
    rw [hsilent] at hq
    cases hq
  | steps =>
    rw [perform_stepActions]
    exact Nat.succ_pos _
  | ends => cases hq

end Stepper

/-- For a sequence, that a callback is queued while it plays. -/
def Player.Called (a : Agenda) : Player → Prop
  | sequence s => s.playing = true → 0 < a.callbacks
  | _ => True

theorem Player.Called.respond {p : Player} {a : Agenda} (h : p.Called a) (m : Moment) (c : Call) :
    (p.respond m c).1.Called (a.perform m.now (p.respond m c).2) := by
  cases p with
  | sequence s =>
    by_cases hc : c = .wake
    · subst hc
      exact (s.wakes_wake m).called a
    · exact (s.does_respond m hc).called h
  | _ => trivial

theorem Player.Called.wake {p : Player} (a : Agenda) (m : Moment) :
    (p.respond m .wake).1.Called (a.perform m.now (p.respond m .wake).2) := by
  cases p with
  | sequence s => exact (s.wakes_wake m).called a
  | _ => trivial

/-- Whatever happens to a player. -/
theorem Life.called {r : Conduct} {d : PlayerDef} {busy : Bool} {now : Nat} {p : Part}
    {played : List Played} (h : Life r d busy now p played) :
    ∀ player, p.player = some player → player.Called p.agenda := by
  induction h with
  | born busy now config rate hvalid =>
    rintro _ ⟨⟩
    cases d with
    | sequence d => exact nofun
    | _ => trivial
  | steps _ _ hs ih =>
    cases hs with
    | stays => exact ih
    | answers c =>
      rintro _ ⟨⟩
      exact (ih _ rfl).respond _ c
    | leaves => nofun
  | turns _ ht ih =>
    cases ht with
    | plays e =>
      rintro player ⟨⟩
      have hcalled := ih player rfl
      cases player with
      | sequence s => exact fun hplaying => by simpa using hcalled hplaying
      | _ => trivial
    | wakes =>
      rintro _ ⟨⟩
      exact .wake _ _
    | lost => nofun
  | passes _ _ _ ih => exact ih
  | settles _ _ ih => exact ih

/-! ## Time ends what is counted -/

/-- Nothing plays, and nothing is queued. -/
def Part.Rests (p : Part) : Prop :=
  (∀ player, p.player = some player → player.isPlaying = false) ∧ p.agenda = []

theorem Part.Tidy.rests {p : Part} (h : p.Tidy)
    (hsilent : ∀ player, p.player = some player → player.isPlaying = false) : p.Rests := by
  obtain ⟨player, a⟩ := p
  cases player with
  | none => exact ⟨hsilent, h⟩
  | some player => exact ⟨hsilent, Player.Tidy.nil_of_silent h (hsilent _ rfl)⟩

theorem Part.Rests.drains {p : Part} (h : p.Rests) {now later : Nat} {played : List Played}
    {t : Solo} (hdrains : Solo.Drains later ⟨now, p⟩ played t) : t.part.Rests := by
  cases hdrains with
  | rest => exact h
  | turn hfirst =>
    rw [show p.agenda = [] from h.2] at hfirst
    cases hfirst

/-- A sequence that does not play or plays a number of passes, with what is queued for it. -/
structure Sequence.Counts (s : Sequence) (a : Agenda) : Prop where
  sound : s.Sound
  counted : s.playing = true → s.cursor.passes.isSome = true
  called : s.playing = true → 0 < a.callbacks
  rest : s.playing = false → a = []

namespace Solo

variable {now tick later : Nat} {a : Agenda} {played : List Played} {t : Solo}

/-- An event that is due first is played first. -/
theorem Drains.after_event {p : Option Player} {e : Event}
    (h : Drains later ⟨now, p, ⟨tick, some e⟩ :: a⟩ played t) (hdue : tick ≤ later) :
    ∃ more, Drains later ⟨max now tick, p, a⟩ more t := by
  cases h with
  | rest hlate => exact absurd (hlate _ List.mem_cons_self) (Nat.not_lt.mpr hdue)
  | turn hfirst _ hnow hturn hrest =>
    obtain rfl := Option.some.inj hfirst
    cases hturn with
    | plays =>
      rw [hnow] at hrest
      exact ⟨_, hrest⟩

/-- A callback that is due first wakes the player first. -/
theorem Drains.after_callback {p : Player} (hp : p.byClock)
    (h : Drains later ⟨now, some p, ⟨tick, none⟩ :: a⟩ played t) (hdue : tick ≤ later) :
    ∃ more, Drains later ⟨max now tick, some (p.respond ⟨max now tick, 0⟩ .wake).1,
      a.perform (max now tick) (p.respond ⟨max now tick, 0⟩ .wake).2⟩ more t := by
  cases h with
  | rest hlate => exact absurd (hlate _ List.mem_cons_self) (Nat.not_lt.mpr hdue)
  | turn hfirst _ hnow hturn hrest =>
    obtain rfl := Option.some.inj hfirst
    cases hturn with
    | wakes =>
      rw [Player.respond_of_now hp (n := ⟨max now tick, 0⟩) hnow, hnow] at hrest
      exact ⟨_, hrest⟩

end Solo

namespace Sequence

variable {s : Sequence} {a : Agenda} {m : Moment}

theorem Counts.rests (h : s.Counts a) (hsilent : s.playing = false) :
    Part.Rests ⟨some (.sequence s), a⟩ :=
  ⟨fun _ hplayer => Option.some.inj hplayer ▸ hsilent, h.rest hsilent⟩

theorem Counts.tail {tick : Nat} {e : Event} (h : s.Counts (⟨tick, some e⟩ :: a)) : s.Counts a where
  sound := h.sound
  counted := h.counted
  called hplaying := by simpa using h.called hplaying
  rest hsilent := nomatch h.rest hsilent

/-- A callback leaves a sequence that counts on, with fewer callbacks to come. -/
theorem Counts.wake {tick : Nat} (h : s.Counts (⟨tick, none⟩ :: a)) (m : Moment) :
    (s.wake m).1.Counts (a.perform m.now (s.wake m).2) ∧
      ((s.wake m).1.playing = true → (s.wake m).1.callbacksLeft < s.callbacksLeft) := by
  have hplaying : s.playing = true := by
    by_contra hsilent
    cases h.rest (Bool.eq_false_iff.mpr hsilent)
  have hleft := fun hon => h.sound.callbacksLeft_wake (h.counted hplaying) (m := m) hon
  refine ⟨⟨h.sound.wake m, fun hon => (hleft hon).1, (s.wakes_wake m).called a, ?_⟩,
    fun hon => (hleft hon).2⟩
  exact Stepper.rest_wakes (s.wakes_wake m) fun hsilent => nomatch h.rest hsilent

/-- As time passes far enough the sequence stops. -/
theorem Counts.ends {s : Sequence} {a : Agenda} (h : s.Counts a) (now : Nat) :
    ∃ tick, ∀ later, tick ≤ later → ∀ played t,
      Solo.Drains later ⟨now, some (.sequence s), a⟩ played t → t.part.Rests := by
  by_cases hplaying : s.playing = true
  · match a, h with
    | [], h => exact absurd (h.called hplaying) (Nat.lt_irrefl 0)
    | ⟨tick, some e⟩ :: a, h =>
      obtain ⟨last, hlast⟩ := h.tail.ends (max now tick)
      refine ⟨max last tick, fun later hlater played t hdrains => ?_⟩
      obtain ⟨more, hrest⟩ := hdrains.after_event (by omega)
      exact hlast later (by omega) more t hrest
    | ⟨tick, none⟩ :: a, h =>
      obtain ⟨hwoken, hless⟩ := h.wake ⟨max now tick, 0⟩
      by_cases hon : (s.wake ⟨max now tick, 0⟩).1.playing = true
      · have hfewer := hless hon
        obtain ⟨last, hlast⟩ := hwoken.ends (max now tick)
        refine ⟨max last tick, fun later hlater played t hdrains => ?_⟩
        obtain ⟨more, hrest⟩ := hdrains.after_callback rfl (by omega)
        exact hlast later (by omega) more t hrest
      · refine ⟨tick, fun later hlater played t hdrains => ?_⟩
        obtain ⟨more, hrest⟩ := hdrains.after_callback rfl hlater
        exact (hwoken.rests (Bool.eq_false_iff.mpr hon)).drains hrest
  · exact ⟨0, fun later _ played t hdrains =>
      (h.rests (Bool.eq_false_iff.mpr hplaying)).drains hdrains⟩
termination_by (s.callbacksLeft, a.length)

end Sequence

/-- Whatever has happened to a sequence. -/
theorem Life.counts {r : Conduct} {d : PlayerDef} {busy : Bool} {now : Nat} {s : Sequence}
    {a : Agenda} {played : List Played} (h : Life r d busy now ⟨some (.sequence s), a⟩ played)
    (hcounted : s.playing = true → s.cursor.passes.isSome = true) : s.Counts a where
  sound := h.sound _ rfl
  counted := hcounted
  called := h.called _ rfl
  rest hsilent := (h.tidy.rests fun _ hplayer => Option.some.inj hplayer ▸ hsilent).2

/-! ## The countdown along a log -/

/-- A sequence that has so many callbacks to come, if it plays, that with those that have come there
are no more than the limit. -/
def Player.CountsDown (limit woken : Nat) : Player → Prop
  | sequence s => s.playing = true →
    s.cursor.passes.isSome = true ∧ s.callbacksLeft + woken ≤ limit
  | _ => False

/-- All that a player is told finds it sound. -/
theorem Past.sound {r : Conduct} {busy : Bool} {now : Nat} {p : Part} {played : List Played}
    {log : List Told} (h : Past r busy now p played log) : ∀ x ∈ log, x.player.Sound :=
  h.forall_player fun hlife => hlife.sound

namespace Told

variable {x first : Told} {rest : List Told} {limit woken : Nat}

/-- Whether a callback has come. -/
def isWake (x : Told) : Bool :=
  match x.call with
  | .wake => true
  | _ => false

def isPlay (x : Told) : Bool :=
  match x.call with
  | .play _ => true
  | _ => false

/-- Callbacks count down, and nothing else but a call to play changes the count. -/
theorem countsDown_after (h : x.player.CountsDown limit woken) (hsound : x.player.Sound)
    (hplay : x.isPlay = false) :
    x.after.CountsDown limit (woken + if x.isWake then 1 else 0) := by
  obtain ⟨m, p, a, c⟩ := x
  cases p with
  | sequence s =>
    change s.Sound at hsound
    cases c with
    | wake =>
      intro hon
      obtain ⟨hcounted, hleft⟩ := h (Sequence.playing_of_wake hon)
      obtain ⟨hcounted', hless⟩ := hsound.callbacksLeft_wake (m := m) hcounted hon
      refine ⟨hcounted', ?_⟩
      show (s.wake m).1.callbacksLeft + (woken + 1) ≤ limit
      omega
    | play => cases hplay
    | dismiss =>
      show (s.stopIfPlaying m).1.playing = true → _
      rw [(s.stops_or_rests m).2]
      exact nofun
    | _ => exact h
  | _ => exact h.elim

/-- From one told thing to the last. -/
theorem countsDown_last (hlinked : (first :: rest).IsChain Links)
    (h : first.after.CountsDown limit woken) (hsound : ∀ x ∈ rest, x.player.Sound)
    (hrest : ∀ x ∈ rest, x.isPlay = false) :
    ∀ x ∈ (first :: rest).getLast?, x.after.CountsDown limit (woken + rest.countP isWake) := by
  induction rest generalizing first woken with
  | nil =>
    rintro x ⟨⟩
    exact h
  | cons next rest ih =>
    obtain ⟨hlink, hlinked⟩ := List.isChain_cons_cons.mp hlinked
    have hnext := countsDown_after (hlink ▸ h : next.player.CountsDown limit woken)
      (hsound next List.mem_cons_self) (hrest next List.mem_cons_self)
    rw [List.getLast?_cons_cons, List.countP_cons, Nat.add_comm (rest.countP _), ← Nat.add_assoc]
    exact ih hlinked hnext (fun x hx => hsound x (List.mem_cons_of_mem _ hx))
      fun x hx => hrest x (List.mem_cons_of_mem _ hx)

end Told

/-- What has come since a call leaves the count of the player where the log has brought it. -/
theorem Past.countsDown {r : Conduct} {busy : Bool} {now : Nat} {p : Part} {played : List Played}
    {before rest : List Told} {first : Told} {limit : Nat}
    (h : Past r busy now p played (before ++ first :: rest))
    (hfirst : first.after.CountsDown limit 0) (hrest : ∀ x ∈ rest, x.isPlay = false) :
    ∀ player, p.player = some player → player.CountsDown limit (rest.countP Told.isWake) := by
  obtain ⟨hlinked, hlast⟩ := h.linked
  have hcounts := Told.countsDown_last hlinked.right_of_append hfirst
    (fun x hx => h.sound x (List.mem_append_right _ (List.mem_cons_of_mem _ hx))) hrest
  obtain ⟨x, hx⟩ : ∃ x, (first :: rest).getLast? = some x :=
    ⟨_, List.getLast?_eq_getLast_of_ne_nil (List.cons_ne_nil _ _)⟩
  intro player hplayer
  have hend : player = x.after := hlast player hplayer x (by rw [List.getLast?_append, hx]; rfl)
  have hdown := hcounts x hx
  rwa [Nat.zero_add, ← hend] at hdown

namespace Session

/-- The part of a player after time has passed is what it drains to by itself. -/
theorem rests_advance {s : Session} (hs : s.stage.directory.Sound) {id later : Nat}
    (h : ∀ played t, Solo.Drains later (s.stage.solo id) played t → t.part.Rests) :
    ((s.advance later).stage.part id).Rests := by
  have htakes := @Stage.takes_advance s.stage .default 0.0 hs id later
  generalize s.stage.solo id = before at htakes h
  generalize hafter : (s.stage.advance later).2.solo id = after at htakes
  cases htakes with
  | advance hdrains =>
    have hrests := h _ _ hdrains
    rw [show (s.advance later).stage.part id = _ from congrArg Solo.part hafter]
    exact hrests

/-- After a call to play a number of passes, a sequence that is told anything but to play rests, or
fewer callbacks have come than its order and its patterns allow for; and if then only time passes,
it comes to rest. -/
theorem counted_play_ends (rate : Float) (config : Config) (ops : List Op) (id : Nat) :
    let s := (start rate config).run ops
    ∀ before first rest, (start rate config).log id ops = before ++ first :: rest →
      ∀ q loops passes, first.player = .sequence q → first.call = .play loops →
        playCount? loops = some (some passes) → (∀ x ∈ rest, x.isPlay = false) →
        ((s.stage.part id).Rests ∨ rest.countP Told.isWake <
          passes * (q.order.countP (· < 0) + 1) * q.order.length * q.longest + 1) ∧
        ∃ tick, ∀ later, tick ≤ later → ((s.advance later).stage.part id).Rests := by
  intro s before first rest hlog q loops passes hplayer hcall hcount hrest
  have hops : ∀ op ∈ ops, op.Fits .free := fun op _ => op.fits_free
  obtain ⟨born, hlives⟩ := lives_start .free rate config hops
  have hpast := past_run .free rate config hops id
  rw [hlog] at hpast
  have hfirst : first.after.CountsDown (q.callbackLimit passes) 0 := by
    obtain ⟨m, p, a, c⟩ := first
    obtain rfl : p = .sequence q := hplayer
    obtain rfl : c = .play loops := hcall
    obtain ⟨hcounted, hleft⟩ := q.callbacksLeft_play hcount m
    exact fun _ => ⟨hcounted, hleft.le⟩
  have hdown := hpast.countsDown hfirst hrest
  obtain ⟨d, hlife⟩ := hpast.life.resolve_left fun hnone => by simpa using hnone.2.2
  have hadvance (later : Nat) (h : ∀ played t, Solo.Drains later
      ⟨s.stage.engine.now, s.stage.part id⟩ played t → t.part.Rests) :
      ((s.advance later).stage.part id).Rests := rests_advance hlives.sound h
  change Life .free d false _ (s.stage.part id) _ at hlife
  change ∀ player, (s.stage.part id).player = some player → _ at hdown
  generalize s.stage.part id = part at hlife hdown hadvance ⊢
  obtain ⟨player, a⟩ := part
  cases player with
  | none =>
    have hrests : Part.Rests ⟨none, a⟩ := hlife.tidy.rests nofun
    exact ⟨.inl hrests, 0, fun later _ => hadvance later fun _ _ => hrests.drains⟩
  | some player =>
    cases player with
    | sequence k =>
      have hcounts := hlife.counts fun hon => (hdown _ rfl hon).1
      obtain ⟨tick, hends⟩ := hcounts.ends s.stage.engine.now
      refine ⟨?_, tick, fun later hlater => hadvance later (hends later hlater)⟩
      by_cases hon : k.playing = true
      · have hleft := (hdown _ rfl hon).2
        have hpos := k.callbacksLeft_pos
        change _ ≤ passes * (q.order.countP (· < 0) + 1) * q.order.length * q.longest + 1 at hleft
        exact .inr (by omega)
      · exact .inl (hcounts.rests (Bool.eq_false_iff.mpr hon))
    | _ => exact (hdown _ rfl).elim

/-- Two passes through an order that goes back once, with another tempo and another swing between
the callbacks: there are thirteen of them at most. -/
theorem counted_play_ends_repeated :
    let key (n : ℤ) : Cell := .event (.note 1 n 100.0)
    let ops : List Op := [
      .addPlayer "song" (.sequence { SequenceDef.default with
        patterns := [[[key 60]], [[key 62]]], order := [1, 2, -2] }),
      .call "song" (.play 2.0), .deliver 1000, .call "song" (.tempo 90.0), .deliver 1000,
      .call "song" (.swing 0.6), .deliver 1000]
    let s := (start 1000.0 .default).run ops
    ∃ first rest q, (start 1000.0 .default).log 1 ops = first :: rest ∧
      first.player = .sequence q ∧ first.call = .play 2.0 ∧
      playCount? 2.0 = some (some 2) ∧ (∀ x ∈ rest, x.isPlay = false) ∧
      (q.order = [1, 2, -2] ∧ q.longest = 1 ∧ rest.countP Told.isWake = 2) ∧
      ((s.stage.part 1).Rests ∨ 2 < 2 * (1 + 1) * 3 * 1 + 1) ∧
      ∃ tick, ∀ later, tick ≤ later → ((s.advance later).stage.part 1).Rests := by
  intro key ops s
  obtain ⟨first, rest, q, hlog, hplayer, hcall, hrest, horder, hlongest, hwoken⟩ :
      ∃ first rest q, (start 1000.0 .default).log 1 ops = first :: rest ∧
        first.player = .sequence q ∧ first.call = .play 2.0 ∧ (∀ x ∈ rest, x.isPlay = false) ∧
        q.order = [1, 2, -2] ∧ q.longest = 1 ∧ rest.countP Told.isWake = 2 :=
    ⟨_, _, _, rfl, rfl, rfl, by decide +kernel, rfl, rfl, by decide +kernel⟩
  have hcount : playCount? 2.0 = some (some 2) := by decide +kernel
  obtain ⟨hbound, hends⟩ := counted_play_ends 1000.0 .default ops 1 [] first rest hlog q 2.0 2
    hplayer hcall hcount hrest
  rw [horder, hlongest, hwoken] at hbound
  exact ⟨first, rest, q, hlog, hplayer, hcall, hcount, hrest, ⟨horder, hlongest, hwoken⟩, hbound,
    hends⟩

end Session

end MidiRig
