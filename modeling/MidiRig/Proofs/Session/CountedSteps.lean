import MidiRig.Proofs.Session.Score
import MidiRig.Proofs.Stage.Steps

/-!
# Sequences that play a number of times

A sequence that is called to play a number of times, and then only sees time pass, plays the steps
of the patterns that its order comes to, each at the end of the one before, and stops. The callback
that finds no step to come is due the lag before the end of the last step, and drops what is still
queued (`Session.counted_steps`): steps that near to the end are not played. Where the last step is
at least as long as the lag, all of them play.
-/

namespace MidiRig

namespace Sequence

variable {s : Sequence} {visited : List (Nat × Cursor)} {places : List Place} {loops : Float}
  {passes : Option Nat}

/-- No step comes later than the last one. -/
theorem exists_last_step {tick : Nat} {e : Emission} (he : e ∈ s.emissions tick places) :
    ∃ final ∈ (s.emissions tick places).getLast?,
      e.tick + final.length ≤ tick + ((s.emissions tick places).map Emission.length).sum := by
  induction places generalizing tick e with
  | nil => cases he
  | cons x rest ih =>
    obtain ⟨first, hfirst⟩ : ∃ first, first = s.emission tick x := ⟨_, rfl⟩
    have htick : first.tick = tick := by rw [hfirst]; rfl
    rw [emissions, ← hfirst] at he ⊢
    rw [List.map_cons, List.sum_cons]
    cases hrest : s.emissions (tick + first.length) rest with
    | nil =>
      rw [hrest] at he
      rw [List.mem_singleton.mp he]
      exact ⟨first, rfl, by simp [htick]⟩
    | cons second more =>
      have hlast : ∀ {y : Emission}, y ∈ second :: more → ∃ final ∈ (second :: more).getLast?,
          y.tick + final.length ≤
            tick + first.length + ((second :: more).map Emission.length).sum := by
        intro y hy
        rw [← hrest] at hy ⊢
        exact ih hy
      rw [hrest] at he
      rw [List.getLast?_cons_cons]
      rcases List.mem_cons.mp he with rfl | he
      · obtain ⟨final, hfinal, -⟩ := hlast List.mem_cons_self
        refine ⟨final, hfinal, ?_⟩
        have := List.le_sum_of_mem (List.mem_map_of_mem (f := Emission.length)
          (List.mem_of_getLast? hfinal))
        omega
      · obtain ⟨final, hfinal, hle⟩ := hlast he
        exact ⟨final, hfinal, by omega⟩

/-- From a call to play until the sequence has stopped. -/
theorem drains_play (hsound : s.Sound) (hcount : playCount? loops = some passes)
    (hvisits : Cursor.Visits s.order (Cursor.turnLimit s.order)
      (Cursor.start s.order.length passes) visited) {a : Agenda}
    (htidy : (Player.sequence s).Tidy a) (m : Moment) {steps : List Emission}
    (hsteps : steps = s.emissions (m.now + s.lag) (s.places visited)) {last limit : Nat}
    (hlast : last = m.now + (steps.map Emission.length).sum) (hlimit : last ≤ limit) :
    ∃ played k, k.playing = false ∧
      Solo.Drains limit ⟨m.now, some (.sequence (s.play loops m).1),
        a.perform m.now (s.play loops m).2⟩ played ⟨last, some (.sequence k), []⟩ ∧
      played.filter Played.queued = (Timed.upTo last (score steps)).map Timed.played := by
  have hplays := hsound.play loops m
  obtain ⟨⟨sounding, hplay⟩, hqueue⟩ := s.play_begins (m := m) hcount htidy
  rw [hqueue]
  generalize (s.play loops m).1 = begun at hplay hplays
  have hsame : begun.emissions = s.emissions := by
    refine emissions_congr ?_ ?_ ?_
    all_goals rw [hplay]
  have hplaces : begun.places visited = s.places visited := by rw [hplay]; rfl
  have hnext : begun.nextTick = m.now + s.lag ∧ begun.lag = s.lag := by
    rw [hplay]
    exact ⟨rfl, rfl⟩
  have hcomes := hplays.comes hvisits (by rw [hplay]) (by rw [hplay]) (by rw [hplay])
  rw [hplaces] at hcomes
  have hawaits : begun.Awaits m.now m.now [] :=
    ⟨by rw [hplay], by rw [hnext.1, hnext.2], Nat.le_refl _, .nil, nofun, nofun⟩
  obtain ⟨played, k, hsilent, hdrains, hplayed⟩ :=
    drains hcomes hawaits (by rw [hlast, hsteps, hsame, hnext.1]) hlimit
  refine ⟨played, k, hsilent, hdrains, ?_⟩
  rw [hplayed, hsame, hnext.1, hsteps]
  rfl

end Sequence

namespace Session

variable {s : Session} {m : Member} {q : Sequence} {loops : Float} {passes : Option Nat}
  {visited : List (Nat × Cursor)} {born : Nat → Option PlayerDef} {ledger : Ledger} {ops : List Op}
  {ticks : List Nat}

/-- What a sequence has played and come to, once no step is to come. -/
theorem played_steps (hs : s.stage.Lives .free born false ledger)
    (hm : m ∈ s.stage.directory.members) (hq : m.player = .sequence q)
    (hcount : playCount? loops = some passes)
    (hvisits : Cursor.Visits q.order (Cursor.turnLimit q.order)
      (Cursor.start q.order.length passes) visited)
    (hops : ∀ op ∈ ops, ∀ limit, op ≠ .deliver limit)
    (hscore : s.score m.id ops = .call (.play loops) :: ticks.map .advance)
    {steps : List Emission}
    (hsteps : steps = q.emissions (s.stage.engine.now + q.lag) (q.places visited)) {last : Nat}
    (hlast : last = s.stage.engine.now + (steps.map Emission.length).sum)
    (hticks : ∃ tick ∈ ticks, last ≤ tick) :
    ((s.ledger ops).of m.id).filter Played.queued =
        (Timed.upTo last (Sequence.score steps)).map Timed.played ∧
      ∃ k : Sequence, k.playing = false ∧
        (s.run ops).stage.part m.id = ⟨some (.sequence k), []⟩ := by
  obtain ⟨d, -, hlife⟩ := hs.of_mem hm
  have hsound : q.Sound := (hq ▸ hlife.sound _ rfl : Player.Sound (.sequence q))
  obtain ⟨limit, moment, told, t, hlimit, hnow, hdrains, hledger, hpart⟩ :=
    drains_of_score_call hs hm (hq ▸ rfl) hops hscore hticks
  rw [hq] at hdrains hledger
  rw [← hnow] at hsteps hlast
  obtain ⟨rest, k, hsilent, hplays, hrest⟩ := Sequence.drains_play hsound hcount hvisits
    (hq ▸ hlife.tidy : (Player.sequence q).Tidy _) moment hsteps hlast hlimit
  rw [hnow] at hplays
  obtain ⟨rfl, rfl⟩ := hdrains.unique hplays (Part.byClock_some rfl _)
  refine ⟨?_, k, hsilent, hpart⟩
  rw [hledger, List.filter_append, queued_atOnce, hrest]
  rfl

/-- Of the events and note-offs of all steps those play, at their ticks and in order, that are due
by the callback that finds no step to come. These are all events of all steps, if the last step is
at least as long as the lag. The sequence has stopped then, with nothing queued. -/
theorem counted_steps (rate : Float) (config : Config) (before : List Op) :
    let s := (start rate config).run before
    ∀ m ∈ s.stage.directory.members, ∀ q, m.player = .sequence q →
      ∀ loops passes, playCount? loops = some (some passes) →
      ∃ visited,
        Cursor.Visits q.order (Cursor.turnLimit q.order)
          (Cursor.start q.order.length (some passes)) visited ∧
        (∀ other, Cursor.Visits q.order (Cursor.turnLimit q.order)
          (Cursor.start q.order.length (some passes)) other → other = visited) ∧
        ∀ (ops : List Op) (ticks : List Nat), (∀ op ∈ ops, ∀ limit, op ≠ .deliver limit) →
        s.score m.id ops = .call (.play loops) :: ticks.map .advance →
        let now := s.stage.engine.now
        let steps := q.emissions (now + q.lag) (q.places visited)
        let last := now + (steps.map Emission.length).sum
        (∃ tick ∈ ticks, last ≤ tick) →
        let played := ((s.ledger ops).of m.id).filter Played.queued
        played = (Timed.upTo last (steps.flatMap fun e => e.onsets ++ e.ends)).map Timed.played ∧
          ((∀ e ∈ steps.getLast?, q.lag ≤ e.length) →
            played = (steps.flatMap fun e => e.onsets ++ Timed.upTo last e.ends).map Timed.played) ∧
          ∃ k : Sequence, k.playing = false ∧
            (s.run ops).stage.part m.id = ⟨some (.sequence k), []⟩ := by
  intro s m hm q hq loops passes hloops
  obtain ⟨born, hlives⟩ := lives_start .free rate config fun op (_ : op ∈ before) => op.fits_free
  obtain ⟨d, -, hlife⟩ := hlives.of_mem hm
  have hsound : q.Sound := (hq ▸ hlife.sound _ rfl : Player.Sound (.sequence q))
  obtain ⟨visited, hvisits⟩ := Cursor.exists_visits hsound.plays (Cursor.turnLimit q.order)
    (Cursor.start q.order.length (some passes)) List.length_replicate rfl
  refine ⟨visited, hvisits, fun other hother =>
    hother.unique hvisits hsound.order_ne_nil hsound.entries, ?_⟩
  intro ops ticks hops hscore now steps last hticks played
  obtain ⟨hplayed, hstopped⟩ := played_steps hlives hm hq hloops hvisits hops hscore
    (show steps = _ from rfl) (show last = _ from rfl) hticks
  refine ⟨hplayed, fun hroom => ?_, hstopped⟩
  have hall : ∀ e ∈ steps, Timed.upTo last e.onsets = e.onsets := by
    intro e he
    obtain ⟨final, hfinal, hle⟩ := Sequence.exists_last_step he
    have hlag := hroom final hfinal
    refine Timed.upTo_eq_self fun y hy => ?_
    rw [Emission.tick_of_mem_onsets hy]
    change e.tick + final.length ≤ now + q.lag + (steps.map Emission.length).sum at hle
    show e.tick ≤ now + (steps.map Emission.length).sum
    omega
  show List.filter Played.queued _ = _
  rw [hplayed, Sequence.score, Timed.upTo, List.filter_flatMap]
  refine congrArg _ (List.flatMap_congr fun e he => ?_)
  show Timed.upTo last (e.onsets ++ e.ends) = _
  rw [Timed.upTo_append, hall e he]

/-! ### A long step and a short one -/

/-- A sequence of one pattern of one step, played in some order. -/
def oneStep (order : List Int) (division : Nat) : SequenceDef :=
  { SequenceDef.default with patterns := [[[.event (.note 1 60 100.0)]]], order, division }

def addsStep (order : List Int) (division : Nat) : List Op :=
  [.addPlayer "song" (.sequence (oneStep order division))]

theorem score_addsStep (order : List Int) (division : Nat) {m : Member}
    (hm : m ∈ ((start 1000.0 .default).run (addsStep order division)).stage.directory.members)
    (hname : m.name = "song") :
    ((start 1000.0 .default).run (addsStep order division)).score m.id
      [.call "song" (.play 1.0), .advance 5000] = [.call (.play 1.0), .advance 5000] := by
  obtain ⟨born, hlives⟩ := lives_start .free 1000.0 .default
    fun op (_ : op ∈ addsStep order division) => op.fits_free
  exact hname ▸ score_call_advances hlives.sound hm (.play 1.0) [5000]

/-- The order goes back over the pattern once. Both steps play, and the note-off of the first. -/
theorem counted_steps_twice :
    let s := (start 1000.0 .default).run (addsStep [1, -1] 8)
    let ops : List Op := [.call "song" (.play 1.0), .advance 5000]
    ∃ m ∈ s.stage.directory.members, ∃ q, m.player = .sequence q ∧
      playCount? 1.0 = some (some 1) ∧ (∀ op ∈ ops, ∀ limit, op ≠ .deliver limit) ∧
      s.score m.id ops = [.call (.play 1.0), .advance 5000] ∧
      (((s.ledger ops).of m.id).filter Played.queued).map Played.tick = [10, 260, 260] ∧
      ∃ k : Sequence, k.playing = false ∧
        (s.run ops).stage.part m.id = ⟨some (.sequence k), []⟩ := by
  intro s ops
  have hcount : playCount? 1.0 = some (some 1) := by decide +kernel
  have hops : ∀ op ∈ ops, ∀ limit, op ≠ .deliver limit := by simp [ops]
  obtain ⟨m, hm, hname, hq⟩ : ∃ m ∈ s.stage.directory.members, m.name = "song" ∧
      m.player = .sequence (.make (oneStep [1, -1] 8) .default 1000.0) :=
    ⟨_, List.mem_cons_self, rfl, rfl⟩
  have hscore := score_addsStep [1, -1] 8 hm hname
  obtain ⟨visited, -, hunique, hplays⟩ :=
    counted_steps 1000.0 .default (addsStep [1, -1] 8) m hm _ hq 1.0 1 hcount
  have hvisits : Cursor.Visits [1, -1] 6 (Cursor.start 2 (some 1))
      [(0, ⟨0, [false, false], some 1⟩), (0, ⟨0, [false, true], some 1⟩)] := by
    have hfirst : Cursor.Reads [1, -1] 1 ⟨0, [false, false], some 1⟩
        (some (0, ⟨0, [false, false], some 1⟩)) := .plays (show _ = some 1 from rfl) (by decide)
    have hagain : Cursor.Reads [1, -1] 2 ⟨1, [false, false], some 1⟩
        (some (0, ⟨0, [false, true], some 1⟩)) :=
      .back rfl (by decide) rfl (.plays (show _ = some 1 from rfl) (by decide))
    have hend : Cursor.Reads [1, -1] 2 ⟨1, [false, true], some 1⟩ none :=
      .skips rfl (by decide) rfl (.ends (by decide) rfl (by decide))
    exact .plays hfirst (by decide) (.plays hagain (by decide) (.ends hend))
  obtain rfl := hunique _ hvisits
  obtain ⟨hplayed, -, hstopped⟩ := hplays ops [5000] hops hscore
    ⟨5000, List.mem_cons_self, by decide +kernel⟩
  refine ⟨m, hm, _, hq, hcount, hops, hscore, ?_, hstopped⟩
  show List.map _ (((s.ledger ops).of m.id).filter Played.queued) = _
  rw [hplayed]
  decide +kernel

/-- A step of five ticks, which is within the lag of ten, is the only one and does not play. -/
theorem last_step_is_cut :
    let s := (start 1000.0 .default).run (addsStep [] 400)
    let ops : List Op := [.call "song" (.play 1.0), .advance 5000]
    (oneStep [] 400).problem? = none ∧
      ∃ m ∈ s.stage.directory.members, ∃ q, m.player = .sequence q ∧
        playCount? 1.0 = some (some 1) ∧
        s.score m.id ops = [.call (.play 1.0), .advance 5000] ∧
        Cursor.Visits q.order (Cursor.turnLimit q.order) (Cursor.start q.order.length (some 1))
          [(0, ⟨0, [false], some 1⟩)] ∧
        q.stepEvents.length = 1 ∧ ((s.ledger ops).of m.id).filter Played.queued = [] := by
  intro s ops
  have hcount : playCount? 1.0 = some (some 1) := by decide +kernel
  have hops : ∀ op ∈ ops, ∀ limit, op ≠ .deliver limit := by simp [ops]
  obtain ⟨m, hm, hname, hq⟩ : ∃ m ∈ s.stage.directory.members, m.name = "song" ∧
      m.player = .sequence (.make (oneStep [] 400) .default 1000.0) :=
    ⟨_, List.mem_cons_self, rfl, rfl⟩
  have hscore := score_addsStep [] 400 hm hname
  have hvisits : Cursor.Visits [1] 4 (Cursor.start 1 (some 1)) [(0, ⟨0, [false], some 1⟩)] := by
    have hfirst : Cursor.Reads [1] 1 ⟨0, [false], some 1⟩ (some (0, ⟨0, [false], some 1⟩)) :=
      .plays (show _ = some 1 from rfl) (by decide)
    have hend : Cursor.Reads [1] 1 ⟨1, [false], some 1⟩ none := .ends (by decide) rfl (by decide)
    exact .plays hfirst (by decide) (.ends hend)
  obtain ⟨born, hlives⟩ := lives_start .free 1000.0 .default
    fun op (_ : op ∈ addsStep [] 400) => op.fits_free
  obtain ⟨hplayed, -⟩ := played_steps hlives hm hq hcount hvisits hops
    (show s.score m.id ops = .call (.play 1.0) :: [5000].map .advance from hscore) rfl rfl
    ⟨5000, List.mem_cons_self, by decide +kernel⟩
  refine ⟨by decide +kernel, m, hm, _, hq, hcount, hscore, hvisits, rfl, ?_⟩
  rw [hplayed]
  exact congrArg (List.map Timed.played) (Timed.upTo_eq_nil (by decide +kernel))

end Session

end MidiRig
