import MidiRig.Proofs.Session.Score
import MidiRig.Proofs.Stage.Passes

/-!
# Loops that play a number of times

A loop that is called to play a number of times, and then only sees time pass, plays its timeline
so many times over and stops. The callback for the end of the last pass comes ahead of that end, by
the lag, and drops what is still queued: entries that near to the end are not played in the last
pass (`Session.counted_play`). Where no entry lies that near, all of them play in every pass.
-/

namespace MidiRig

open Binary64

namespace Loop

variable {l : Loop} {beats loops : Float} {length passes : ℕ}

/-- From a call to play until the loop has stopped. -/
theorem playsOut_play (h : l.Ordered) (hbeats : l.beats = some beats) (hfits : l.Fits beats)
    (hlength : l.passTicks? = some length) (hloops : playCount? loops = some (some passes))
    (m : Moment) (a : Agenda) {limit : ℕ} (hlimit : m.now + (passes * length - l.lag) ≤ limit) :
    PlaysOut (fun t => ∃ k : Loop, k.playing = false ∧
        t = ⟨m.now + (passes * length - l.lag), some (.loop k), []⟩)
      limit (m.now + (passes * length - l.lag)) m.now
      ⟨some (.loop (l.play loops m).1), Agenda.perform m.now a (l.play loops m).2⟩
      (l.passEntries length m.now passes) := by
  obtain ⟨before, rfl⟩ : ∃ before, passes = before + 1 :=
    Nat.exists_eq_add_one.mpr (playCount?_pos hloops)
  have hfirst : l.Awaits length m.now 0 m.now [] :=
    ⟨List.Pairwise.nil, nofun, nofun, l.le_due length m.now 0⟩
  have hplays := playsOut_counted h hbeats hfits hlength before (by omega) hlimit hfirst
  rw [play_eq hlength hloops, passEntries_succ]
  show PlaysOut _ _ _ _ ⟨_, Agenda.put ⟨max _ _, none⟩ []⟩ _
  rw [Nat.max_comm (l.due length m.now 0 - l.lag)]
  exact hplays

/-- Entries that are due by the end of their pass less the lag are due by the last callback. -/
theorem upTo_passEntries (hroom : ∀ x ∈ l.timeline, l.tempo.roundTicks x.1 + l.lag ≤ length)
    (start : ℕ) : Timed.upTo (start + (passes * length - l.lag)) (l.passEntries length start passes) =
      l.passEntries length start passes := by
  refine Timed.upTo_eq_self fun y hy => ?_
  obtain ⟨k, hk, hy⟩ := List.mem_flatMap.mp hy
  obtain ⟨x, hx, rfl⟩ := List.mem_map.mp hy
  have hlast : (k + 1) * length ≤ passes * length :=
    Nat.mul_le_mul_right _ (List.mem_range.mp hk)
  have hroom := hroom x hx
  rw [Nat.succ_mul] at hlast
  show start + k * length + l.tempo.roundTicks x.1 ≤ _
  omega

end Loop

namespace Session

variable {s : Session} {m : Member}

variable {born : ℕ → Option PlayerDef} {ledger : Ledger} {l : Loop} {beats loops : Float}
  {length passes : ℕ} {ops : List Op} {ticks : List ℕ}

/-- What a loop has played and come to, once the callback for the end of its last pass is due. -/
theorem played_counted (hs : s.stage.Lives .free born false ledger)
    (hm : m ∈ s.stage.directory.members) (hl : m.player = .loop l)
    (hbeats : l.beats = some beats) (hfits : l.Fits beats) (hlength : l.passTicks? = some length)
    (hloops : playCount? loops = some (some passes))
    (hops : ∀ op ∈ ops, ∀ limit, op ≠ .deliver limit)
    (hscore : s.score m.id ops = .call (.play loops) :: ticks.map .advance)
    (hticks : ∃ tick ∈ ticks, s.stage.engine.now + (passes * length - l.lag) ≤ tick) :
    (s.ledger ops).of m.id =
        (Timed.upTo (s.stage.engine.now + (passes * length - l.lag))
          (l.passEntries length s.stage.engine.now passes)).map Timed.played ∧
      ∃ k : Loop, k.playing = false ∧ (s.run ops).stage.part m.id = ⟨some (.loop k), []⟩ := by
  obtain ⟨d, -, hlife⟩ := hs.of_mem hm
  have hordered : l.Ordered := (hl ▸ hlife.ordered _ rfl : Player.Ordered (.loop l))
  obtain ⟨limit, moment, played, t, hlimit, hnow, hdrains, hledger, hpart⟩ :=
    drains_of_score_call hs hm (hl ▸ rfl) hops hscore hticks
  rw [hl, ← hnow] at hdrains
  rw [hl, ← hnow] at hledger
  rw [← hnow] at hlimit ⊢
  have hquiet : atOnce moment.now ((Player.loop l).respond moment (.play loops)).2 = [] := by
    show atOnce _ (l.play loops _).2 = []
    rw [Loop.play_eq hlength hloops]
    rfl
  obtain ⟨_, ⟨k, hk, rfl⟩, hplays⟩ := Loop.playsOut_play hordered hbeats hfits hlength hloops
    moment (s.stage.engine.queue.agenda m.id) hlimit
  obtain ⟨hplayed, hsame⟩ := hdrains.unique hplays (Part.byClock_some rfl _)
  rw [hledger, hquiet, hplayed, hpart, hsame]
  exact ⟨rfl, k, hk, rfl⟩

/-- Of the entries of all passes those play, at their ticks, that are due by the callback for the
end of the last pass; the loop has stopped then, with nothing queued. These are all entries of all
passes if each is due the lag before the end of its pass, or earlier. -/
theorem counted_play (rate : Float) (config : Config) (before : List Op) :
    let s := (start rate config).run before
    ∀ m ∈ s.stage.directory.members, ∀ l, m.player = .loop l →
      ∀ beats length, l.beats = some beats → l.passTicks? = some length →
      (∀ x ∈ l.timeline, 0.0 ≤ x.1 ∧ x.1 < beats) →
      ∀ loops passes, playCount? loops = some (some passes) →
      ∀ (ops : List Op) (ticks : List ℕ), (∀ op ∈ ops, ∀ limit, op ≠ .deliver limit) →
      s.score m.id ops = .call (.play loops) :: ticks.map .advance →
      let now := s.stage.engine.now
      let last := now + (passes * length - l.lag)
      (∃ tick ∈ ticks, last ≤ tick) →
      let entries := (List.range passes).flatMap fun k =>
        l.timeline.map fun x => Played.mk (now + k * length + l.tempo.roundTicks x.1) x.2 true
      (s.ledger ops).of m.id = entries.filter (fun x => x.tick ≤ last) ∧
        ((∀ x ∈ l.timeline, l.tempo.roundTicks x.1 + l.lag ≤ length) →
          (s.ledger ops).of m.id = entries) ∧
        ∃ k : Loop, k.playing = false ∧ (s.run ops).stage.part m.id = ⟨some (.loop k), []⟩ := by
  intro s m hm l hl beats length hbeats hlength hfits loops passes hloops ops ticks hops hscore
    now last hticks entries
  obtain ⟨born, hlives⟩ := lives_start .free rate config fun op (_ : op ∈ before) => op.fits_free
  obtain ⟨hplayed, hstopped⟩ :=
    played_counted hlives hm hl hbeats (fun x hx => has_of_mem (hfits x hx).1 (hfits x hx).2)
      hlength hloops hops hscore hticks
  have hentries : (l.passEntries length now passes).map Timed.played = entries := by
    simp only [entries, Loop.passEntries, Loop.entries, List.map_flatMap, List.map_map,
      List.drop_zero]
    rfl
  refine ⟨?_, fun hroom => ?_, hstopped⟩
  · rw [hplayed, ← hentries, List.filter_map]
    rfl
  · rw [hplayed, Loop.upTo_passEntries hroom, hentries]

/-! ### Near to the end of the pass -/

/-- A loop of 500 ticks with one key, that is at the tick `key` of the pass. -/
def oneKey (key : ℕ) : List Op :=
  [.addPlayer "tape" (.loop ⟨some 1.0, none⟩), .call "tape" (.record 1.0), .use (.setTick key),
    .call "tape" (.add (.note 1 60 100.0)), .call "tape" (.record 0.0), .call "tape" (.play 0.0),
    .use (.setTick 1000)]

/-- Whether a player is a loop of 500 ticks that does not play, with a lag of 10 ticks and one
entry at the tick `key` of the pass. -/
def holdsKey (key : ℕ) : Player → Bool
  | .loop l => !l.playing && !l.recording && l.lag == 10 && l.passTicks? == some 500 &&
      l.beats.any (fun b => l.timeline.all fun x => 0.0 ≤ x.1 && x.1 < b) &&
      l.timeline.map (fun x => l.tempo.roundTicks x.1) == [key]
  | _ => false

structure HoldsKey (key : ℕ) (l : Loop) (b : Float) (x : Float × Event) : Prop where
  silent : l.playing = false
  off : l.recording = false
  lag : l.lag = 10
  length : l.passTicks? = some 500
  beats : l.beats = some b
  timeline : l.timeline = [x]
  fits : 0.0 ≤ x.1 ∧ x.1 < b
  offset : l.tempo.roundTicks x.1 = key

theorem exists_of_holdsKey {key : ℕ} {p : Player} (h : holdsKey key p = true) :
    ∃ l beats x, p = .loop l ∧ HoldsKey key l beats x := by
  cases p with
  | loop l =>
    simp only [holdsKey, Bool.and_eq_true, Bool.not_eq_true', beq_iff_eq] at h
    obtain ⟨⟨⟨⟨⟨hsilent, hoff⟩, hlag⟩, hlength⟩, hfits⟩, hkey⟩ := h
    obtain ⟨x, htimeline, hoffset⟩ := List.map_eq_singleton_iff.mp hkey
    obtain ⟨beats, hbeats, hall⟩ := (Option.any_eq_true _ _).mp hfits
    have hx := List.all_eq_true.mp hall x (htimeline ▸ List.mem_cons_self)
    refine ⟨l, beats, x, rfl, hsilent, hoff, hlag, hlength, hbeats, htimeline, ?_, hoffset⟩
    simpa using hx
  | _ => cases h

theorem HoldsKey.forall_mem {key : ℕ} {l : Loop} {beats : Float} {x : Float × Event}
    (h : HoldsKey key l beats x) : ∀ y ∈ l.timeline, 0.0 ≤ y.1 ∧ y.1 < beats := by
  rw [h.timeline]
  exact List.forall_mem_singleton.mpr h.fits

theorem score_oneKey (key : ℕ) (s : Session) (hs : s = (start 1000.0 .default).run (oneKey key))
    (hkey : ∃ m ∈ s.stage.directory.members, m.name = "tape" ∧ holdsKey key m.player = true) :
    ∃ m ∈ s.stage.directory.members, ∃ l beats x, m.player = .loop l ∧ HoldsKey key l beats x ∧
      s.score m.id [.call "tape" (.play 2.0), .advance 5000] =
        [.call (.play 2.0), .advance 5000] := by
  obtain ⟨born, hlives⟩ := lives_start .free 1000.0 .default
    fun op (_ : op ∈ oneKey key) => op.fits_free
  obtain ⟨m, hm, hname, hkey⟩ := hkey
  obtain ⟨l, beats, x, hl, hone⟩ := exists_of_holdsKey hkey
  have hscore := score_call_advances (hs ▸ hlives.sound) hm (.play 2.0) [5000]
  rw [hname] at hscore
  exact ⟨m, hm, l, beats, x, hl, hone, hscore⟩

/-- In the middle of the pass the key is played in both of two passes. -/
theorem counted_play_twice :
    let s := (start 1000.0 .default).run (oneKey 250)
    let ops : List Op := [.call "tape" (.play 2.0), .advance 5000]
    ∃ m ∈ s.stage.directory.members, ∃ l beats x, m.player = .loop l ∧ HoldsKey 250 l beats x ∧
      playCount? 2.0 = some (some 2) ∧ (∀ op ∈ ops, ∀ limit, op ≠ .deliver limit) ∧
      s.score m.id ops = [.call (.play 2.0), .advance 5000] ∧
      s.stage.engine.now + (2 * 500 - l.lag) ≤ 5000 ∧
      ((s.ledger ops).of m.id).map Played.tick = [1250, 1750] ∧
      ∃ k : Loop, k.playing = false ∧ (s.run ops).stage.part m.id = ⟨some (.loop k), []⟩ := by
  intro s ops
  obtain ⟨m, hm, l, beats, x, hl, hone, hscore⟩ :=
    score_oneKey 250 s rfl (by decide +kernel)
  have hloops : playCount? 2.0 = some (some 2) := by decide +kernel
  have hnow : s.stage.engine.now = 1000 := by decide +kernel
  have hops : ∀ op ∈ ops, ∀ limit, op ≠ .deliver limit := by simp [ops]
  have hlast : s.stage.engine.now + (2 * 500 - l.lag) ≤ 5000 := by omega
  obtain ⟨-, hall, hstopped⟩ := counted_play 1000.0 .default (oneKey 250) m hm l hl beats 500
    hone.beats hone.length hone.forall_mem 2.0 2 hloops ops [5000] hops hscore
    ⟨5000, List.mem_cons_self, hlast⟩
  have hroom : ∀ y ∈ l.timeline, l.tempo.roundTicks y.1 + l.lag ≤ 500 := by
    rw [hone.timeline, List.forall_mem_singleton, hone.offset, hone.lag]
    decide
  refine ⟨m, hm, l, beats, x, hl, hone, hloops, hops, hscore, hlast, ?_, hstopped⟩
  rw [hall hroom, hone.timeline]
  show [s.stage.engine.now + 0 * 500 + _, s.stage.engine.now + 1 * 500 + _] = _
  rw [hone.offset, hnow]

/-- Five ticks before the end of the pass, which is within the lag, it is played in the first of
two passes only. -/
theorem last_pass_is_cut :
    let s := (start 1000.0 .default).run (oneKey 495)
    let ops : List Op := [.call "tape" (.play 2.0), .advance 5000]
    ∃ m ∈ s.stage.directory.members, ∃ l beats x, m.player = .loop l ∧ HoldsKey 495 l beats x ∧
      playCount? 2.0 = some (some 2) ∧ s.stage.engine.now = 1000 ∧
      s.score m.id ops = [.call (.play 2.0), .advance 5000] ∧
      ((s.ledger ops).of m.id).map Played.tick = [1495] := by
  intro s ops
  obtain ⟨m, hm, l, beats, x, hl, hone, hscore⟩ :=
    score_oneKey 495 s rfl (by decide +kernel)
  obtain ⟨born, hlives⟩ := lives_start .free 1000.0 .default
    fun op (_ : op ∈ oneKey 495) => op.fits_free
  have hloops : playCount? 2.0 = some (some 2) := by decide +kernel
  have hnow : s.stage.engine.now = 1000 := by decide +kernel
  have hlast : s.stage.engine.now + (2 * 500 - l.lag) ≤ 5000 := by omega
  have hticks : ∃ tick ∈ [5000], s.stage.engine.now + (2 * 500 - l.lag) ≤ tick :=
    ⟨5000, List.mem_cons_self, hlast⟩
  have hfits : l.Fits beats := fun y hy =>
    has_of_mem (hone.forall_mem y hy).1 (hone.forall_mem y hy).2
  obtain ⟨hplayed, -⟩ := played_counted hlives hm hl hone.beats hfits hone.length hloops (by simp)
    hscore hticks
  have hentries : l.passEntries 500 1000 2 = [⟨1495, x.2⟩, ⟨1995, x.2⟩] := by
    unfold Loop.passEntries Loop.entries
    rw [hone.timeline]
    show [Timed.mk (1000 + 0 * 500 + _) x.2, Timed.mk (1000 + 1 * 500 + _) x.2] = _
    rw [hone.offset]
  refine ⟨m, hm, l, beats, x, hl, hone, hloops, hnow, hscore, ?_⟩
  rw [hplayed, hnow, hone.lag, hentries]
  rfl

end Session

end MidiRig
