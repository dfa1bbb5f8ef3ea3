import MidiRig.Proofs.Session.Callbacks
import MidiRig.Proofs.Session.CountedPlay
import MidiRig.Proofs.Stage.Course

/-!
# A new tempo

A loop that plays keeps its place when its tempo changes: up to a tick it is at the same beat, and
plays on from there at the new tempo (`Session.tempo_keeps_place`). What it has before it in its pass
is what it would have played at the old tempo, unless an entry is due on the very tick of the change,
which plays twice then, or lies within the tick by which the place has moved.
-/

namespace MidiRig

open Binary64

namespace Loop

variable {l : Loop} {beats : Float} {length passes now limit : ℕ} {m : Moment}

/-! ## Playing on from a place -/

theorem Regular.resync_eq (h : l.Regular beats length) (hplaying : l.playing = true)
    (hstart : l.passStart ≤ m.now) (hend : m.now < l.passStart + length) :
    l.resync m =
      (l.waiting l.passStart (l.timeline.countBefore (l.beatAt m.now)) l.passes,
        [.cancel, .callback
          (l.due length l.passStart (l.timeline.countBefore (l.beatAt m.now)) - l.lag)]) := by
  unfold resync
  rw [align_of_mem h.length hstart hend]
  exact rearm_eq { l with next := l.timeline.countBefore (l.beatAt m.now) } hplaying h.length

theorem Regular.resync_frame (h : l.Regular beats length) (hplaying : l.playing = true)
    (hstart : l.passStart ≤ m.now) (hend : m.now < l.passStart + length) :
    ∃ next atEnd, (l.resync m).1 = { l with next, atEnd } := by
  rw [h.resync_eq hplaying hstart hend, waiting_eq h.length]
  refine ⟨l.timeline.countBefore (l.beatAt m.now),
    l.timeline[l.timeline.countBefore (l.beatAt m.now)]?.isNone, ?_⟩
  unfold standing
  rw [← hplaying]

/-- Nothing that it waits for is in the past. -/
theorem Regular.awaits (h : l.Regular beats length) (hnow : now < 2 ^ 50)
    (hstart : l.passStart ≤ now) (hend : now < l.passStart + length) :
    l.Awaits length l.passStart (l.timeline.countBefore (l.beatAt now)) now [] := by
  refine ⟨List.Pairwise.nil, nofun, nofun, ?_⟩
  cases hentry : l.timeline[l.timeline.countBefore (l.beatAt now)]? with
  | none =>
    rw [due_end length l.passStart hentry]
    exact hend.le
  | some x =>
    rw [due_entry length l.passStart hentry]
    obtain ⟨hlt, rfl⟩ := List.getElem?_eq_some_iff.mp hentry
    have hmem := List.mem_of_mem_head? (l := l.timeline.drop (l.timeline.countBefore (l.beatAt now)))
      (by rw [List.drop_eq_getElem_cons hlt]; rfl)
    rw [h.drop_countBefore hnow hstart hend, List.mem_filter] at hmem
    exact h.le_due_of_not_lt hnow hstart hend hmem.1 (by simpa using hmem.2)

/-- A loop that finds its place plays the entries from there on, and the passes after it. -/
theorem Regular.playsOut_resync (h : l.Regular beats length) (hplaying : l.playing = true)
    (hnow : m.now < 2 ^ 50) (hstart : l.passStart ≤ m.now) (hend : m.now < l.passStart + length)
    (hleft : ∀ n, l.passes = some n → limit + l.lag < l.passStart + n * length)
    (hlimit : limit + l.lag < l.passStart + (passes + 1) * length) (a : Agenda) :
    PlaysOut (fun _ => True) limit limit m.now
      ⟨some (.loop (l.resync m).1), Agenda.perform m.now a (l.resync m).2⟩
      ((l.timeline.filter fun x => !(x.1 < l.beatAt m.now)).map
          (fun x => ⟨l.passStart + l.tempo.roundTicks x.1, x.2⟩) ++
        l.passEntries length (l.passStart + length) passes) := by
  have hplays := (h.awaits hnow hstart hend).playsOut h.ordered h.known h.fits h.length hleft hlimit
  rw [List.nil_append, entries, h.drop_countBefore hnow hstart hend] at hplays
  rw [h.resync_eq hplaying hstart hend]
  show PlaysOut _ _ _ _ ⟨_, Agenda.put ⟨max _ _, none⟩ []⟩ _
  rw [Nat.max_comm (l.due _ _ _ - l.lag)]
  exact hplays

/-! ## The place at a new tempo -/

theorem Regular.align (h : l.Regular beats length) (now : ℕ) : (l.align now).Regular beats length := by
  rw [align_eq h.length now]
  exact h.of_same rfl rfl rfl

theorem Regular.retimed (h : l.Regular beats length) {bpm : Float}
    (hpos : 0 < (l.tempo.setBpm bpm).roundTicks beats) (now : ℕ) :
    (l.retimed bpm now).Regular beats ((l.tempo.setBpm bpm).roundTicks beats) := by
  refine ⟨⟨h.ordered.timeline, h.ordered.tempo.setBpm bpm⟩, h.tempo.setBpm bpm, h.known, h.sized,
    h.fits, ?_⟩
  unfold passTicks?
  show l.beats.bind _ = _
  rw [h.known]
  exact if_pos hpos

/-- The beat moves by no more than a tick, to that of a whole tick. -/
theorem Regular.place_retimed (h : l.Regular beats length) (hnow : now < 2 ^ 50) {bpm : Float}
    (hroom : (l.tempo.setBpm bpm).roundTicks ((l.align now).beatAt now) ≤ now)
    (hwithin : (l.tempo.setBpm bpm).roundTicks ((l.align now).beatAt now) <
      (l.tempo.setBpm bpm).roundTicks beats) :
    (l.tempo.setBpm bpm).roundTicks ((l.retimed bpm now).beatAt now) =
        (l.tempo.setBpm bpm).roundTicks ((l.align now).beatAt now) ∧
      ∃ v w τ, Has ((l.align now).beatAt now) v ∧ Has ((l.retimed bpm now).beatAt now) w ∧
        Has (l.tempo.setBpm bpm).ticksPerBeat τ ∧ |w - v| * τ ≤ 1 := by
  obtain ⟨hstart, hend⟩ := align_mem h.length now
  obtain ⟨v, hv, hnonneg, -⟩ := (h.align now).place hnow hstart hend
  obtain ⟨τ, hτ, -⟩ := (h.tempo.setBpm bpm).ticksPerBeat
  obtain ⟨hpos, -⟩ := (h.tempo.setBpm bpm).has_ticksPerBeat hτ
  obtain ⟨hbelow, habove⟩ :=
    (h.tempo.setBpm bpm).mem_of_roundTicks (by omega) hv hnonneg hτ rfl
  have hregular := h.retimed (Nat.zero_lt_of_lt hwithin) now
  have hbegin : (l.retimed bpm now).passStart =
    now - (l.tempo.setBpm bpm).roundTicks ((l.align now).beatAt now) := rfl
  obtain ⟨w, hw, -, hticks, hnear⟩ := hregular.place hnow (by omega) (by omega)
  have hnear := hnear τ hτ
  rw [hbegin, Nat.sub_sub_self hroom] at hticks hnear
  obtain ⟨hleast, hmost⟩ := abs_le.mp hnear
  refine ⟨hticks, v, w, τ, hv, hw, hτ, ?_⟩
  have hfactor : |w - v| * τ = |w * τ - v * τ| := by
    rw [← sub_mul, abs_mul, abs_of_pos hpos]
  rw [hfactor, abs_le]
  constructor <;> linarith

/-- Where nothing is due at the very tick and nothing lies between the place and a beat, the entries
from that beat on are those that are due later. -/
theorem Regular.filter_due (h : l.Regular beats length) (hnow : now < 2 ^ 50) {beat : Float}
    (hquiet : ∀ x ∈ l.timeline, (l.align now).passStart + l.tempo.roundTicks x.1 ≠ now)
    (hclear : ∀ x ∈ l.timeline, x.1 < (l.align now).beatAt now ↔ x.1 < beat) :
    (l.timeline.filter fun x => !(x.1 < beat)) =
      l.timeline.filter fun x => now < (l.align now).passStart + l.tempo.roundTicks x.1 := by
  obtain ⟨hstart, hend⟩ := align_mem h.length now
  have haligned := h.align now
  have htempo : (l.align now).tempo = l.tempo := tempo_align l now
  refine List.filter_congr fun x hx => ?_
  have hmem : x ∈ (l.align now).timeline := by
    rw [align_eq h.length now]
    exact hx
  by_cases hlt : x.1 < beat
  · have hdue : (l.align now).passStart + l.tempo.roundTicks x.1 ≤ now :=
      htempo ▸ haligned.due_le_of_lt hnow hstart hend hmem ((hclear x hx).mpr hlt)
    simp [hlt, Nat.not_lt.mpr hdue]
  · have hdue : now ≤ (l.align now).passStart + l.tempo.roundTicks x.1 :=
      htempo ▸ haligned.le_due_of_not_lt hnow hstart hend hmem (mt (hclear x hx).mp hlt)
    simp [hlt, lt_of_le_of_ne hdue (hquiet x hx).symm]

/-! ## What is ahead -/

/-- The entries that are left in a pass that began at a tick, and all entries of the passes after
it. -/
def ahead (l : Loop) (left : Layer) (length start passes : ℕ) : List Played :=
  (left.map fun x => ⟨start + l.tempo.roundTicks x.1, x.2, true⟩) ++
    (List.range passes).flatMap fun k => l.timeline.map fun x =>
      ⟨start + (k + 1) * length + l.tempo.roundTicks x.1, x.2, true⟩

/-- Up to a tick the loop comes neither to the callback for the end of its last pass, nor to that of
so many passes after one that began at a tick. -/
structure Lasts (l : Loop) (length start passes limit : ℕ) : Prop where
  passes : limit + l.lag < start + (passes + 1) * length
  left : ∀ n, l.passes = some n → limit + l.lag < l.passStart + n * length

theorem ahead_eq (l : Loop) (left : Layer) (length start passes : ℕ) :
    l.ahead left length start passes =
      (left.map (fun x => (⟨start + l.tempo.roundTicks x.1, x.2⟩ : Timed)) ++
        l.passEntries length (start + length) passes).map Timed.played := by
  unfold ahead passEntries entries
  rw [List.map_append, List.map_map, List.map_flatMap]
  congr 1
  refine List.flatMap_congr fun k _ => ?_
  rw [List.drop_zero, List.map_map, Nat.succ_mul, Nat.add_comm (k * length) length,
    ← Nat.add_assoc start]
  rfl

end Loop

namespace Session

variable {s : Session} {m : Member} {id : ℕ} {born : ℕ → Option PlayerDef} {ledger : Ledger}

/-- Where only time passes, these events play, as far as they are due, up to any tick of which that
is known. -/
def PlaysAhead (s : Session) (id : ℕ) (known : ℕ → Prop) (events : List Played) : Prop :=
  ∀ (ops : List Op) (ticks : List ℕ), (∀ op ∈ ops, ∀ limit, op ≠ .deliver limit) →
    s.score id ops = ticks.map .advance → ∀ latest ∈ ticks, (∀ tick ∈ ticks, tick ≤ latest) →
      known latest → (s.ledger ops).of id = events.filter fun x => x.tick ≤ latest

theorem playsAhead_of_playsOut (hs : s.stage.Lives .free born false ledger) {p : Part}
    (hpart : s.stage.solo id = ⟨s.stage.engine.now, p⟩) (hclock : p.ByClock) {known : ℕ → Prop}
    {events : List Timed}
    (hplays : ∀ limit, known limit →
      Loop.PlaysOut (fun _ => True) limit limit s.stage.engine.now p events) :
    s.PlaysAhead id known (events.map Timed.played) := by
  intro ops ticks hops hscore latest hmem hlatest hknown
  have hrun := plays_run hs hops (hpart ▸ hclock : (s.stage.solo id).part.ByClock)
    (by rw [hscore]; simp)
  rw [hscore, hpart] at hrun
  obtain ⟨first, rest, rfl⟩ := List.exists_cons_of_ne_nil (List.ne_nil_of_mem hmem)
  obtain ⟨last, hlast, hticks, u, hdrains, -⟩ := hrun.of_advances
  obtain rfl : last = latest := le_antisymm (hlatest last hlast) (hticks latest hmem)
  obtain ⟨t, -, hends⟩ := hplays last hknown
  rw [(hdrains.unique hends hclock).1, List.filter_map]
  rfl

/-- What a call makes of the player of that name. -/
theorem solo_call (hs : s.stage.Lives .free born false ledger)
    (hm : m ∈ s.stage.directory.members) (hclock : m.player.byClock) (c : Call) :
    ∃ moment : Moment, moment.now = s.stage.engine.now ∧
      (s.step (.call m.name c)).stage.solo m.id = ⟨s.stage.engine.now,
        some (m.player.respond moment c).1,
        (s.stage.engine.queue.agenda m.id).perform s.stage.engine.now
          (m.player.respond moment c).2⟩ := by
  have hpart := Stage.part_of_mem hs.sound hm
  have hscore : s.score m.id [.call m.name c] = [.call c] := score_call_advances hs.sound hm c []
  have hops : ∀ op ∈ [Op.call m.name c], ∀ limit, op ≠ .deliver limit := by simp
  have hplays := plays_run hs hops
    (hpart ▸ Part.byClock_some hclock _) (by rw [hscore]; simp)
  rw [hscore, Stage.solo, hpart] at hplays
  show ∃ moment : Moment, _ ∧ (s.run [.call m.name c]).stage.solo m.id = _
  generalize (s.run [.call m.name c]).stage.solo m.id = last at hplays ⊢
  generalize (s.ledger [.call m.name c]).of m.id = played at hplays
  cases hplays with
  | cons hcall hrest =>
    cases hrest
    cases hcall with
    | call _ resolution => exact ⟨⟨_, resolution⟩, rfl, rfl⟩

variable {l : Loop} {beats : Float} {length : ℕ}

/-- Before the change. -/
theorem playsAhead_of_drained (hs : s.stage.Lives .free born false ledger)
    (hm : m ∈ s.stage.directory.members) (hl : m.player = .loop l)
    (hcourse : l.OnCourse s.stage.engine.now (s.stage.engine.queue.agenda m.id))
    (hplaying : l.playing = true) (hregular : l.Regular beats length)
    (hnow : s.stage.engine.now < 2 ^ 50)
    (hlate : ∀ x ∈ s.stage.engine.queue.agenda m.id, s.stage.engine.now < x.tick) (passes : ℕ) :
    s.PlaysAhead m.id (l.Lasts length (l.align s.stage.engine.now).passStart passes)
      (l.ahead (l.timeline.filter fun x =>
          s.stage.engine.now < (l.align s.stage.engine.now).passStart + l.tempo.roundTicks x.1)
        length (l.align s.stage.engine.now).passStart passes) := by
  have hpart := Stage.part_of_mem hs.sound hm
  rw [hl] at hpart
  rw [Loop.ahead_eq]
  refine playsAhead_of_playsOut hs (congrArg (Solo.mk _) hpart) (Part.byClock_some rfl _)
    fun limit hlimit => ?_
  have hplays := hcourse.playsOut hplaying hregular hnow hlate hlimit.left hlimit.passes
  unfold Loop.entries Timed.after at hplays
  rwa [List.drop_zero, List.filter_map] at hplays

/-- What a new tempo makes of a loop that plays. -/
theorem solo_setTempo (hs : s.stage.Lives .free born false ledger)
    (hm : m ∈ s.stage.directory.members) (hl : m.player = .loop l) (hplaying : l.playing = true)
    (bpm : Float) :
    ∃ moment : Moment, moment.now = s.stage.engine.now ∧
      (s.step (.call m.name (.tempo bpm))).stage.solo m.id = ⟨s.stage.engine.now,
        some (.loop ((l.retimed bpm moment.now).resync moment).1),
        (s.stage.engine.queue.agenda m.id).perform moment.now
          ((l.retimed bpm moment.now).resync moment).2⟩ := by
  obtain ⟨moment, hmoment, hsolo⟩ := solo_call hs hm (by rw [hl]; rfl) (.tempo bpm)
  have hresponse : m.player.respond moment (.tempo bpm) =
      (((l.retimed bpm moment.now).resync moment).map Player.loop id) := by
    rw [hl]
    exact congrArg (Prod.map Player.loop id) (Loop.setTempo_eq hplaying bpm moment)
  rw [hresponse, ← hmoment] at hsolo
  exact ⟨moment, hmoment, hmoment ▸ hsolo⟩

/-- After the change. -/
theorem playsAhead_setTempo (hs : s.stage.Lives .free born false ledger)
    (hm : m ∈ s.stage.directory.members) (hl : m.player = .loop l) (hplaying : l.playing = true)
    (hregular : l.Regular beats length) (hnow : s.stage.engine.now < 2 ^ 50) {bpm : Float}
    (hroom : (l.tempo.setBpm bpm).roundTicks ((l.align s.stage.engine.now).beatAt s.stage.engine.now)
      ≤ s.stage.engine.now)
    (hwithin : (l.tempo.setBpm bpm).roundTicks
      ((l.align s.stage.engine.now).beatAt s.stage.engine.now) <
        (l.tempo.setBpm bpm).roundTicks beats) (passes : ℕ) :
    let k := l.retimed bpm s.stage.engine.now
    let t := s.step (.call m.name (.tempo bpm))
    (∃ next atEnd, (t.stage.part m.id).player = some (.loop { k with next, atEnd })) ∧
      t.PlaysAhead m.id (k.Lasts (k.tempo.roundTicks beats) k.passStart passes)
        (k.ahead (k.timeline.filter fun x => !(x.1 < k.beatAt s.stage.engine.now))
          (k.tempo.roundTicks beats) k.passStart passes) := by
  intro k t
  obtain ⟨⟨now, resolution⟩, rfl, hsolo⟩ := solo_setTempo hs hm hl hplaying bpm
  obtain ⟨_, -, hnext⟩ := lives_step hs (Op.fits_free (.call m.name (.tempo bpm)))
  have hclock : t.stage.engine.now = s.stage.engine.now := congrArg Solo.now hsolo
  have hk := hregular.retimed (Nat.zero_lt_of_lt hwithin) s.stage.engine.now
  have hbegin : k.passStart = s.stage.engine.now -
    (l.tempo.setBpm bpm).roundTicks ((l.align s.stage.engine.now).beatAt s.stage.engine.now) := rfl
  have hstart : k.passStart ≤ s.stage.engine.now := by omega
  have hend : s.stage.engine.now < k.passStart + k.tempo.roundTicks beats := by
    show s.stage.engine.now < k.passStart + (l.tempo.setBpm bpm).roundTicks beats
    omega
  constructor
  · have hplayer : (t.stage.part m.id).player = some (.loop (k.resync ⟨_, resolution⟩).1) :=
      congrArg (fun solo : Solo => solo.part.player) hsolo
    obtain ⟨next, atEnd, hframe⟩ :=
      hk.resync_frame (m := ⟨s.stage.engine.now, resolution⟩) hplaying hstart hend
    exact ⟨next, atEnd, hplayer.trans (congrArg (fun k => some (Player.loop k)) hframe)⟩
  · rw [Loop.ahead_eq]
    refine playsAhead_of_playsOut hnext (hclock.symm ▸ hsolo) (Part.byClock_some rfl _)
      fun limit hlimit => ?_
    rw [hclock]
    exact hk.playsOut_resync (m := ⟨s.stage.engine.now, resolution⟩) hplaying hnow hstart hend
      hlimit.left hlimit.passes _

/-- A loop that plays, in a session where nothing is due, gets a new tempo. The tick rate is neither
next to nothing nor next to infinity, the clock not beyond what doubles can count, and all beats lie
within the pass. There is room for the place before now, and rounding does not put it at the end of
the pass.

Then the beat of the place moves by no more than a tick. Without the change the loop would play the
entries of its pass that are not due yet; with it, it plays those that do not lie before the place,
and the passes after this one follow. These are the same entries if none is due at the tick of the
change and none lies between the places. -/
theorem tempo_keeps_place (rate : Float) (config : Config) {before : List Op}
    (hbefore : ∀ op ∈ before, op.Served) :
    let s := (start rate config).run before
    let now := s.stage.engine.now
    ∀ m ∈ s.stage.directory.members, ∀ l, m.player = .loop l → l.playing = true →
      ∀ beats length, l.beats = some beats → l.passTicks? = some length →
      (∀ x ∈ l.timeline, 0.0 ≤ x.1 ∧ x.1 ≤ beats) →
      1.0e-200 ≤ l.tempo.ticksPerSecond → l.tempo.ticksPerSecond < 1.0e200 → now < 2 ^ 50 →
      (∀ x ∈ s.stage.engine.queue.agenda m.id, now < x.tick) → ∀ bpm,
      let tempo := l.tempo.setBpm bpm
      let start := (l.align now).passStart
      let place := (l.align now).beatAt now
      tempo.roundTicks place ≤ now → tempo.roundTicks place < tempo.roundTicks beats →
      let t := s.step (.call m.name (.tempo bpm))
      let k := l.retimed bpm now
      let due := l.timeline.filter fun x => now < start + l.tempo.roundTicks x.1
      let due' := l.timeline.filter fun x => !(x.1 < k.beatAt now)
      (∃ next atEnd, (t.stage.part m.id).player = some (.loop { k with next, atEnd })) ∧
        tempo.roundTicks (k.beatAt now) = tempo.roundTicks place ∧
        (∃ v w τ, Has place v ∧ Has (k.beatAt now) w ∧ Has tempo.ticksPerBeat τ ∧
          |w - v| * τ ≤ 1) ∧
        (∀ passes, s.PlaysAhead m.id (l.Lasts length start passes)
          (l.ahead due length start passes)) ∧
        (∀ passes, t.PlaysAhead m.id (k.Lasts (tempo.roundTicks beats) k.passStart passes)
          (k.ahead due' (tempo.roundTicks beats) k.passStart passes)) ∧
        ((∀ x ∈ l.timeline, start + l.tempo.roundTicks x.1 ≠ now) →
          (∀ x ∈ l.timeline, x.1 < place ↔ x.1 < k.beatAt now) → due' = due) := by
  intro s now m hm l hl hplaying beats length hbeats hlength hfits hlo hhi hnow hlate bpm tempo
    start place hroom hwithin t k due due'
  obtain ⟨_, hlives⟩ := lives_start .free rate config fun op (_ : op ∈ before) => op.fits_free
  obtain ⟨_, hserved⟩ := lives_start .served rate config fun op hop => (hbefore op hop).fits
  obtain ⟨d, -, hlife⟩ := hserved.of_mem hm
  have hordered : l.Ordered := (hl ▸ hlife.ordered _ rfl : Player.Ordered (.loop l))
  have hmoderate := hordered.tempo.moderate hlo hhi
  have hsized : l.Sized now := (hl ▸ hlife.sized _ rfl : Player.Sized now (.loop l))
  obtain ⟨q, hq, hpos⟩ := hsized.beats hmoderate hnow beats hbeats
  have hregular : l.Regular beats length := ⟨hordered, hmoderate, hbeats, ⟨q, hq, hpos⟩,
    fun x hx => has_of_le (hfits x hx).1 (hfits x hx).2 hq, hlength⟩
  have hcourse : l.OnCourse now (s.stage.engine.queue.agenda m.id) :=
    hlife.onCourse id l (congrArg some hl)
  obtain ⟨hticks, hnear⟩ := hregular.place_retimed hnow hroom hwithin
  refine ⟨(playsAhead_setTempo hlives hm hl hplaying hregular hnow hroom hwithin 0).1, hticks, hnear,
    playsAhead_of_drained hlives hm hl hcourse hplaying hregular hnow hlate,
    fun passes => (playsAhead_setTempo hlives hm hl hplaying hregular hnow hroom hwithin passes).2,
    hregular.filter_due hnow⟩

/-! ### One key in a pass -/

/-- Whether a player is a loop of 500 ticks that plays, from tick 1000 on, one key in the middle of
the pass, and whether at half the tempo it is at tick 200 of 1000 at tick 1100. -/
def isSlowed : Player → Bool
  | .loop l => l.playing && l.passes == none && l.lag == 10 && l.passTicks? == some 500 &&
      l.beats.any (fun b => (l.timeline.all fun x => 0.0 ≤ x.1 && x.1 ≤ b) &&
        (l.tempo.setBpm 60.0).roundTicks b == 1000) &&
      1.0e-200 ≤ l.tempo.ticksPerSecond && l.tempo.ticksPerSecond < 1.0e200 &&
      (l.align 1100).passStart == 1000 &&
      (l.tempo.setBpm 60.0).roundTicks ((l.align 1100).beatAt 1100) == 200 &&
      (l.timeline.map fun x => (l.tempo.roundTicks x.1, (l.tempo.setBpm 60.0).roundTicks x.1,
        (x.1 < (l.retimed 60.0 1100).beatAt 1100 : Bool))) == [(250, 500, false)]
  | _ => false

structure Slowed (l : Loop) (b : Float) (x : Float × Event) : Prop where
  playing : l.playing = true
  passes : l.passes = none
  lag : l.lag = 10
  length : l.passTicks? = some 500
  beats : l.beats = some b
  slower : (l.tempo.setBpm 60.0).roundTicks b = 1000
  timeline : l.timeline = [x]
  fits : 0.0 ≤ x.1 ∧ x.1 ≤ b
  rate : 1.0e-200 ≤ l.tempo.ticksPerSecond ∧ l.tempo.ticksPerSecond < 1.0e200
  start : (l.align 1100).passStart = 1000
  offset : (l.tempo.setBpm 60.0).roundTicks ((l.align 1100).beatAt 1100) = 200
  tick : l.tempo.roundTicks x.1 = 250
  later : (l.tempo.setBpm 60.0).roundTicks x.1 = 500
  ahead : ¬ x.1 < (l.retimed 60.0 1100).beatAt 1100

theorem exists_of_isSlowed {p : Player} (h : isSlowed p = true) :
    ∃ l b x, p = .loop l ∧ Slowed l b x := by
  cases p with
  | loop l =>
    simp only [isSlowed, Bool.and_eq_true, beq_iff_eq, decide_eq_true_eq] at h
    obtain ⟨⟨⟨⟨⟨⟨⟨⟨⟨hplaying, hpasses⟩, hlag⟩, hlength⟩, hfits⟩, hlo⟩, hhi⟩, hstart⟩, hoffset⟩, hkey⟩ := h
    obtain ⟨x, htimeline, hx⟩ := List.map_eq_singleton_iff.mp hkey
    obtain ⟨b, hbeats, hall⟩ := (Option.any_eq_true _ _).mp hfits
    simp only [Prod.mk.injEq, decide_eq_false_iff_not] at hx
    simp only [htimeline, List.all_cons, List.all_nil, Bool.and_true, Bool.and_eq_true,
      decide_eq_true_eq, beq_iff_eq] at hall
    exact ⟨l, b, x, rfl, hplaying, hpasses, hlag, hlength, hbeats, hall.2, htimeline, hall.1,
      ⟨hlo, hhi⟩, hstart, hoffset, hx.1, hx.2.1, hx.2.2⟩
  | _ => cases h

/-- At tick 1100 the loop would play the key at tick 1250. Where its tempo is halved, it plays it at
tick 1400. -/
theorem tempo_keeps_place_slower :
    let before := oneKey 250 ++ [.call "tape" (.play (-1.0)), .use (.setTick 1100)]
    let s := (start 1000.0 .default).run before
    let t := s.step (.call "tape" (.tempo 60.0))
    (∀ op ∈ before, op.Served) ∧ s.stage.engine.now = 1100 ∧
      ∃ m ∈ s.stage.directory.members, ∃ l b x, m.name = "tape" ∧ m.player = .loop l ∧
        Slowed l b x ∧ (∀ y ∈ s.stage.engine.queue.agenda m.id, s.stage.engine.now < y.tick) ∧
        ((s.ledger [.advance 1480]).of m.id).map Played.tick = [1250] ∧
        ((t.ledger [.advance 1480]).of m.id).map Played.tick = [1400] := by
  intro before s t
  have hbefore : ∀ op ∈ before, op.Served := by simp [before, oneKey, Op.Served]
  have hnow : s.stage.engine.now = 1100 := by decide +kernel
  obtain ⟨m, hm, hname, hslowed, hlate⟩ : ∃ m ∈ s.stage.directory.members, m.name = "tape" ∧
      isSlowed m.player = true ∧
        ∀ y ∈ s.stage.engine.queue.agenda m.id, s.stage.engine.now < y.tick := by
    decide +kernel
  obtain ⟨l, b, x, hl, hone⟩ := exists_of_isSlowed hslowed
  refine ⟨hbefore, hnow, m, hm, l, b, x, hname, hl, hone, hlate, ?_⟩
  have hfits : ∀ y ∈ l.timeline, 0.0 ≤ y.1 ∧ y.1 ≤ b := by
    rw [hone.timeline]
    exact List.forall_mem_singleton.mpr hone.fits
  have hroom : (l.tempo.setBpm 60.0).roundTicks
      ((l.align s.stage.engine.now).beatAt s.stage.engine.now) ≤ s.stage.engine.now := by
    rw [hnow, hone.offset]
    decide
  have hwithin : (l.tempo.setBpm 60.0).roundTicks
      ((l.align s.stage.engine.now).beatAt s.stage.engine.now) <
        (l.tempo.setBpm 60.0).roundTicks b := by
    rw [hnow, hone.offset, hone.slower]
    decide
  obtain ⟨-, -, -, hold, hnew, -⟩ := tempo_keeps_place 1000.0 .default hbefore m hm l hl
    hone.playing b 500 hone.beats hone.length hfits hone.rate.1 hone.rate.2
    (show s.stage.engine.now < 2 ^ 50 by rw [hnow]; decide) hlate 60.0 hroom hwithin
  have hclock : ((start 1000.0 .default).run before).stage.engine.now = 1100 := hnow
  have hstart : (l.retimed 60.0 1100).passStart = 900 := by
    show 1100 - (l.tempo.setBpm 60.0).roundTicks ((l.align 1100).beatAt 1100) = 900
    rw [hone.offset]
  rw [hclock, hone.start] at hold
  rw [hclock, hstart, hone.slower, hname] at hnew
  have hops : ∀ op ∈ [Op.advance 1480], ∀ limit, op ≠ .deliver limit := by simp
  have hlatest : ∀ tick ∈ [1480], tick ≤ 1480 := by simp
  have holdLasts : l.Lasts 500 1000 0 1480 :=
    ⟨by rw [hone.lag]; decide, by simp [hone.passes]⟩
  have hnewLasts : (l.retimed 60.0 1100).Lasts 1000 900 0 1480 := by
    refine ⟨?_, ?_⟩
    · show 1480 + l.lag < 900 + (0 + 1) * 1000
      rw [hone.lag]
      decide
    · show ∀ n, l.passes = some n → _
      simp [hone.passes]
  constructor
  · have hplayed := hold 0 [.advance 1480] [1480] hops (score_advances s m.id [1480]) 1480
      List.mem_cons_self hlatest holdLasts
    rw [show (s.ledger [.advance 1480]).of m.id = _ from hplayed]
    simp [Loop.ahead, hone.timeline, hone.tick]
  · have hplayed := hnew 0 [.advance 1480] [1480] hops (score_advances t m.id [1480]) 1480
      List.mem_cons_self hlatest hnewLasts
    have hlater : (l.retimed 60.0 1100).tempo.roundTicks x.1 = 500 := hone.later
    rw [show (t.ledger [.advance 1480]).of m.id = _ from hplayed]
    simp [Loop.ahead, hone.timeline, hlater, hone.ahead]

/-- At tick 1250, where the key has just been played, the tempo is set to what it is. The key is
played once more. -/
theorem key_is_played_again :
    let before := oneKey 250 ++ [.call "tape" (.play (-1.0)), .deliver 1250, .deliver 1250]
    let s := (start 1000.0 .default).run before
    let ops : List Op := [.call "tape" (.tempo 120.0), .deliver 1250, .deliver 1250]
    (∀ op ∈ before, op.Served) ∧ s.stage.engine.now = 1250 ∧
      (∀ y ∈ s.stage.engine.queue.agenda 1, 1250 < y.tick) ∧
      (((start 1000.0 .default).ledger before).of 1).map Played.tick = [1250] ∧
      ((s.ledger ops).of 1).map Played.tick = [1250] := by
  refine ⟨by simp [oneKey, Op.Served], ?_⟩
  decide +kernel

end Session

end MidiRig
