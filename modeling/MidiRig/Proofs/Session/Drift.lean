import MidiRig.Proofs.Player.Pace
import MidiRig.Proofs.Session.CountedSteps
import MidiRig.Proofs.Session.Steps

/-!
# Steps and the clock

While the tempo, the subdivision and the swing of a player stay as they are (`Told.Steady`), it
queues its steps at multiples of one whole number of ticks (`Told.InSteps.tick_eq_of_steady`). What
the length of a step loses when it is rounded is lost again by each step, so the steps leave the
clock behind or run ahead of it, unless nothing is lost (`Session.steps_drift`).
-/

namespace MidiRig

/-! ## Steps at one pace -/

namespace Told

variable {first : Told} {rest : List Told} {es : List Emission} {p : Pace} {n : Nat}

/-- Tick of the first step of a player that is started. Only chords do not wait for the lag. -/
def firstTick (x : Told) : Nat :=
  x.moment.now +
    if x.player.strikes then 0 else (x.player.stepper?.map Stepper.lag).getD 0

/-- From a start on a player goes on, at one pace. -/
structure Steady (first : Told) (rest : List Told) (p : Pace) : Prop where
  stepped : first.player.stepper?.isSome = true
  starts : first.Starts
  goesOn : ∀ x ∈ rest, x.GoesOn
  undisturbed : ∀ x ∈ rest, x.call.setsPace = false
  pace : first.after.pace? = some p

theorem pace?_after (hlinked : (first :: rest).IsChain Links) (h : first.Steady rest p) :
    ∀ x ∈ first :: rest, x.after.pace? = some p := by
  have hundisturbed := h.undisturbed
  have hpace := h.pace
  clear h
  induction rest generalizing first with
  | nil => exact List.forall_mem_singleton.mpr hpace
  | cons next rest ih =>
    obtain ⟨hlink, hlinked⟩ := List.isChain_cons_cons.mp hlinked
    have hnext : next.after.pace? = some p := by
      rw [Told.after, Player.pace?_respond (hundisturbed next List.mem_cons_self), hlink, hpace]
    exact List.forall_mem_cons.mpr ⟨hpace,
      ih hlinked (fun x hx => hundisturbed x (List.mem_cons_of_mem _ hx)) hnext⟩

theorem Emit.exists_emits (h : Emit rest es) : ∀ e ∈ es, ∃ x ∈ rest, x.Emits e := by
  induction h with
  | nil => nofun
  | @steps x _ _ _ _ hx _ ih =>
    refine List.forall_mem_cons.mpr ⟨⟨x, List.mem_cons_self, hx⟩, fun e he => ?_⟩
    obtain ⟨y, hy, hemits⟩ := ih e he
    exact ⟨y, List.mem_cons_of_mem _ hy, hemits⟩
  | rests _ _ _ ih =>
    intro e he
    obtain ⟨y, hy, hemits⟩ := ih e he
    exact ⟨y, List.mem_cons_of_mem _ hy, hemits⟩

theorem InSteps.exists_emits (h : InSteps first rest es) :
    ∀ e ∈ es, ∃ x ∈ first :: rest, x.Emits e := by
  have hqueued := h.queued
  split at hqueued
  · obtain ⟨e, more, rfl, hfirst, hemit⟩ := hqueued
    refine List.forall_mem_cons.mpr ⟨⟨first, List.mem_cons_self, hfirst⟩, fun e he => ?_⟩
    obtain ⟨y, hy, hemits⟩ := hemit.exists_emits e he
    exact ⟨y, List.mem_cons_of_mem _ hy, hemits⟩
  · intro e he
    obtain ⟨y, hy, hemits⟩ := hqueued.2.exists_emits e he
    exact ⟨y, List.mem_cons_of_mem _ hy, hemits⟩

theorem Opens.tick_eq {e : Emission} (h : first.Opens e) : e.tick = first.firstTick := by
  obtain ⟨m, player, a, c⟩ := first
  obtain ⟨-, h⟩ := h
  cases player with
  | sequence s => cases c <;> first | exact h.elim | exact h.1
  | arpeggio q =>
    cases c with
    | add key =>
      refine h.2.trans ?_
      show (if q.style = .chord then m.now else m.now + q.lag) =
        m.now + if (q.style == .chord) = true then 0 else q.lag
      by_cases hstyle : q.style = .chord <;> simp [hstyle]
    | _ => exact h.elim
  | loop | track => exact h.elim

/-- Where all steps are of one length, they come at its multiples. -/
theorem InSteps.tick_eq (h : InSteps first rest es) (hlength : ∀ e ∈ es, e.length = n) {k : Nat}
    {e : Emission} (he : es[k]? = some e) : e.tick = first.firstTick + k * n := by
  induction k generalizing e with
  | zero =>
    rw [Nat.zero_mul, Nat.add_zero]
    exact (h.opens e (by rwa [List.head?_eq_getElem?])).tick_eq
  | succ k ih =>
    obtain ⟨hk, rfl⟩ := List.getElem?_eq_some_iff.mp he
    have hfollows := List.isChain_iff_getElem.mp h.follows k hk
    rw [hfollows.1, ih (List.getElem?_eq_getElem (by omega)),
      hlength _ (List.getElem_mem _), Nat.succ_mul, Nat.add_assoc]

/-- Straight steps at one pace come at multiples of the length of a step. -/
theorem InSteps.tick_eq_of_steady (h : InSteps first rest es)
    (hlinked : (first :: rest).IsChain Links) (hsteady : first.Steady rest p)
    (hstraight : p.Straight) {k : Nat} {e : Emission} (he : es[k]? = some e) :
    e.tick = first.firstTick + k * p.stepTicks 0 := by
  refine h.tick_eq (fun e he => ?_) he
  obtain ⟨x, hx, hemits⟩ := h.exists_emits e he
  rw [hemits.length, Player.stepTicks_of_pace? (pace?_after hlinked hsteady x hx),
    hstraight.stepTicks_eq]

/-- What a step is off at multiples of some other length. -/
theorem InSteps.tick_sub (h : InSteps first rest es) (hlinked : (first :: rest).IsChain Links)
    (hsteady : first.Steady rest p) (hstraight : p.Straight) {k : Nat} {e : Emission}
    (he : es[k]? = some e) (ideal : ℚ) :
    (e.tick : ℚ) - (first.firstTick + k * ideal) = k * (p.stepTicks 0 - ideal) := by
  have htick : (e.tick : ℚ) = first.firstTick + k * p.stepTicks 0 := by
    exact_mod_cast h.tick_eq_of_steady hlinked hsteady hstraight he
  rw [htick]
  ring

end Told

namespace Session

open Binary64

/-- Whether a stretch of a log is one of what a player of a session is told. -/
def Tells (s : Session) (ops : List Op) (id : Nat) (first : Told) (rest : List Told) : Prop :=
  ∃ before after, s.log id ops = before ++ first :: (rest ++ after)

variable {rate : Float} {config : Config} {ops : List Op} {id : Nat} {first : Told}
  {rest : List Told} {p : Pace}

theorem Tells.links (h : (start rate config).Tells ops id first rest)
    (hops : ∀ op ∈ ops, op.Timed) : (first :: rest).IsChain Told.Links := by
  obtain ⟨before, after, hlog⟩ := h
  have hpast := past_run .timed rate config (fun op hop => (hops op hop).fits) id
  have hlinked : ((start rate config).log id ops).IsChain Told.Links := hpast.linked.1
  rw [hlog, ← List.cons_append] at hlinked
  exact hlinked.right_of_append.left_of_append

theorem Tells.exists_inSteps (h : (start rate config).Tells ops id first rest)
    (hops : ∀ op ∈ ops, op.Timed) (hsteady : first.Steady rest p) :
    ∃ es, Told.InSteps first rest es := by
  have hlinked := h.links hops
  obtain ⟨before, after, hlog⟩ := h
  have hpast := past_run .timed rate config (fun op hop => (hops op hop).fits) id
  have hprompt : ∀ x ∈ (start rate config).log id ops, x.Prompt := hpast.prompt
  refine Told.inSteps_of_goesOn hsteady.stepped hlinked (fun x hx => hprompt x ?_) hsteady.starts
    hsteady.goesOn
  rw [hlog, ← List.cons_append]
  exact List.mem_append_right _ (List.mem_append_left _ hx)

theorem Tells.sound (h : (start rate config).Tells ops id first rest)
    (hops : ∀ op ∈ ops, op.Timed) (hsteady : first.Steady rest p) : p.Sound := by
  obtain ⟨before, after, hlog⟩ := h
  have hpast := past_run .timed rate config (fun op hop => (hops op hop).fits) id
  have hall : ∀ x ∈ (start rate config).log id ops, ∀ p ∈ x.player.pace?, p.Sound :=
    hpast.forall_player fun hlife => hlife.sound_pace?
  exact Player.sound_pace?_respond (hall first (by simp [hlog])) p hsteady.pace

/-- A player that plays straight steps at one pace queues them at multiples of one length, from the
tick on at which it starts. So the difference from the ideal length, of up to half a tick, adds up:
the steps stay within a tick of where they belong for as long as that many differences make no more
than a tick, and for ever only where the ideal length is a whole number of ticks. Of two players
that start together, one at double the subdivision of the other, common steps move apart by as much
as two lengths of the one differ from one of the other. -/
theorem steps_drift (hops : ∀ op ∈ ops, op.Timed)
    (htells : (start rate config).Tells ops id first rest) (hsteady : first.Steady rest p)
    (hstraight : p.Straight) (hsmall : p.division < 2 ^ 32) {r b : ℚ}
    (hrate : Has p.tempo.ticksPerSecond r) (hbpm : Has p.tempo.bpm b) :
    let length := p.stepTicks 0
    let ideal := Pace.exactTicks p.division r b
    (∃ es, Told.InSteps first rest es) ∧
    (1 ≤ ideal →
      (ideal ≤ 2 ^ 63 → |(length : ℚ) - ideal| ≤ 1 / 2 + ideal / 2 ^ 49) ∧
      (ideal < 2 ^ 48 → ((length : ℚ) = ideal ↔ ∃ n : ℕ, ideal = n))) ∧
    ∀ es, Told.InSteps first rest es →
      (∀ (k : ℕ) (e : Emission), es[k]? = some e →
        (e.tick : ℚ) - (first.firstTick + k * ideal) = k * (length - ideal) ∧
        (|(e.tick : ℚ) - (first.firstTick + k * ideal)| ≤ 1 ↔ k * |length - ideal| ≤ 1)) ∧
      ∀ (id' : ℕ) (first' : Told) (rest' : List Told) (q : Pace),
        (start rate config).Tells ops id' first' rest' → first'.Steady rest' q → q.Straight →
        q.tempo = p.tempo → q.division = 2 * p.division → q.division < 2 ^ 32 →
        first'.firstTick = first.firstTick →
        (2 ≤ ideal → ideal ≤ 2 ^ 46 → |(length : ℚ) - 2 * q.stepTicks 0| ≤ 1) ∧
        ∀ fs, Told.InSteps first' rest' fs → ∀ (k : ℕ) (e f : Emission),
          es[k]? = some e → fs[2 * k]? = some f →
          |(e.tick : ℚ) - f.tick| = k * |(length : ℚ) - 2 * q.stepTicks 0| := by
  intro length ideal
  have hlinked := htells.links hops
  have hsound := htells.sound hops hsteady
  refine ⟨?_, fun hleast => ⟨fun hmost => ?_, fun hmost => ?_⟩,
    fun es hes => ⟨fun k e he => ?_, fun id' first' rest' q htells' hsteady' hq htempo hdouble
      hqsmall hsame => ⟨fun hleast hmost => ?_, fun fs hfs k e f he hf => ?_⟩⟩⟩
  · exact htells.exists_inSteps hops hsteady
  · exact Pace.Straight.abs_stepTicks_sub_le hsound hsmall hrate hbpm hleast hmost hstraight
  · exact hstraight.stepTicks_eq_iff hsound hsmall hrate hbpm hleast hmost
  · have hoff := hes.tick_sub hlinked hsteady hstraight he ideal
    refine ⟨hoff, ?_⟩
    rw [hoff, abs_mul, Nat.abs_cast]
  · exact hstraight.abs_stepTicks_sub_double_le hq hsound (htells'.sound hops hsteady') htempo
      hdouble hqsmall hrate hbpm hleast hmost
  · have hoff := hes.tick_sub hlinked hsteady hstraight he (2 * q.stepTicks 0)
    have htick := hfs.tick_sub (htells'.links hops) hsteady' hq hf (q.stepTicks 0)
    rw [sub_self, mul_zero, sub_eq_zero, hsame] at htick
    have hcommon : (e.tick : ℚ) - f.tick = k * (length - 2 * q.stepTicks 0) := by
      rw [htick, ← hoff]
      push_cast
      ring
    rw [hcommon, abs_mul, Nat.abs_cast]

/-! ### Sixteenths that run ahead -/

/-- Sixteenths at 110 beats a minute. The last of twelve is heard. -/
def march : SequenceDef :=
  { SequenceDef.default with
    patterns := [[List.replicate 11 .rest ++ [.event (.make .control (some 1) (some 1) 1.0)]]]
    division := 16
    tempo := some 110.0 }

def addMarch : List Op := [.addPlayer "march" (.sequence march)]

def playMarch : List Op := addMarch ++ [.call "march" (.play 1.0)]

def marchPace : Pace := ⟨Tempo.of 1000.0 110.0, 16, 0.5⟩

theorem log_playMarch : ∃ first rest,
    (start 1000.0 .default).log 1 (playMarch ++ [.advance 300]) = first :: rest ∧
      first.firstTick = 10 ∧ first.Steady rest marchPace ∧ rest.length = 3 := by
  rw [← ((start 1000.0 .default).matches_unrolled 3 _).log]
  refine ⟨_, _, rfl, by decide +kernel, ⟨rfl, ?_, ?_, ?_, rfl⟩, by decide +kernel⟩
  all_goals decide +kernel

theorem has_marchRate : Has marchPace.tempo.ticksPerSecond 1000 := by
  rw [show marchPace.tempo.ticksPerSecond = 1000.0 from rfl]
  exact has_literal 1000 (by norm_num)

theorem has_marchBpm : Has marchPace.tempo.bpm 110 := by
  rw [show marchPace.tempo.bpm = 110.0 from by decide +kernel]
  exact has_literal 110 (by norm_num)

theorem stepTicks_marchPace : marchPace.stepTicks 0 = 136 := by
  decide +kernel

/-- Each step is four elevenths of a tick too short, and they add up. -/
theorem steps_drift_march :
    let ops := playMarch ++ [.advance 300]
    (∀ op ∈ ops, op.Timed) ∧ marchPace.Straight ∧ marchPace.division < 2 ^ 32 ∧
      Has marchPace.tempo.ticksPerSecond 1000 ∧ Has marchPace.tempo.bpm 110 ∧
      ∃ first rest, (start 1000.0 .default).Tells ops 1 first rest ∧
        first.Steady rest marchPace ∧ rest.length = 3 ∧ ∃ es, Told.InSteps first rest es ∧
        ∀ (k : ℕ) (e : Emission), es[k]? = some e →
          (e.tick : ℚ) - (10 + k * Pace.exactTicks 16 1000 110) = -(k * (4 / 11)) := by
  intro ops
  have hops : ∀ op ∈ ops, op.Timed := by simp [ops, playMarch, addMarch, Op.Timed]
  have hstraight : marchPace.Straight := .inr rfl
  have hsmall : marchPace.division < 2 ^ 32 := by decide
  obtain ⟨first, rest, hlog, htick, hsteady, hlength⟩ := log_playMarch
  have htells : (start 1000.0 .default).Tells ops 1 first rest :=
    ⟨[], [], by rw [List.append_nil]; exact hlog⟩
  obtain ⟨⟨es, hes⟩, -, hdrift⟩ :=
    steps_drift hops htells hsteady hstraight hsmall has_marchRate has_marchBpm
  refine ⟨hops, hstraight, hsmall, has_marchRate, has_marchBpm, first, rest, htells, hsteady,
    hlength, es, hes, fun k e he => ?_⟩
  have hoff := ((hdrift es hes).1 k e he).1
  rw [htick, stepTicks_marchPace, show marchPace.division = 16 from rfl] at hoff
  push_cast at hoff
  rw [hoff]
  norm_num [Pace.exactTicks]

/-- The twelfth step is queued four ticks before it is due. -/
theorem twelfth_step_is_early :
    let s := (start 1000.0 .default).run addMarch
    let ops : List Op := [.call "march" (.play 1.0), .advance 5000]
    march.problem? = none ∧ s.stage.engine.now = 0 ∧
      ∃ m ∈ s.stage.directory.members, ∃ q, m.player = .sequence q ∧ q.pace = marchPace ∧
        marchPace.Straight ∧ Has marchPace.tempo.ticksPerSecond 1000 ∧
        Has marchPace.tempo.bpm 110 ∧ q.lag = 10 ∧
        ∃ tick : ℕ, (((s.ledger ops).of m.id).filter Played.queued).map Played.tick = [tick] ∧
          1 < |(tick : ℚ) - (0 + 10 + 11 * Pace.exactTicks 16 1000 110)| := by
  intro s ops
  have hcount : playCount? 1.0 = some (some 1) := by decide +kernel
  have hops : ∀ op ∈ ops, ∀ limit, op ≠ .deliver limit := by simp [ops]
  obtain ⟨m, hm, hname, hq⟩ : ∃ m ∈ s.stage.directory.members, m.name = "march" ∧
      m.player = .sequence (.make march .default 1000.0) :=
    ⟨_, List.mem_cons_self, rfl, rfl⟩
  obtain ⟨born, hlives⟩ := lives_start .free 1000.0 .default
    fun op (_ : op ∈ addMarch) => op.fits_free
  have hscore : s.score m.id [.call "march" (.play 1.0), .advance 5000] =
      .call (.play 1.0) :: [5000].map .advance :=
    hname ▸ score_call_advances hlives.sound hm (.play 1.0) [5000]
  have hvisits : Cursor.Visits [1] 4 (Cursor.start 1 (some 1)) [(0, ⟨0, [false], some 1⟩)] := by
    have hfirst : Cursor.Reads [1] 1 ⟨0, [false], some 1⟩ (some (0, ⟨0, [false], some 1⟩)) :=
      .plays (show _ = some 1 from rfl) (by decide)
    have hend : Cursor.Reads [1] 1 ⟨1, [false], some 1⟩ none := .ends (by decide) rfl (by decide)
    exact .plays hfirst (by decide) (.ends hend)
  obtain ⟨hplayed, -⟩ := played_steps hlives hm hq hcount hvisits hops hscore rfl rfl
    ⟨5000, List.mem_cons_self, by decide +kernel⟩
  refine ⟨by decide +kernel, rfl, m, hm, _, hq, rfl, .inr rfl, has_marchRate, has_marchBpm, rfl,
    1506, ?_, ?_⟩
  · rw [hplayed]
    decide +kernel
  · norm_num [Pace.exactTicks, abs_of_neg]

end Session

end MidiRig
