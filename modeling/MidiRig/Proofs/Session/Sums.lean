import MidiRig.Proofs.Player.Ahead
import MidiRig.Proofs.Player.Order
import MidiRig.Proofs.Session.Callbacks
import MidiRig.Proofs.Session.Drift

/-!
# Sums of ticks in a session

Whatever players are told in a session, their sums stay near the clock: no further ahead than the
lag, and one more length than they have callbacks (`Past.follows`). So they are in reach of words of
64 bits while the clock has two bits to spare and lengths do not take these up
(`Session.sums_in_reach`). They do not where tick rates and beats are moderate (`Player.Moderate`),
but definitions need not be (`Session.endless_tape_overflows`).
-/

namespace MidiRig

open Binary64

namespace Told

/-- Sums and products of ticks on the way to the answer. -/
def sums (x : Told) : List Nat := x.player.sums x.moment x.call

/-- The player keeps to lengths up to this one, before and after its answer. -/
structure Within (length : Nat) (x : Told) : Prop where
  before : x.player.Within length
  after : x.after.Within length

end Told

section Past

variable {r : Conduct} {busy : Bool} {now length : Nat} {p : Part} {played : List Played}
  {log : List Told}

/-- All that a player is told finds the tick that it counts on from near its callbacks. -/
theorem Past.follows (h : Past r busy now p played log) (hwithin : ∀ x ∈ log, x.Within length) :
    (∀ x ∈ log, x.player.Follows length x.moment.now x.agenda) ∧
      ∀ player, p.player = some player → player.Follows length now p.agenda := by
  induction h with
  | unborn => exact ⟨by simp, nofun⟩
  | born d config rate =>
    refine ⟨by simp, ?_⟩
    rintro _ ⟨⟩
    exact Player.follows_make d config rate
  | hears h _ hs ih =>
    cases hs with
    | stays => simpa using ih (by simpa using hwithin)
    | answers c =>
      obtain ⟨d, hlife⟩ := h.life_of_some
      obtain ⟨hlog, hlast⟩ := List.forall_mem_append.mp hwithin
      obtain ⟨hbefore, hafter⟩ := List.forall_mem_singleton.mp hlast
      obtain ⟨hall, hplayer⟩ := ih hlog
      have hfollows := hplayer _ rfl
      refine ⟨List.forall_mem_append.mpr ⟨hall, List.forall_mem_singleton.mpr hfollows⟩, ?_⟩
      rintro _ ⟨⟩
      exact hfollows.respond hlife.tidy hbefore hafter
    | leaves =>
      obtain ⟨hall, hplayer⟩ := ih (List.forall_mem_append.mp hwithin).1
      exact ⟨List.forall_mem_append.mpr ⟨hall, List.forall_mem_singleton.mpr (hplayer _ rfl)⟩,
        nofun⟩
  | plays _ _ ih =>
    obtain ⟨hall, hplayer⟩ := ih hwithin
    exact ⟨hall, fun player hp => (hplayer player hp).tail⟩
  | wakes h hdue ih =>
    obtain ⟨d, hlife⟩ := h.life_of_some
    obtain ⟨hlog, hlast⟩ := List.forall_mem_append.mp hwithin
    obtain ⟨hbefore, hafter⟩ := List.forall_mem_singleton.mp hlast
    obtain ⟨hall, hplayer⟩ := ih hlog
    have hfollows := (hplayer _ rfl).due hdue
    refine ⟨List.forall_mem_append.mpr ⟨hall, List.forall_mem_singleton.mpr hfollows⟩, ?_⟩
    rintro _ ⟨⟩
    exact hfollows.respond (Player.Tidy.tail hlife.tidy) hbefore hafter
  | lost _ ih => exact ⟨(ih hwithin).1, nofun⟩
  | passes _ hle _ ih =>
    obtain ⟨hall, hplayer⟩ := ih hwithin
    exact ⟨hall, fun player hp => (hplayer player hp).mono hle⟩
  | settles _ _ ih => exact ih hwithin

/-- A player that is woken by its callbacks only has one left at most, whatever it is told. -/
theorem Past.callbacks_le (h : Past r busy now p played log) (hr : ¬ r.wakes) :
    ∀ x ∈ log, x.agenda.callbacks ≤ 1 := by
  have hone : ∀ {player : Player} {a : Agenda}, player.Armed a → a.callbacks ≤ 1 := by
    intro player a harmed
    rw [harmed.callbacks]
    split <;> omega
  induction h with
  | unborn | born => simp
  | hears h _ hs ih =>
    cases hs with
    | stays => simpa using ih
    | answers | leaves =>
      obtain ⟨d, hlife⟩ := h.life_of_some
      exact List.forall_mem_append.mpr
        ⟨ih, List.forall_mem_singleton.mpr (hone (hlife.armed hr))⟩
  | @wakes _ _ _ _ a _ _ h _ ih =>
    obtain ⟨d, hlife⟩ := h.life_of_some
    have hqueue := hone (hlife.armed hr)
    rw [Agenda.callbacks_cons_callback] at hqueue
    have hrest : a.callbacks ≤ 1 := by omega
    exact List.forall_mem_append.mpr ⟨ih, List.forall_mem_singleton.mpr hrest⟩
  | plays _ _ ih | lost _ ih | passes _ _ _ ih | settles _ _ ih => exact ih

end Past

namespace Player

/-- Tick rates and beats that are far from what words can count, also together. -/
def Moderate : Player → Prop
  | sequence s => s.stepping.division < 2 ^ 32 ∧ Below 50 s.tempo.ticksPerSecond
  | arpeggio p => p.stepping.division < 2 ^ 32 ∧ Below 50 p.tempo.ticksPerSecond
  | loop l => ∃ j k, j + k ≤ 53 ∧ Below k l.tempo.ticksPerSecond ∧
    (∀ beats ∈ l.beats, Below j beats) ∧ ∀ x ∈ l.timeline, Below j x.1
  | track _ => True

theorem Moderate.within {player : Player} (h : player.Moderate)
    (hsound : ∀ q ∈ player.pace?, q.Sound) (hordered : player.Ordered) :
    player.Within (2 ^ 59) := by
  cases player with
  | sequence | arpeggio =>
    exact fun step => Pace.stepTicks_le (hsound _ rfl) h.1 h.2 (by norm_num) step
  | loop l =>
    obtain ⟨j, k, hjk, hrate, hbeats, hentries⟩ := h
    have hticks : ∀ {beats : Float}, Below j beats → l.tempo.roundTicks beats ≤ 2 ^ 59 :=
      fun hbelow => (hordered.tempo.roundTicks_le_two_pow hrate hbelow (by omega)).trans
        (Nat.pow_le_pow_right (by norm_num) (by omega))
    refine ⟨fun ticks hknown => ?_, fun x hx => hticks (hentries x hx)⟩
    obtain ⟨beats, hsome, rfl, -⟩ := Loop.passTicks?_eq hknown
    exact hticks (hbeats beats hsome)
  | track => trivial

end Player

namespace Session

/-- What players queue is for now, for the tick that they have come to, or for one of their sums.
As long as what they count in does not last longer than a length, their sums fit into words while
the clock, the lag and a length for each callback do; a player that is woken by its callbacks only
has no more than one. So nothing leads out of reach but a tick rate, a lag or beats of a loop that
are far too large. -/
theorem sums_in_reach (rate : Float) (config : Config) (ops : List Op) (id : Nat) :
    let log := (start rate config).log id ops
    (∀ x ∈ log, ∀ action ∈ x.actions,
      action.From (x.moment.now :: x.player.front :: x.sums) x.player.lag) ∧
    (∀ length, (∀ x ∈ log, x.Within length) → ∀ x ∈ log, x.moment.now < 2 ^ 62 →
      x.player.lag + (x.agenda.callbacks + 1) * length ≤ 3 * 2 ^ 62 → ∀ n ∈ x.sums, n < 2 ^ 64) ∧
    ((∀ op ∈ ops, op.Served) → (∀ x ∈ log, x.agenda.callbacks ≤ 1) ∧
      ((∀ x ∈ log, x.player.Moderate ∧ x.after.Moderate) →
        ∀ x ∈ log, x.moment.now < 2 ^ 62 → x.player.lag ≤ 2 ^ 62 → ∀ n ∈ x.sums, n < 2 ^ 64)) := by
  intro log
  have hpast := past_run .free rate config (fun op (_ : op ∈ ops) => op.fits_free) id
  have hreach : ∀ length, (∀ x ∈ log, x.Within length) → ∀ x ∈ log, x.moment.now < 2 ^ 62 →
      x.player.lag + (x.agenda.callbacks + 1) * length ≤ 3 * 2 ^ 62 → ∀ n ∈ x.sums, n < 2 ^ 64 := by
    intro length hwithin x hx hnow hroom n hn
    obtain ⟨hbefore, hafter⟩ := hwithin x hx
    have hle := ((hpast.follows hwithin).1 x hx).sums_le hbefore hafter n hn
    omega
  refine ⟨fun x _ => x.player.ticks_from_sums x.moment x.call, hreach, fun hops => ?_⟩
  have hserved := past_run .served rate config (fun op hop => (hops op hop).fits) id
  have hcallbacks : ∀ x ∈ log, x.agenda.callbacks ≤ 1 := hserved.callbacks_le fun h => h
  refine ⟨hcallbacks, fun hmoderate x hx hnow hlag => hreach (2 ^ 59) ?_ x hx hnow ?_⟩
  · intro x hx
    obtain ⟨hbefore, hafter⟩ := hmoderate x hx
    have hsound : ∀ q ∈ x.player.pace?, q.Sound := hpast.forall_player Life.sound_pace? x hx
    have hordered : x.player.Ordered := hpast.forall_player Life.ordered x hx
    exact ⟨hbefore.within hsound hordered,
      hafter.within (Player.sound_pace?_respond hsound) (hordered.respond _ _)⟩
  · have hone := hcallbacks x hx
    have : (x.agenda.callbacks + 1) * 2 ^ 59 ≤ 2 * 2 ^ 59 := Nat.mul_le_mul_right _ (by omega)
    omega

/-- A march at its first two callbacks. -/
theorem sums_in_reach_march :
    let ops := playMarch ++ [.deliver 300, .deliver 300]
    let log := (start 1000.0 .default).log 1 ops
    (∀ op ∈ ops, op.Served) ∧ log.map Told.sums = [[10], [146], [282]] ∧
      ∀ x ∈ log, ∀ n ∈ x.sums, n < 2 ^ 64 := by
  intro ops log
  have hops : ∀ op ∈ ops, op.Served := by simp [ops, playMarch, addMarch, Op.Served]
  have hpace : ∀ x ∈ log, x.player.pace? = some marchPace ∧ x.after.pace? = some marchPace := by
    decide +kernel
  have hnear : ∀ x ∈ log, x.moment.now < 2 ^ 62 ∧ x.player.lag ≤ 2 ^ 62 := by decide +kernel
  have hmoderate : ∀ {player : Player}, player.pace? = some marchPace → player.Moderate := by
    intro player hplayer
    have hrate : Below 50 marchPace.tempo.ticksPerSecond :=
      ⟨1000, has_marchRate, by norm_num, by norm_num⟩
    have hsmall : marchPace.division < 2 ^ 32 := by decide
    cases player with
    | sequence | arpeggio =>
      rw [← Option.some.inj hplayer] at hrate hsmall
      exact ⟨hsmall, hrate⟩
    | loop | track => cases hplayer
  refine ⟨hops, by decide +kernel, fun x hx => ?_⟩
  exact ((sums_in_reach 1000.0 .default ops 1).2.2 hops).2
    (fun x hx => ⟨hmoderate (hpace x hx).1, hmoderate (hpace x hx).2⟩) x hx (hnear x hx).1
    (hnear x hx).2

/-- A tape of more beats than there are ticks. -/
def tape : LoopDef := ⟨some 1.0e300, none⟩

def addTape : List Op := [.addPlayer "tape" (.loop tape)]

def playTape : List Op := addTape ++ [.advance 1] ++ [.call "tape" (.play (-1.0))]

/-- It is accepted, and overflows where it is played after the first tick. -/
theorem endless_tape_overflows :
    (PlayerDef.loop tape).validate "tape" = .ok () ∧ Config.default.problem? = none ∧
      (∀ op ∈ playTape, op.Served) ∧
      ∃ x ∈ (start 1000.0 .default).log 1 playTape, x.moment.now < 2 ^ 62 ∧
        ∃ n ∈ x.sums, 2 ^ 64 ≤ n := by
  have hbeyond : ((start 1000.0 .default).log 1 playTape).any
      (fun x => decide (x.moment.now < 2 ^ 62 ∧ 2 ^ 64 ∈ x.sums)) = true := by
    rw [← ((start 1000.0 .default).matches_unrolled 0 playTape).log]
    decide +kernel
  obtain ⟨x, hx, hx'⟩ := List.any_eq_true.mp hbeyond
  obtain ⟨hnow, hsum⟩ := of_decide_eq_true hx'
  exact ⟨by decide +kernel, by decide +kernel, by simp [playTape, addTape, Op.Served], x, hx, hnow,
    2 ^ 64, hsum, Nat.le_refl _⟩

end Session

end MidiRig
