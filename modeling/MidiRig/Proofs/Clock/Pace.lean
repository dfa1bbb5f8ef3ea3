import MidiRig.Clock.Stepping
import MidiRig.Proofs.Clock.Rounding
import MidiRig.Proofs.Number.Relative

/-!
# The pace of steps

A tempo, a subdivision and a swing make a pace. Without swing all steps are of one length
(`Pace.Straight.stepTicks_eq`), which is the exact length rounded to ticks, up to what is lost in
doubles (`Pace.Straight.abs_stepTicks_sub_le`). So it is the exact length where that is a whole
number of ticks, and nowhere else (`Pace.Straight.stepTicks_eq_iff`). With swing or without it the
tick rate bounds the lengths of steps (`Pace.stepTicks_le`).
-/

namespace MidiRig

open Binary64

theorem has_half : Has 0.5 (1 / 2) := by
  have hvalue : nearest (decimal 5 true 1) = 1 / 2 := by
    have hhalf : decimal 5 true 1 = 2 ^ (-1 : ℤ) := by
      rw [decimal, if_pos rfl]
      norm_num
    rw [hhalf, nearest_two_zpow (by norm_num)]
    norm_num
  have hfits : |nearest (decimal 5 true 1)| < beyond := by
    rw [hvalue]
    exact lt_trans (by norm_num) (two_pow_lt_beyond (n := 0) (by norm_num))
  have h : Has 0.5 (nearest (decimal 5 true 1)) := has_ofScientific (by norm_num) hfits
  rwa [hvalue] at h

namespace Stepping

variable {s : Stepping}

/-- A subdivision, and a share of two steps. -/
structure Fair (s : Stepping) : Prop where
  pos : 0 < s.division
  share : Below 0 s.swing

theorem Fair.setSwing (h : s.Fair) (swing : Float) : (s.setSwing swing).Fair := by
  unfold Stepping.setSwing
  split
  · next hfinite =>
    obtain ⟨p, hp⟩ := isFinite_iff.mp hfinite
    have hone : Has 1.0 1 := mod_cast has_literal 1 (by norm_num)
    obtain ⟨v, hv, hpos, hle⟩ := Tempo.clamp_mem has_zero hone (by norm_num) hp
    exact ⟨h.pos, v, hv, hpos, by rwa [pow_zero]⟩
  · exact h

theorem fair_of (division : Nat) (swing : Float) (groove : List Float) :
    (of division swing groove).Fair := by
  have hplain : (Stepping.mk (max division 1) 0.5 plainGroove).Fair :=
    ⟨Nat.lt_of_lt_of_le Nat.one_pos (Nat.le_max_right ..), 1 / 2, has_half, by norm_num,
      by norm_num⟩
  exact ⟨(hplain.setSwing swing).pos, (hplain.setSwing swing).share⟩

end Stepping

deriving instance DecidableEq for Tempo

/-- What the lengths of steps depend on. -/
structure Pace where
  tempo : Tempo
  division : Nat
  swing : Float
  deriving DecidableEq

namespace Pace

def stepTicks (p : Pace) (step : Nat) : Nat :=
  Stepping.stepTicks ⟨p.division, p.swing, []⟩ p.tempo step

/-- The subdivision does not swing, or even and odd steps share alike. -/
def Straight (p : Pace) : Prop :=
  (Stepping.mk p.division p.swing []).swings = false ∨ p.swing = 0.5

/-- A tempo in its bounds, a subdivision, and a share of two steps. -/
structure Sound (p : Pace) : Prop where
  forward : p.tempo.Forward
  pos : 0 < p.division
  share : Below 0 p.swing

/-- The length of a step in ticks, unrounded, at this many ticks a second and beats a minute. -/
def exactTicks (division : ℕ) (rate bpm : ℚ) : ℚ := 4 / division * (rate * 60 / bpm)

variable {p : Pace} {rate bpm : ℚ}

/-- Even steps and odd ones are computed alike. -/
theorem Straight.stepTicks_eq (h : p.Straight) (step : Nat) : p.stepTicks step = p.stepTicks 0 := by
  unfold stepTicks Stepping.stepTicks Stepping.stretch
  rcases h with h | h
  · rw [h]
    rfl
  · rw [h, show (1.0 : Float) - 0.5 = 0.5 from rfl]
    simp only [ite_self]

theorem reachable_of_mem {q : ℚ} (hle : 1 / 4 ≤ q) (hge : q ≤ 2 ^ 200) : Reachable q := by
  refine .inr ⟨le_trans ?_ hle, hge.trans (pow_le_pow_right₀ (by norm_num) (by norm_num))⟩
  calc (2 : ℚ) ^ (-1000 : ℤ) ≤ 2 ^ (-2 : ℤ) := zpow_le_zpow_right₀ (by norm_num) (by norm_num)
    _ = 1 / 4 := by norm_num

section Exact

variable (hp : p.Sound) (hsmall : p.division < 2 ^ 32) (hrate : Has p.tempo.ticksPerSecond rate)
  (hbpm : Has p.tempo.bpm bpm) (hleast : 1 ≤ exactTicks p.division rate bpm)
  (hmost : exactTicks p.division rate bpm ≤ 2 ^ 63)

include hp hsmall hrate hbpm hleast hmost

/-- Four operations lead to the length of a step. -/
theorem approximates_toTicks :
    Approximates (p.tempo.toTicks (4.0 / Float.ofNat p.division)) 4
      (exactTicks p.division rate bpm) := by
  obtain ⟨b, hb, hone, hmany⟩ := hp.forward.bounds
  obtain rfl := hb.unique hbpm
  have hdivision : (1 : ℚ) ≤ p.division := by exact_mod_cast hp.pos
  have hmostDivision : (p.division : ℚ) ≤ 2 ^ 32 := by exact_mod_cast hsmall.le
  -- the beat and the minute keep away from the ends of what doubles reach because the step does
  have hbeat : 1 / 4 ≤ rate * 60 / b ∧ rate * 60 / b ≤ 2 ^ 95 := by
    have hbeat : rate * 60 / b = exactTicks p.division rate b * p.division / 4 := by
      unfold exactTicks
      field_simp
    have hlower := mul_le_mul hleast hdivision zero_le_one (by linarith)
    have hupper := mul_le_mul hmost hmostDivision (by linarith) (by norm_num)
    rw [hbeat]
    constructor <;> linarith
  have hminute : 1 / 4 ≤ rate * 60 ∧ rate * 60 ≤ 2 ^ 105 := by
    have hlower := mul_le_mul hbeat.1 hone zero_le_one (by linarith)
    have hupper := mul_le_mul hbeat.2 hmany (by linarith) (by norm_num)
    rw [div_mul_cancel₀ _ (by linarith)] at hlower hupper
    constructor <;> linarith
  have hquarters : Approximates (4.0 / Float.ofNat p.division) 1 (4 / p.division) := by
    have hfour : Approximates 4.0 0 4 := mod_cast approximates_literal 4 (by norm_num)
    refine hfour.div (has_natCast (by omega)) (by norm_num) (by norm_num) (by linarith) ?_
    exact_mod_cast reachable_div (a := 4) (by norm_num) (by omega) hp.pos
  have hsixty : Approximates 60.0 0 60 := mod_cast approximates_literal 60 (by norm_num)
  have hlong := hrate.approximates.mul hsixty (by norm_num) (by linarith) (by norm_num)
    (reachable_of_mem hminute.1 (hminute.2.trans (by norm_num)))
  have hbeats := hlong.div hb (by norm_num) (by linarith) (by linarith)
    (reachable_of_mem hbeat.1 (hbeat.2.trans (by norm_num)))
  exact hquarters.mul hbeats (by norm_num) (by positivity) (by linarith)
    (reachable_of_mem (by unfold exactTicks at hleast; linarith)
      (by unfold exactTicks at hmost; linarith))

/-- To double the length and to halve it again takes two more. -/
theorem Straight.approximates_stretch (h : p.Straight) :
    ∃ k ≤ 8, Approximates ((Stepping.mk p.division p.swing []).stretch 0
      (p.tempo.toTicks (4.0 / Float.ofNat p.division))) k (exactTicks p.division rate bpm) := by
  have hbase := approximates_toTicks hp hsmall hrate hbpm hleast hmost
  have hplain : ∃ k ≤ 8, Approximates (p.tempo.toTicks (4.0 / Float.ofNat p.division)) k
      (exactTicks p.division rate bpm) := ⟨4, by norm_num, hbase⟩
  unfold Stepping.stretch
  split
  · next hswings =>
    have hhalf : p.swing = 0.5 := h.resolve_left (by simp [hswings])
    have htwo : Approximates 2.0 0 2 := mod_cast approximates_literal 2 (by norm_num)
    have hdouble := hbase.mul htwo (by norm_num) (by linarith) (by norm_num)
      (reachable_of_mem (by linarith) (by linarith))
    have hback := hdouble.mul has_half.approximates (by norm_num) (by linarith) (by norm_num)
      (reachable_of_mem (by linarith) (by linarith))
    rw [mul_assoc, show (2 : ℚ) * (1 / 2) = 1 by norm_num, mul_one] at hback
    rw [if_pos rfl, hhalf]
    exact ⟨6, by norm_num, hback⟩
  · exact hplain

/-- A step is as long as its exact length rounded to ticks, up to a tiny part of it. -/
theorem Straight.abs_stepTicks_sub_le (h : p.Straight) :
    |(p.stepTicks 0 : ℚ) - exactTicks p.division rate bpm| ≤
      1 / 2 + exactTicks p.division rate bpm / 2 ^ 49 := by
  obtain ⟨k, hk, happrox⟩ := approximates_stretch hp hsmall hrate hbpm hleast hmost h
  have hnear := happrox.abs_toWord64_round_sub_le hk (by linarith) hmost
  unfold stepTicks Stepping.stepTicks
  simp only
  generalize toWord64 _ = ticks at hnear ⊢
  obtain ⟨hbelow, -⟩ := abs_le.mp hnear
  have hpos : 1 ≤ ticks := by
    by_contra hzero
    have hnone : (ticks : ℚ) = 0 := by
      exact_mod_cast Nat.eq_zero_of_not_pos hzero
    rw [hnone] at hbelow
    linarith
  rwa [max_eq_left hpos]

end Exact

/-- Exact steps are those of a whole number of ticks. -/
theorem Straight.stepTicks_eq_iff (h : p.Straight) (hp : p.Sound) (hsmall : p.division < 2 ^ 32)
    (hrate : Has p.tempo.ticksPerSecond rate) (hbpm : Has p.tempo.bpm bpm)
    (hleast : 1 ≤ exactTicks p.division rate bpm)
    (hmost : exactTicks p.division rate bpm < 2 ^ 48) :
    (p.stepTicks 0 : ℚ) = exactTicks p.division rate bpm ↔
      ∃ n : ℕ, exactTicks p.division rate bpm = n := by
  constructor
  · exact fun hexact => ⟨_, hexact.symm⟩
  · rintro ⟨n, hn⟩
    have hnear := abs_stepTicks_sub_le hp hsmall hrate hbpm hleast (by linarith) h
    have hclose : |((p.stepTicks 0 : ℤ) - n : ℤ)| < 1 := by
      have : |((p.stepTicks 0 : ℚ) - n)| < 1 := by
        rw [← hn]
        linarith
      exact_mod_cast this
    have hsame : (p.stepTicks 0 : ℤ) = n := by
      have := Int.abs_lt_one_iff.mp hclose
      omega
    rw [hn]
    exact_mod_cast hsame

/-- Half a step. -/
theorem exactTicks_double (division : ℕ) (rate bpm : ℚ) :
    exactTicks (2 * division) rate bpm = exactTicks division rate bpm / 2 := by
  unfold exactTicks
  push_cast
  rcases eq_or_ne (division : ℚ) 0 with h | h
  · rw [h]
    norm_num
  · field_simp

/-- Two steps of half the length are a tick off at most. -/
theorem Straight.abs_stepTicks_sub_double_le {q : Pace} (h : p.Straight) (hq : q.Straight)
    (hp : p.Sound) (hsound : q.Sound) (htempo : q.tempo = p.tempo)
    (hdouble : q.division = 2 * p.division) (hsmall : q.division < 2 ^ 32)
    (hrate : Has p.tempo.ticksPerSecond rate) (hbpm : Has p.tempo.bpm bpm)
    (hleast : 2 ≤ exactTicks p.division rate bpm)
    (hmost : exactTicks p.division rate bpm ≤ 2 ^ 46) :
    |(p.stepTicks 0 : ℚ) - 2 * q.stepTicks 0| ≤ 1 := by
  have hhalf : exactTicks q.division rate bpm = exactTicks p.division rate bpm / 2 := by
    rw [hdouble, exactTicks_double]
  have hlong := abs_le.mp (abs_stepTicks_sub_le hp (by omega) hrate hbpm (by linarith)
    (by linarith) h)
  have hshort := abs_le.mp (abs_stepTicks_sub_le hsound hsmall (htempo ▸ hrate) (htempo ▸ hbpm)
    (by linarith) (by linarith) hq)
  rw [hhalf] at hshort
  have hclose : |(p.stepTicks 0 : ℤ) - 2 * q.stepTicks 0| < 2 := by
    have hfar : |(p.stepTicks 0 : ℚ) - 2 * q.stepTicks 0| < 2 := by
      rw [abs_lt]
      constructor <;> linarith
    exact_mod_cast hfar
  have hwhole : |(p.stepTicks 0 : ℤ) - 2 * q.stepTicks 0| ≤ 1 := Int.lt_add_one_iff.mp hclose
  exact_mod_cast hwhole

/-- A step lasts no longer than four beats twice, at a beat a minute. -/
theorem stepTicks_le {n : ℕ} (hp : p.Sound) (hsmall : p.division < 2 ^ 32)
    (hrate : Below n p.tempo.ticksPerSecond) (hn : n ≤ 500) (step : ℕ) :
    p.stepTicks step ≤ 2 ^ (n + 9) := by
  have hdivision : (1 : ℚ) ≤ p.division := by exact_mod_cast hp.pos
  have hfour : Below 2 4.0 := ⟨4, mod_cast has_literal 4 (by norm_num), by norm_num, by norm_num⟩
  have htwo : Below 1 2.0 := ⟨2, mod_cast has_literal 2 (by norm_num), by norm_num, by norm_num⟩
  have hother : Below 0 (1.0 - p.swing) := by
    obtain ⟨v, hv, hpos, hle⟩ := hp.share
    have hone : Has 1.0 1 := mod_cast has_literal 1 (by norm_num)
    have hmem : |1 - v| ≤ 2 ^ 0 := by
      rw [abs_of_nonneg (by linarith)]
      linarith
    have hfits : |1 - v| ≤ 2 ^ 1023 :=
      hmem.trans (pow_le_pow_right₀ (by norm_num) (by norm_num))
    exact ⟨_, hone.sub hv (abs_nearest_lt hfits), nearest_nonneg (by linarith),
      (le_abs_self _).trans (abs_nearest_le hmem)⟩
  have hbase : Below (2 + (n + 6)) (p.tempo.toTicks (4.0 / Float.ofNat p.division)) :=
    (hfour.div (has_natCast (by omega)) hdivision (by norm_num)).mul
      (hp.forward.below_ticksPerBeat hrate (by omega)) (by omega)
  have hstretch : Below (n + 9) ((Stepping.mk p.division p.swing []).stretch step
      (p.tempo.toTicks (4.0 / Float.ofNat p.division))) := by
    have hdouble := hbase.mul htwo (by omega)
    have hpow : 2 + (n + 6) + 1 + 0 = n + 9 := by omega
    unfold Stepping.stretch
    split
    · split
      · exact hpow ▸ hdouble.mul hp.share (by omega)
      · exact hpow ▸ hdouble.mul hother (by omega)
    · obtain ⟨v, hv, hpos, hle⟩ := hbase
      exact ⟨v, hv, hpos, hle.trans (pow_le_pow_right₀ (by norm_num) (by omega))⟩
  exact max_le hstretch.toWord64_round_le Nat.one_le_two_pow

end Pace

end MidiRig
