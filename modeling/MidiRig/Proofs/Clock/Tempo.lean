import MidiRig.Clock.Tempo
import MidiRig.Proofs.Number.Whole

/-!
# Ticks in beats

A beat of a tempo that is in its bounds, at a tick rate that is not next to nothing, is not next to
nothing either, and may be infinity. So ticks come out in beats by one factor, with one rounding,
and do not overflow (`Tempo.Fine.toBeats`).
-/

namespace MidiRig

open Binary64

namespace Tempo

variable {t : Tempo} {x : Float} {p : ℚ}

theorem isRate_iff : isRate x = true ↔ ∃ p, Has x p ∧ 0 < p := by
  unfold isRate
  rw [Bool.and_eq_true, isFinite_iff, decide_eq_true_iff]
  constructor
  · rintro ⟨⟨p, hx⟩, hpos⟩
    exact ⟨p, hx, (has_zero.lt_iff hx).mp hpos⟩
  · rintro ⟨p, hx, hpos⟩
    exact ⟨⟨p, hx⟩, (has_zero.lt_iff hx).mpr hpos⟩

theorem roundTicks_lt (t : Tempo) (beats : Float) : t.roundTicks beats < 2 ^ 64 := by
  have := toIntWith_le truncInt (show (0 : ℤ) ≤ maxWord64 by decide) (by decide)
    (round (t.toTicks beats))
  unfold roundTicks toWord64
  have hword : maxWord64 = 2 ^ 64 - 1 := rfl
  omega

/-- A tick rate that is not next to nothing, and a tempo in its bounds. -/
structure Fine (t : Tempo) : Prop where
  rate : AtLeast t.ticksPerSecond (2 ^ (-700 : ℤ))
  bounds : ∃ b, Has t.bpm b ∧ 1 ≤ b ∧ b ≤ 999

theorem clamp_mem {lo hi x : Float} {l h p : ℚ} (hlo : Has lo l) (hhi : Has hi h) (hle : l ≤ h)
    (hx : Has x p) : ∃ v, Has (clamp lo hi x) v ∧ l ≤ v ∧ v ≤ h := by
  unfold clamp
  simp only [hx.lt_iff hlo, hhi.lt_iff hx]
  split_ifs with hbelow habove
  · exact ⟨l, hlo, le_rfl, hle⟩
  · exact ⟨h, hhi, hle, le_rfl⟩
  · exact ⟨p, hx, not_lt.mp hbelow, not_lt.mp habove⟩

theorem bounds_setBpm (ht : ∃ b, Has t.bpm b ∧ 1 ≤ b ∧ b ≤ 999) (bpm : Float) :
    ∃ b, Has (t.setBpm bpm).bpm b ∧ 1 ≤ b ∧ b ≤ 999 := by
  unfold Tempo.setBpm
  split
  · next hrate =>
    obtain ⟨p, hbpm, -⟩ := isRate_iff.mp hrate
    have hone : Has 1.0 1 := mod_cast has_literal 1 (by norm_num)
    have hmost : Has 999.0 999 := mod_cast has_literal 999 (by norm_num)
    exact clamp_mem hone hmost (by norm_num) hbpm
  · exact ht

theorem rate_setBpm (t : Tempo) (bpm : Float) :
    (t.setBpm bpm).ticksPerSecond = t.ticksPerSecond := by
  unfold Tempo.setBpm
  split <;> rfl

theorem Fine.setBpm (ht : t.Fine) (bpm : Float) : (t.setBpm bpm).Fine :=
  ⟨rate_setBpm t bpm ▸ ht.rate, bounds_setBpm ht.bounds bpm⟩

/-- A small rate, at which a second is a tiny part of a tick. -/
theorem atLeast_of_le {rate : Float} (h : 1.0e-200 ≤ rate) : AtLeast rate (2 ^ (-700 : ℤ)) := by
  have hten : (0 : ℚ) < 10 ^ 201 := by positivity
  have htwo : (0 : ℚ) < 2 ^ 700 := by positivity
  have hlarge : (10 : ℚ) ^ 201 ≤ 10 * 2 ^ 700 := calc
    (10 : ℚ) ^ 201 ≤ (10 ^ 3) ^ 70 := by
      rw [← pow_mul]
      exact pow_le_pow_right₀ (by norm_num) (by norm_num)
    _ ≤ (2 ^ 10) ^ 70 := by gcongr; norm_num
    _ ≤ 10 * 2 ^ 700 := by
      rw [← pow_mul]
      exact le_mul_of_one_le_left (by positivity) (by norm_num)
  have hvalue : decimal 10 true 201 = 10 / 10 ^ 201 := by
    rw [decimal, if_pos rfl, Nat.cast_ofNat]
  have hle : (2 : ℚ) ^ (-700 : ℤ) ≤ decimal 10 true 201 := by
    rw [hvalue, zpow_neg, zpow_ofNat, inv_eq_one_div, div_le_div_iff₀ htwo hten, one_mul]
    exact hlarge
  have hsmall : |decimal 10 true 201| ≤ 2 ^ 1023 := by
    rw [hvalue, abs_of_pos (div_pos (by norm_num) hten)]
    have hone : (10 : ℚ) / 10 ^ 201 ≤ 1 :=
      (div_le_one₀ hten).mpr (le_self_pow₀ (by norm_num) (by norm_num))
    exact hone.trans (one_le_pow₀ (by norm_num))
  have hfits : |nearest (decimal 10 true 201)| < beyond := abs_nearest_lt hsmall
  have hhas : Has 1.0e-200 (nearest (decimal 10 true 201)) :=
    has_ofScientific (by decide) hfits
  refine (hhas.atLeast_of_le h).mono ?_
  rw [← nearest_two_zpow (e := -700) (by norm_num)]
  exact nearest_mono hle

theorem fine_of {rate : Float} (hrate : 1.0e-200 ≤ rate) (bpm : Float) : (of rate bpm).Fine := by
  refine Fine.setBpm ⟨?_, ?_⟩ bpm
  · show AtLeast (if rate > 0.0 then rate else defaultTickRate) _
    split
    · exact atLeast_of_le hrate
    · exact atLeast_of_le (by decide +kernel)
  · exact ⟨120, mod_cast has_literal 120 (by norm_num), by norm_num, by norm_num⟩

theorem Fine.ticksPerBeat (ht : t.Fine) : AtLeast t.ticksPerBeat (2 ^ (-705 : ℤ)) := by
  obtain ⟨b, hb, hle, hge⟩ := ht.bounds
  have hsixty : Has 60.0 60 := mod_cast has_literal 60 (by norm_num)
  have hminute : AtLeast (t.ticksPerSecond * 60.0) (2 ^ (-695 : ℤ)) := by
    refine (ht.rate.mul hsixty (by positivity) (by norm_num)).mono ?_
    rw [← nearest_two_zpow (e := -695) (by norm_num)]
    refine nearest_mono ?_
    calc (2 : ℚ) ^ (-695 : ℤ) = 2 ^ (-700 : ℤ) * 2 ^ (5 : ℤ) := by
          rw [← zpow_add₀ (by norm_num)]
          norm_num
      _ ≤ 2 ^ (-700 : ℤ) * 60 := by gcongr; norm_num
  refine (hminute.div hb (by positivity) (by linarith) hge).mono ?_
  rw [← nearest_two_zpow (e := -705) (by norm_num)]
  refine nearest_mono ?_
  calc (2 : ℚ) ^ (-705 : ℤ) = 2 ^ (-695 : ℤ) / 2 ^ (10 : ℤ) := by
        rw [← zpow_sub₀ (by norm_num)]
        norm_num
    _ ≤ 2 ^ (-695 : ℤ) / 999 := by gcongr; norm_num

theorem inv_le_of_le {τ : ℚ} (hpos : 0 < τ) (h : 2 ^ (-705 : ℤ) ≤ τ) : τ⁻¹ ≤ 2 ^ 705 := by
  rw [inv_le_comm₀ hpos (by positivity), ← zpow_natCast, ← zpow_neg]
  exact h

/-- Ticks come out in beats by one factor. -/
theorem Fine.toBeats (ht : t.Fine) : ∃ r : ℚ, 0 ≤ r ∧ ∀ {x : Float} {p : ℚ},
    Has x p → |p| ≤ 2 ^ 256 → Has (t.toBeats x) (nearest (p * r)) := by
  rcases ht.ticksPerBeat with ⟨v, hv, hle⟩ | htop
  · have hpos : 0 < v := lt_of_lt_of_le (by positivity) hle
    have hfactor := inv_le_of_le hpos hle
    refine ⟨v⁻¹, by positivity, fun {x p} hx hp => ?_⟩
    refine hx.div hv hpos.ne' (abs_nearest_lt ?_)
    calc |p / v| = |p| * v⁻¹ := by rw [div_eq_mul_inv, abs_mul, abs_of_pos (inv_pos.mpr hpos)]
      _ ≤ 2 ^ 256 * 2 ^ 705 := by gcongr
      _ ≤ 2 ^ 1023 := by
        rw [← pow_add]
        exact pow_le_pow_right₀ (by norm_num) (by norm_num)
  · refine ⟨0, le_rfl, fun {x p} hx _ => ?_⟩
    rw [mul_zero, nearest_zero]
    exact hx.div_top htop

end Tempo

end MidiRig
