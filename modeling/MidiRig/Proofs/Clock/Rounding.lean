import MidiRig.Proofs.Clock.Tempo
import MidiRig.Proofs.Number.Infinite
import MidiRig.Proofs.Number.Ticks

/-!
# Beats in whole ticks

Later beats are at no earlier ticks (`Tempo.roundTicks_mono`), whatever the tempo, for a beat never
lasts a negative time (`Tempo.Forward.ticksPerBeat`). Where a beat is neither next to nothing nor
next to infinity, and the ticks are not too many, the beat of a tick is rounded to that tick again
(`Tempo.Moderate.roundTicks_toBeats`).
-/

namespace MidiRig

open Binary64

namespace Tempo

variable {t : Tempo} {x y b : Float} {v w τ : ℚ}

/-- A tempo in its bounds, at a tick rate that is not negative. -/
structure Forward (t : Tempo) : Prop where
  rate : AtLeast t.ticksPerSecond 0
  bounds : ∃ b, Has t.bpm b ∧ 1 ≤ b ∧ b ≤ 999

theorem Forward.setBpm (ht : t.Forward) (bpm : Float) : (t.setBpm bpm).Forward :=
  ⟨rate_setBpm t bpm ▸ ht.rate, bounds_setBpm ht.bounds bpm⟩

theorem forward_of (rate bpm : Float) : (of rate bpm).Forward := by
  refine Forward.setBpm ⟨?_, 120, mod_cast has_literal 120 (by norm_num), by norm_num,
    by norm_num⟩ bpm
  show AtLeast (if rate > 0.0 then rate else defaultTickRate) 0
  split
  · next hpos => exact has_zero.atLeast_of_lt hpos
  · exact has_zero.atLeast_of_lt (by decide +kernel)

theorem Forward.ticksPerBeat (ht : t.Forward) : AtLeast t.ticksPerBeat 0 := by
  obtain ⟨b, hb, hle, hge⟩ := ht.bounds
  have hsixty : Has 60.0 60 := mod_cast has_literal 60 (by norm_num)
  have hminute := ht.rate.mul hsixty le_rfl (by norm_num)
  rw [zero_mul, nearest_zero] at hminute
  have hbeat := hminute.div hb le_rfl (by linarith) hge
  rwa [zero_div, nearest_zero] at hbeat

theorem Forward.below_ticksPerBeat {n : ℕ} (ht : t.Forward) (hrate : Below n t.ticksPerSecond)
    (hn : n ≤ 512) : Below (n + 6) t.ticksPerBeat := by
  obtain ⟨b, hb, hle, -⟩ := ht.bounds
  have hsixty : Below 6 60.0 :=
    ⟨60, mod_cast has_literal 60 (by norm_num), by norm_num, by norm_num⟩
  exact (hrate.mul hsixty (by omega)).div hb hle (by omega)

theorem Forward.roundTicks_le_two_pow {k n : ℕ} (ht : t.Forward) (hrate : Below n t.ticksPerSecond)
    (hx : Below k x) (hkn : k + n ≤ 512) : t.roundTicks x ≤ 2 ^ (k + (n + 6)) :=
  (hx.mul (ht.below_ticksPerBeat hrate (by omega)) (by omega)).toWord64_round_le

theorem maxWord64_lt_beyond : (maxWord64 : ℚ) < beyond := by
  have hword : (maxWord64 : ℚ) < 2 ^ 64 := by
    have hlt : maxWord64 < 2 ^ 64 := by decide
    exact_mod_cast hlt
  exact hword.trans (two_pow_lt_beyond (by norm_num))

/-- Ticks of a beat where a beat has a finite length. -/
theorem roundTicks_eq (hτ : Has t.ticksPerBeat τ) (hnonneg : 0 ≤ τ) (hx : Has x v) (hv : 0 ≤ v) :
    t.roundTicks x = min ⌊nearest (v * τ) + 1 / 2⌋₊ maxWord64 := by
  unfold roundTicks toTicks
  rcases hx.mul_of_nonneg hτ hv hnonneg with hproduct | ⟨htop, hlarge⟩
  · exact hproduct.toWord64_round (nearest_nonneg (mul_nonneg hv hnonneg))
  · have hfloor : maxWord64 ≤ ⌊nearest (v * τ) + 1 / 2⌋₊ :=
      Nat.le_floor (by linarith [maxWord64_lt_beyond])
    rw [htop.toWord64_round, min_eq_right hfloor]

/-- Beats of an infinite length. -/
theorem roundTicks_of_top (hτ : Binary64.IsTop t.ticksPerBeat) (hx : Has x v) (hv : 0 ≤ v) :
    t.roundTicks x = if v = 0 then 0 else maxWord64 := by
  unfold roundTicks toTicks
  split
  · next hzero =>
    exact toWord64_round_nan (mul_top_of_zero (hzero ▸ hx) hτ).1
  · next hpos => exact (hτ.top_mul hx (lt_of_le_of_ne hv (Ne.symm hpos))).toWord64_round

/-- Later beats are at no earlier ticks. -/
theorem roundTicks_mono (ht : t.Forward) (hx : Has x v) (hy : Has y w) (hv : 0 ≤ v) (h : v ≤ w) :
    t.roundTicks x ≤ t.roundTicks y := by
  have hw : 0 ≤ w := hv.trans h
  rcases ht.ticksPerBeat with ⟨τ, hτ, hnonneg⟩ | htop
  · rw [roundTicks_eq hτ hnonneg hx hv, roundTicks_eq hτ hnonneg hy hw]
    have hmono : nearest (v * τ) ≤ nearest (w * τ) := nearest_mono (by gcongr)
    exact min_le_min_right _ (Nat.floor_mono (by linarith))
  · rw [roundTicks_of_top htop hx hv, roundTicks_of_top htop hy hw]
    split_ifs with hzero hzero' hzero'
    · exact le_rfl
    · exact Nat.zero_le _
    · exact absurd (le_antisymm (hzero' ▸ h) hv) hzero
    · exact le_rfl

/-- What lies within a pass is at no later tick than its end. -/
theorem roundTicks_le (ht : t.Forward) (hx : Has x v) (hv : 0 ≤ v) (hb : AtLeast b v)
    (hpos : 0 < t.roundTicks b) : t.roundTicks x ≤ t.roundTicks b := by
  rcases hb with ⟨w, hb, hvw⟩ | hb
  · exact roundTicks_mono ht hx hb hv hvw
  · have hmost : t.roundTicks b = maxWord64 := by
      unfold roundTicks toTicks at hpos ⊢
      rcases ht.ticksPerBeat with ⟨τ, hτ, hnonneg⟩ | htop
      · rcases hnonneg.eq_or_lt with rfl | hτpos
        · rw [toWord64_round_nan (mul_top_of_zero hτ hb).2] at hpos
          cases hpos
        · exact (hb.mul hτ hτpos).toWord64_round
      · exact (hb.mul_top htop).toWord64_round
    have hlt := t.roundTicks_lt x
    have hword : maxWord64 = 2 ^ 64 - 1 := rfl
    omega

/-- Equal beats are at one tick. -/
theorem roundTicks_congr (ht : t.Forward) (hx : Has x v) (hy : Has y v) (hv : 0 ≤ v) :
    t.roundTicks x = t.roundTicks y :=
  le_antisymm (roundTicks_mono ht hx hy hv le_rfl) (roundTicks_mono ht hy hx hv le_rfl)

/-- What is at an earlier tick is earlier. -/
theorem lt_of_roundTicks_lt (ht : t.Forward) (hx : Has x v) (hy : Has y w) (hw : 0 ≤ w)
    (hlt : t.roundTicks x < t.roundTicks y) : x < y := by
  rw [hx.lt_iff hy]
  by_contra hle
  exact absurd (roundTicks_mono ht hy hx hw (not_lt.mp hle)) (not_le.mpr hlt)

/-! ## There and back -/

/-- A tick rate that is neither next to nothing nor next to infinity, and a tempo in its bounds. -/
structure Moderate (t : Tempo) : Prop where
  rate : ∃ r, Has t.ticksPerSecond r ∧ 2 ^ (-700 : ℤ) ≤ r ∧ r ≤ 2 ^ 800
  bounds : ∃ b, Has t.bpm b ∧ 1 ≤ b ∧ b ≤ 999

theorem le_of_lt_rate (hx : Has x v) (h : x < 1.0e200) : v ≤ 2 ^ 800 := by
  have hvalue : decimal 10 false 199 = 10 ^ 200 := by
    rw [decimal, if_neg Bool.false_ne_true, Nat.cast_ofNat, ← pow_succ']
  have hlarge : |decimal 10 false 199| ≤ 2 ^ 800 := by
    rw [hvalue, abs_of_pos (by positivity)]
    calc (10 : ℚ) ^ 200 ≤ (2 ^ 4) ^ 200 := by gcongr; norm_num
      _ = 2 ^ 800 := by rw [← pow_mul]
  have hwide : (2 : ℚ) ^ 800 ≤ 2 ^ 1023 := pow_le_pow_right₀ (by norm_num) (by norm_num)
  have hfits : |nearest (decimal 10 false 199)| < beyond := abs_nearest_lt (hlarge.trans hwide)
  have hhas : Has 1.0e200 (nearest (decimal 10 false 199)) := has_ofScientific (by decide) hfits
  exact ((hx.lt_iff hhas).mp h).le.trans ((le_abs_self _).trans (abs_nearest_le hlarge))

theorem Forward.moderate (ht : t.Forward) (hlo : 1.0e-200 ≤ t.ticksPerSecond)
    (hhi : t.ticksPerSecond < 1.0e200) : t.Moderate := by
  refine ⟨?_, ht.bounds⟩
  rcases atLeast_of_le hlo with ⟨r, hr, hle⟩ | htop
  · exact ⟨r, hr, hle, le_of_lt_rate hr hhi⟩
  · exact absurd hhi htop.not_lt

theorem Moderate.setBpm (ht : t.Moderate) (bpm : Float) : (t.setBpm bpm).Moderate :=
  ⟨rate_setBpm t bpm ▸ ht.rate, bounds_setBpm ht.bounds bpm⟩

theorem Moderate.of_setBpm {bpm : Float} (h : (t.setBpm bpm).Moderate) (ht : t.Forward) :
    t.Moderate :=
  ⟨rate_setBpm t bpm ▸ h.rate, ht.bounds⟩

theorem Moderate.ticksPerBeat (ht : t.Moderate) :
    ∃ τ, Has t.ticksPerBeat τ ∧ 2 ^ (-705 : ℤ) ≤ τ ∧ τ ≤ 2 ^ (810 : ℤ) := by
  obtain ⟨r, hr, hlo, hhi⟩ := ht.rate
  obtain ⟨b, hb, hle, hge⟩ := ht.bounds
  have hnonneg : 0 ≤ r := le_trans (by positivity) hlo
  have hsixty : Has 60.0 60 := mod_cast has_literal 60 (by norm_num)
  have hminute : |r * 60| ≤ 2 ^ 810 := by
    rw [abs_of_nonneg (by positivity)]
    calc r * 60 ≤ 2 ^ 800 * 2 ^ 10 := by gcongr; norm_num
      _ = 2 ^ 810 := by rw [← pow_add]
  have hbeat : |nearest (r * 60) / b| ≤ 2 ^ 810 := by
    rw [abs_div, abs_of_pos (by linarith : 0 < b)]
    exact (div_le_self (abs_nonneg _) hle).trans (abs_nearest_le hminute)
  have hwide : (2 : ℚ) ^ 810 ≤ 2 ^ 1023 := pow_le_pow_right₀ (by norm_num) (by norm_num)
  have hhas := (hr.mul hsixty (abs_nearest_lt (hminute.trans hwide))).div hb (by linarith)
    (abs_nearest_lt (hbeat.trans hwide))
  have hfine : t.Fine := ⟨.inl ⟨r, hr, hlo⟩, ht.bounds⟩
  have hmost := (le_abs_self _).trans (abs_nearest_le hbeat)
  rw [← zpow_natCast] at hmost
  refine ⟨_, hhas, ?_, hmost⟩
  rcases hfine.ticksPerBeat with ⟨v, hv, hleast⟩ | htop
  · rwa [show nearest (nearest (r * 60) / b) = v from hhas.unique hv]
  · exact absurd htop hhas.not_isTop

/-- Quarters of a tick are doubles. -/
theorem nearest_quarters {n : ℕ} (hn : n < 2 ^ 53) : nearest ((n : ℚ) / 4) = n / 4 := by
  have hquarter : (n : ℚ) / 4 = n * 2 ^ (-2 : ℤ) := by norm_num [div_eq_mul_inv]
  rw [hquarter]
  exact nearest_of_places hn (by norm_num)

/-- To divide by the ticks of a beat and to multiply by them again moves a tick by less than a
quarter. -/
theorem abs_nearest_div_mul_sub_le {d : ℕ} (hd : d < 2 ^ 50) (hpos : 0 < τ)
    (hhi : τ ≤ 2 ^ (810 : ℤ)) : |nearest (d / τ) * τ - d| ≤ 1 / 4 := by
  rcases Nat.eq_zero_or_pos d with rfl | hdpos
  · simp only [Nat.cast_zero, zero_div, nearest_zero, zero_mul, sub_zero, abs_zero]
    norm_num
  have hone : (1 : ℚ) ≤ d := by exact_mod_cast hdpos
  have hmost : (d : ℚ) ≤ 2 ^ 50 := by exact_mod_cast hd.le
  have hlarge : 2 ^ (-1022 : ℤ) ≤ (d : ℚ) / τ := by
    rw [le_div_iff₀ hpos]
    calc (2 : ℚ) ^ (-1022 : ℤ) * τ ≤ 2 ^ (-1022 : ℤ) * 2 ^ (810 : ℤ) := by
          gcongr
      _ = 2 ^ (-212 : ℤ) := by rw [← zpow_add₀ (by norm_num)]; norm_num
      _ ≤ 1 := zpow_le_one_of_nonpos₀ (by norm_num) (by norm_num)
      _ ≤ d := hone
  have hfactor : nearest (d / τ) * τ - d = (nearest (d / τ) - d / τ) * τ := by
    rw [sub_mul, div_mul_cancel₀ _ hpos.ne']
  rw [hfactor, abs_mul, abs_of_pos hpos]
  calc |nearest (d / τ) - d / τ| * τ ≤ d / τ / 2 ^ 53 * τ := by
        gcongr
        exact abs_nearest_sub_le hlarge
    _ = d / 2 ^ 53 := by field_simp
    _ ≤ 1 / 4 := by
      rw [div_le_iff₀ (by positivity)]
      linarith

/-- What lies between quarters of ticks is rounded to between them. -/
theorem nearest_mem_quarters {a b : ℕ} (ha : a < 2 ^ 53) (hb : b < 2 ^ 53) (hlo : (a : ℚ) / 4 ≤ v)
    (hhi : v ≤ b / 4) : (a : ℚ) / 4 ≤ nearest v ∧ nearest v ≤ b / 4 := by
  rw [← nearest_quarters ha, ← nearest_quarters hb]
  exact ⟨nearest_mono hlo, nearest_mono hhi⟩

theorem Moderate.has_ticksPerBeat (ht : t.Moderate) (hτ : Has t.ticksPerBeat τ) :
    0 < τ ∧ 2 ^ (-705 : ℤ) ≤ τ ∧ τ ≤ 2 ^ (810 : ℤ) := by
  obtain ⟨_, hsame, hlo, hhi⟩ := ht.ticksPerBeat
  obtain rfl := hτ.unique hsame
  exact ⟨lt_of_lt_of_le (by positivity) hlo, hlo, hhi⟩

/-- The beat of a tick is rounded to the tick, from which it is less than a quarter away. -/
theorem Moderate.roundTicks_toBeats (ht : t.Moderate) {d : ℕ} (hd : d < 2 ^ 50)
    (hx : Has x d) (hτ : Has t.ticksPerBeat τ) :
    ∃ e, Has (t.toBeats x) e ∧ 0 ≤ e ∧ t.roundTicks (t.toBeats x) = d ∧ |e * τ - d| ≤ 1 / 4 := by
  obtain ⟨hpos, hlo, hhi⟩ := ht.has_ticksPerBeat hτ
  have hnonneg : (0 : ℚ) ≤ d / τ := div_nonneg (Nat.cast_nonneg d) hpos.le
  have hsmall : |(d : ℚ) / τ| ≤ 2 ^ 1023 := by
    have hfactor := inv_le_of_le hpos hlo
    have hmost : (d : ℚ) ≤ 2 ^ 50 := by exact_mod_cast hd.le
    rw [abs_of_nonneg hnonneg, div_eq_mul_inv]
    calc (d : ℚ) * τ⁻¹ ≤ 2 ^ 50 * 2 ^ 705 := by gcongr
      _ ≤ 2 ^ 1023 := by
        rw [← pow_add]
        exact pow_le_pow_right₀ (by norm_num) (by norm_num)
  have hbeat : Has (t.toBeats x) (nearest (d / τ)) :=
    hx.div hτ hpos.ne' (abs_nearest_lt hsmall)
  have hmoved := abs_nearest_div_mul_sub_le hd hpos hhi
  refine ⟨_, hbeat, nearest_nonneg hnonneg, ?_, hmoved⟩
  obtain ⟨hbelow, habove⟩ := abs_le.mp hmoved
  have hticks : 0 ≤ nearest (d / τ) * τ := mul_nonneg (nearest_nonneg hnonneg) hpos.le
  have hnear : ((4 * d - 1 : ℕ) : ℚ) / 4 ≤ nearest (nearest (d / τ) * τ) ∧
      nearest (nearest (d / τ) * τ) ≤ ((4 * d + 1 : ℕ) : ℚ) / 4 := by
    refine nearest_mem_quarters (by omega) (by omega) ?_ (by push_cast; linarith)
    rcases Nat.eq_zero_or_pos d with rfl | hdpos
    · simpa using hticks
    · rw [Nat.cast_sub (by omega)]
      push_cast
      linarith
  have hfloor : ⌊nearest (nearest (d / τ) * τ) + 1 / 2⌋₊ = d := by
    have hlower : ((4 * d : ℕ) : ℚ) ≤ ((4 * d - 1 + 1 : ℕ) : ℚ) := by exact_mod_cast (by omega)
    rw [Nat.floor_eq_iff (by linarith [nearest_nonneg hticks])]
    push_cast at hlower hnear
    constructor <;> linarith
  have hword : maxWord64 = 2 ^ 64 - 1 := rfl
  rw [roundTicks_eq hτ hpos.le hbeat (nearest_nonneg hnonneg), hfloor, min_eq_left (by omega)]

/-- A beat lies within a tick of where it is rounded to. -/
theorem Moderate.mem_of_roundTicks (ht : t.Moderate) {d : ℕ} (hd : d < 2 ^ 50) (hx : Has x v)
    (hv : 0 ≤ v) (hτ : Has t.ticksPerBeat τ) (hticks : t.roundTicks x = d) :
    (d : ℚ) - 3 / 4 ≤ v * τ ∧ v * τ ≤ d + 1 / 2 := by
  obtain ⟨hpos, -⟩ := ht.has_ticksPerBeat hτ
  have hnonneg : 0 ≤ v * τ := mul_nonneg hv hpos.le
  have hword : maxWord64 = 2 ^ 64 - 1 := rfl
  rw [roundTicks_eq hτ hpos.le hx hv] at hticks
  have hfloor : ⌊nearest (v * τ) + 1 / 2⌋₊ = d := by omega
  rw [Nat.floor_eq_iff (by linarith [nearest_nonneg hnonneg])] at hfloor
  constructor
  · by_contra hfar
    have hdpos : 0 < d := by
      by_contra hzero
      rw [Nat.eq_zero_of_not_pos hzero] at hfar
      norm_num at hfar
      linarith
    have hquarters : (d : ℚ) - 3 / 4 = ((4 * d - 3 : ℕ) : ℚ) / 4 := by
      rw [Nat.cast_sub (by omega)]
      push_cast
      ring
    have hmost := nearest_mono (not_le.mp hfar).le
    rw [hquarters, nearest_quarters (by omega), ← hquarters] at hmost
    linarith [hfloor.1]
  · by_contra hfar
    have hquarters : (d : ℚ) + 1 / 2 = ((4 * d + 2 : ℕ) : ℚ) / 4 := by
      push_cast
      ring
    have hleast := nearest_mono (not_le.mp hfar).le
    rw [hquarters, nearest_quarters (by omega), ← hquarters] at hleast
    linarith [hfloor.2]

end Tempo

end MidiRig
