import MidiRig.Proofs.Number.Reading
import MidiRig.Proofs.Number.Ticks

/-!
# Chains of rounded operations

One operation moves its result by no more than one part in `2 ^ 53`, so that a product of some
operations lies between the exact product shrunk and grown by as many such parts (`Rounded`).
`Approximates` says this of a double: it goes through products and quotients whose exact values keep
away from the ends of what doubles reach (`Reachable`), and at the end of a short chain tells how
far the nearest whole number is from the exact value (`Approximates.abs_toWord64_round_sub_le`).
-/

namespace MidiRig.Binary64

/-- The part of a number by which it may be moved when it is rounded. -/
def roundoff : ℚ := 1 / 2 ^ 53

/-- What comes of an exact number through so many roundings. -/
structure Rounded (roundings : ℕ) (v exact : ℚ) : Prop where
  lower : exact * (1 - roundoff) ^ roundings ≤ v
  upper : v ≤ exact * (1 + roundoff) ^ roundings

variable {k l : ℕ} {v w q r c : ℚ} {x y : Float}

theorem roundoff_pos : 0 < roundoff := by norm_num [roundoff]

theorem one_sub_roundoff_pos : 0 < 1 - roundoff := by norm_num [roundoff]

namespace Rounded

theorem refl (q : ℚ) : Rounded 0 q q := ⟨by simp, by simp⟩

theorem nonneg (h : Rounded k v q) (hq : 0 ≤ q) : 0 ≤ v :=
  (mul_nonneg hq (pow_nonneg one_sub_roundoff_pos.le k)).trans h.lower

theorem nearest (h : Rounded k v q) (hv : 2 ^ (-1022 : ℤ) ≤ v) :
    Rounded (k + 1) (nearest v) q := by
  obtain ⟨hbelow, habove⟩ := abs_le.mp (abs_nearest_sub_le hv)
  have hunit : v / 2 ^ 53 = v * roundoff := by rw [roundoff, mul_one_div]
  rw [hunit] at hbelow habove
  constructor
  · calc q * (1 - roundoff) ^ (k + 1) = q * (1 - roundoff) ^ k * (1 - roundoff) := by ring
      _ ≤ v * (1 - roundoff) := mul_le_mul_of_nonneg_right h.lower one_sub_roundoff_pos.le
      _ ≤ Binary64.nearest v := by linarith
  · calc Binary64.nearest v ≤ v * (1 + roundoff) := by linarith
      _ ≤ q * (1 + roundoff) ^ k * (1 + roundoff) :=
        mul_le_mul_of_nonneg_right h.upper (by linarith [roundoff_pos])
      _ = q * (1 + roundoff) ^ (k + 1) := by ring

theorem mul (hv : Rounded k v q) (hw : Rounded l w r) (hq : 0 ≤ q) (hr : 0 ≤ r) :
    Rounded (k + l) (v * w) (q * r) := by
  have hshrunk : 0 ≤ r * (1 - roundoff) ^ l :=
    mul_nonneg hr (pow_nonneg one_sub_roundoff_pos.le l)
  have hgrown : 0 ≤ q * (1 + roundoff) ^ k :=
    mul_nonneg hq (pow_nonneg (by linarith [roundoff_pos]) k)
  constructor
  · calc q * r * (1 - roundoff) ^ (k + l)
        = q * (1 - roundoff) ^ k * (r * (1 - roundoff) ^ l) := by ring
      _ ≤ v * w := mul_le_mul hv.lower hw.lower hshrunk (hv.nonneg hq)
  · calc v * w ≤ q * (1 + roundoff) ^ k * (r * (1 + roundoff) ^ l) :=
        mul_le_mul hv.upper hw.upper (hw.nonneg hr) hgrown
      _ = q * r * (1 + roundoff) ^ (k + l) := by ring

/-- A short chain moves a number by a tiny part of itself. -/
theorem abs_sub_le (h : Rounded k v q) (hk : k ≤ 8) (hq : 0 ≤ q) : |v - q| ≤ q / 2 ^ 49 := by
  have hshrunk : 1 - 1 / 2 ^ 49 ≤ (1 - roundoff) ^ k :=
    calc (1 : ℚ) - 1 / 2 ^ 49 ≤ (1 - roundoff) ^ 8 := by norm_num [roundoff]
      _ ≤ (1 - roundoff) ^ k :=
        pow_le_pow_of_le_one one_sub_roundoff_pos.le (by linarith [roundoff_pos]) hk
  have hgrown : (1 + roundoff) ^ k ≤ 1 + 1 / 2 ^ 49 :=
    calc (1 + roundoff) ^ k ≤ (1 + roundoff) ^ 8 :=
        pow_le_pow_right₀ (by linarith [roundoff_pos]) hk
      _ ≤ 1 + 1 / 2 ^ 49 := by norm_num [roundoff]
  have hlower := (mul_le_mul_of_nonneg_left hshrunk hq).trans h.lower
  have hupper := h.upper.trans (mul_le_mul_of_nonneg_left hgrown hq)
  rw [abs_le]
  constructor <;> linarith

end Rounded

/-- Neither next to nothing nor next to infinity, or zero. -/
def Reachable (q : ℚ) : Prop := q = 0 ∨ 2 ^ (-1000 : ℤ) ≤ q ∧ q ≤ 2 ^ 1000

theorem Reachable.nonneg (h : Reachable q) : 0 ≤ q := by
  rcases h with rfl | ⟨hle, -⟩
  · exact le_rfl
  · exact le_trans (by positivity) hle

/-- Quotients of whole numbers that are not huge. -/
theorem reachable_div {a b : ℕ} (ha : a ≤ 2 ^ 200) (hb : b ≤ 2 ^ 200) (hpos : 0 < b) :
    Reachable (a / b) := by
  rcases Nat.eq_zero_or_pos a with rfl | hapos
  · exact .inl (by simp)
  have hbpos : (0 : ℚ) < b := by exact_mod_cast hpos
  have hamost : (a : ℚ) ≤ 2 ^ 200 := by exact_mod_cast ha
  have hbmost : (b : ℚ) ≤ 2 ^ 200 := by exact_mod_cast hb
  refine .inr ⟨?_, ?_⟩
  · rw [le_div_iff₀ hbpos]
    calc (2 : ℚ) ^ (-1000 : ℤ) * b ≤ 2 ^ (-200 : ℤ) * 2 ^ 200 := by
          gcongr <;> norm_num
      _ = 1 := by norm_num
      _ ≤ a := by exact_mod_cast hapos
  · have hone : (1 : ℚ) ≤ b := by exact_mod_cast hpos
    calc (a : ℚ) / b ≤ a := div_le_self (Nat.cast_nonneg a) hone
      _ ≤ 2 ^ 200 := hamost
      _ ≤ 2 ^ 1000 := pow_le_pow_right₀ (by norm_num) (by norm_num)

/-- A double that holds what comes of an exact number through so many roundings. -/
def Approximates (x : Float) (roundings : ℕ) (exact : ℚ) : Prop :=
  ∃ v, Has x v ∧ Rounded roundings v exact

theorem Has.approximates (h : Has x v) : Approximates x 0 v := ⟨v, h, .refl v⟩

/-- Whole numbers as they are written. -/
theorem approximates_literal (n : ℕ) (hn : n < 2 ^ 53) :
    Approximates (OfScientific.ofScientific (10 * n) true 1) 0 n := (has_literal n hn).approximates

/-- An operation rounds once more. -/
theorem Rounded.reachable (h : Rounded k v q) (hk : k ≤ 8) (hq : Reachable q) :
    |Binary64.nearest v| < beyond ∧ Rounded (k + 1) (Binary64.nearest v) q := by
  have hclose := abs_le.mp (h.abs_sub_le hk hq.nonneg)
  rcases hq with rfl | ⟨hle, hge⟩
  · obtain rfl : v = 0 := by linarith [hclose.1, hclose.2]
    rw [nearest_zero, abs_zero]
    exact ⟨beyond_pos, by simp, by simp⟩
  · have hpos : 0 < q := lt_of_lt_of_le (by positivity) hle
    have hsmall : (2 : ℚ) ^ (-1022 : ℤ) ≤ v := by
      calc (2 : ℚ) ^ (-1022 : ℤ) ≤ 2 ^ (-1001 : ℤ) :=
            zpow_le_zpow_right₀ (by norm_num) (by norm_num)
        _ = 2 ^ (-1000 : ℤ) / 2 := zpow_sub_one₀ (by norm_num) (-1000)
        _ ≤ v := by linarith [hclose.1]
    have hlarge : |v| ≤ 2 ^ 1023 := by
      rw [abs_of_nonneg (h.nonneg hpos.le)]
      calc v ≤ 2 * q := by linarith [hclose.2]
        _ ≤ 2 * 2 ^ 1000 := mul_le_mul_of_nonneg_left hge (by norm_num)
        _ = 2 ^ 1001 := (pow_succ' 2 1000).symm
        _ ≤ 2 ^ 1023 := pow_le_pow_right₀ (by norm_num) (by norm_num)
    exact ⟨abs_nearest_lt hlarge, h.nearest hsmall⟩

namespace Approximates

theorem mul (hx : Approximates x k q) (hy : Approximates y l r) (hkl : k + l ≤ 8) (hq : 0 ≤ q)
    (hr : 0 ≤ r) (hreach : Reachable (q * r)) : Approximates (x * y) (k + l + 1) (q * r) := by
  obtain ⟨v, hv, hroundv⟩ := hx
  obtain ⟨w, hw, hroundw⟩ := hy
  obtain ⟨hfits, hround⟩ := (hroundv.mul hroundw hq hr).reachable hkl hreach
  exact ⟨_, hv.mul hw hfits, hround⟩

theorem div (hx : Approximates x k q) (hy : Has y c) (hk : k ≤ 8) (hq : 0 ≤ q) (hc : 0 < c)
    (hreach : Reachable (q / c)) : Approximates (x / y) (k + 1) (q / c) := by
  obtain ⟨v, hv, hroundv⟩ := hx
  have hquotient : Rounded k (v / c) (q / c) := by
    simpa only [div_eq_mul_inv, add_zero] using
      hroundv.mul (Rounded.refl c⁻¹) hq (inv_nonneg.mpr hc.le)
  obtain ⟨hfits, hround⟩ := hquotient.reachable hk hreach
  exact ⟨_, hv.div hy hc.ne' hfits, hround⟩

/-- The nearest whole number. -/
theorem abs_toWord64_round_sub_le (h : Approximates x k q) (hk : k ≤ 8) (hq : 0 ≤ q)
    (hmost : q ≤ 2 ^ 63) : |(toWord64 (round x) : ℚ) - q| ≤ 1 / 2 + q / 2 ^ 49 := by
  obtain ⟨v, hv, hround⟩ := h
  have hnonneg := hround.nonneg hq
  obtain ⟨hbelow, habove⟩ := abs_le.mp (hround.abs_sub_le hk hq)
  have hword : maxWord64 = 2 ^ 64 - 1 := rfl
  have hfits : ⌊v + 1 / 2⌋₊ ≤ maxWord64 := by
    refine Nat.floor_le_of_le ?_
    rw [hword]
    norm_num
    linarith
  rw [hv.toWord64_round hnonneg, min_eq_left hfits, abs_le]
  have hfloor := Nat.floor_le (show 0 ≤ v + 1 / 2 by linarith)
  have hnext := Nat.lt_floor_add_one (v + 1 / 2)
  constructor <;> linarith

end Approximates

end MidiRig.Binary64
