import MidiRig.Proofs.Number.Equal
import MidiRig.Proofs.Number.Infinite
import MidiRig.Proofs.Number.Whole

/-!
# Doubles rounded to whole numbers of 64 bits

A double that is not negative is rounded to the whole number nearest to it, a half going up, and
held below `2 ^ 64` (`Has.toWord64_round`). Infinity gives the largest of these numbers, and what is
not a number gives zero.
-/

namespace MidiRig.Binary64

open Float.Model Float.Model.UnpackedFloat

variable {x : Float} {v : ℚ}

theorem Has.toWord64_eq (h : Has x v) (hv : 0 ≤ v) : toWord64 x = min ⌊v⌋₊ maxWord64 := by
  obtain ⟨negative, m, q, hparts, hvalue⟩ := h.parts
  have htrunc : truncInt negative m q = (⌊v⌋₊ : ℤ) := by
    rw [Int.natCast_floor_eq_floor hv]
    cases negative with
    | false =>
      rw [show v = m * 2 ^ q from hvalue]
      exact floorMag_eq m q
    | true =>
      have hneg : v = -((m : ℚ) * 2 ^ q) := hvalue
      have hmag : (0 : ℚ) ≤ m * 2 ^ q := by positivity
      have hzero : (m : ℚ) * 2 ^ q = 0 := by linarith
      show -(floorMag m q : ℤ) = ⌊v⌋
      rw [hneg, floorMag_eq, hzero, neg_zero, Int.floor_zero, neg_zero]
  unfold toWord64 toIntWith
  rw [hparts]
  simp only [htrunc]
  omega

/-- A whole number plus a half is rounded down to the number. -/
theorem floor_natCast_add_half (n : ℕ) : ⌊(n : ℚ) + 1 / 2⌋₊ = n := by
  rw [Nat.floor_eq_iff (by positivity)]
  constructor <;> linarith

theorem roundMag_eq (m : ℕ) {q : ℤ} (hq : ¬ 0 ≤ q) : roundMag m q = ⌊(m : ℚ) * 2 ^ q + 1 / 2⌋₊ := by
  have hunit : 0 < Nat.pow 2 (-q).toNat := Nat.pow_pos (by norm_num)
  unfold roundMag
  simp only [if_neg hq]
  rw [mul_zpow_of_neg m hq, ← Nat.floor_div_eq_div (K := ℚ)]
  congr 1
  push_cast
  field_simp

theorem Has.round_eq (h : Has x v) (hv : 0 ≤ v) : Has (round x) (⌊v + 1 / 2⌋₊ : ℕ) := by
  obtain ⟨negative, m, q, hparts, hvalue⟩ := h.parts
  have hmag : v = (m : ℚ) * 2 ^ q := by
    rw [← abs_of_nonneg hv, hvalue, abs_withSign _ (by positivity)]
  unfold Binary64.round
  rw [hparts]
  simp only
  split
  · next hq =>
    rw [mul_zpow_of_nonneg m hq, Int.cast_natCast] at hmag
    rw [hmag] at h ⊢
    rwa [floor_natCast_add_half]
  · next hq =>
    have hplaces : ⌊v + 1 / 2⌋₊ < 2 ^ 53 := by
      refine lt_of_le_of_lt ?_ (canonical_parts hparts).1.places
      rw [← floor_natCast_add_half m, hmag]
      have hunit : (2 : ℚ) ^ q ≤ 1 := zpow_le_one_of_nonpos₀ (by norm_num) (by omega)
      have hle : (m : ℚ) * 2 ^ q ≤ m := mul_le_of_le_one_right (Nat.cast_nonneg m) hunit
      exact Nat.floor_mono (by linarith)
    have hexact : nearest ((⌊v + 1 / 2⌋₊ : ℕ) * 2 ^ (0 : ℤ)) = (⌊v + 1 / 2⌋₊ : ℕ) := by
      rw [zpow_zero, mul_one, nearest_natCast hplaces]
    have hround := has_ofDyadic negative (m := ⌊v + 1 / 2⌋₊) (e := 0) (by norm_num)
      (hexact.symm ▸ natCast_lt_beyond hplaces)
    rw [hexact] at hround
    rw [roundMag_eq m hq, ← hmag]
    cases negative with
    | false => exact hround
    | true =>
      -- only zero has a sign here
      have hzero : v = 0 := by
        have hneg : v = -((m : ℚ) * 2 ^ q) := hvalue
        linarith
      have hfloor : ⌊(0 : ℚ) + 1 / 2⌋₊ = 0 := floor_natCast_add_half 0
      rw [hzero, hfloor] at hround ⊢
      simpa [withSign, signOf] using hround

/-- A number that is not negative becomes the whole number nearest to it, a half going up. -/
theorem Has.toWord64_round (h : Has x v) (hv : 0 ≤ v) :
    toWord64 (round x) = min ⌊v + 1 / 2⌋₊ maxWord64 := by
  rw [(h.round_eq hv).toWord64_eq (Nat.cast_nonneg _), Nat.floor_natCast]

theorem IsTop.toWord64_round (h : IsTop x) : toWord64 (round x) = maxWord64 := by
  have hparts := parts_of_isTop h
  have hround : round x = x := by
    unfold Binary64.round
    rw [hparts]
  rw [hround, toWord64, toIntWith, hparts]
  rfl

theorem toWord64_round_nan (h : x.toModel.unpack = .notANumber) : toWord64 (round x) = 0 := by
  have hparts : parts x = .nan := by
    by_contra hnot
    exact isNaN_eq_false_iff.mp (isNaN_eq_false_iff_parts.mpr hnot) h
  have hround : round x = x := by
    unfold Binary64.round
    rw [hparts]
  rw [hround, toWord64, toIntWith, hparts]
  rfl

/-! ## Numbers up to a power of two -/

/-- A number that is not negative, and at most this power of two. -/
def Below (n : ℕ) (x : Float) : Prop := ∃ v, Has x v ∧ 0 ≤ v ∧ v ≤ 2 ^ n

namespace Below

variable {y : Float} {w : ℚ} {k n : ℕ}

theorem mul (hx : Below k x) (hy : Below n y) (h : k + n ≤ 1023) : Below (k + n) (x * y) := by
  obtain ⟨v, hv, hvpos, hvle⟩ := hx
  obtain ⟨w, hw, hwpos, hwle⟩ := hy
  have hpos : 0 ≤ v * w := mul_nonneg hvpos hwpos
  have hle : |v * w| ≤ 2 ^ (k + n) := by
    rw [abs_of_nonneg hpos, pow_add]
    exact mul_le_mul hvle hwle hwpos (by positivity)
  refine ⟨_, hv.mul hw (abs_nearest_lt (hle.trans ?_)), nearest_nonneg hpos, ?_⟩
  · exact pow_le_pow_right₀ (by norm_num) h
  · exact (le_abs_self _).trans (abs_nearest_le hle)

theorem div (hx : Below n x) (hy : Has y w) (hw : 1 ≤ w) (h : n ≤ 1023) : Below n (x / y) := by
  obtain ⟨v, hv, hvpos, hvle⟩ := hx
  have hpos : 0 ≤ v / w := div_nonneg hvpos (by linarith)
  have hle : |v / w| ≤ 2 ^ n := by
    rw [abs_of_nonneg hpos]
    exact (div_le_self hvpos hw).trans hvle
  refine ⟨_, hv.div hy (by linarith) (abs_nearest_lt (hle.trans ?_)), nearest_nonneg hpos, ?_⟩
  · exact pow_le_pow_right₀ (by norm_num) h
  · exact (le_abs_self _).trans (abs_nearest_le hle)

theorem toWord64_round_le (hx : Below n x) : toWord64 (round x) ≤ 2 ^ n := by
  obtain ⟨v, hv, hpos, hle⟩ := hx
  rw [hv.toWord64_round hpos]
  calc min ⌊v + 1 / 2⌋₊ maxWord64 ≤ ⌊v + 1 / 2⌋₊ := min_le_left _ _
    _ ≤ ⌊((2 ^ n : ℕ) : ℚ) + 1 / 2⌋₊ := by
      refine Nat.floor_le_floor ?_
      push_cast
      linarith
    _ = 2 ^ n := floor_natCast_add_half _

end Below

end MidiRig.Binary64
