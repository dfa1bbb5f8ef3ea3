import MidiRig.Proofs.Number.Reading

/-!
# Remainders of doubles

The remainder of two doubles is a double, so nothing is rounded (`Has.remainder`). Moving it up by
the divisor rounds, but no farther than the divisor (`Has.modulo_mem`).
-/

namespace MidiRig.Binary64

variable {x y : Float} {p q : ℚ}

theorem Has.parts (h : Has x p) : ∃ negative m e, parts x = .finite negative m e ∧
    p = withSign (signOf negative) (m * 2 ^ e) := by
  cases hparts : Binary64.parts x with
  | finite negative m e => exact ⟨negative, m, e, rfl, h.unique (.of_parts hparts)⟩
  | nan | infinite =>
    have h := h.holds
    rw [unpack_eq_parts, hparts] at h
    exact h.elim

theorem isFinite_iff : isFinite x = true ↔ ∃ p, Has x p := by
  constructor
  · intro h
    unfold isFinite at h
    split at h
    · next hparts => exact ⟨_, .of_parts hparts⟩
    · cases h
  · rintro ⟨p, h⟩
    obtain ⟨negative, m, e, hparts, -⟩ := h.parts
    unfold isFinite
    rw [hparts]

theorem has_ofDyadic (negative : Bool) {m : ℕ} {e : ℤ} (he : -2048 ≤ e)
    (h : |nearest (m * 2 ^ e)| < beyond) :
    Has (ofDyadic negative m e) (withSign (signOf negative) (nearest (m * 2 ^ e))) := by
  unfold ofDyadic
  have hmagnitude : Has (if 0 ≤ e then Float.ofNat (m * Nat.pow 2 e.toNat)
      else Float.ofScientific (m * Nat.pow 5 (-e).toNat) true (-e).toNat)
      (nearest (m * 2 ^ e)) := by
    split
    · next hsign =>
      obtain ⟨n, rfl⟩ := Int.eq_ofNat_of_zero_le hsign
      have hvalue : ((m * Nat.pow 2 n : ℕ) : ℚ) = m * 2 ^ (n : ℤ) := by
        rw [zpow_natCast, Nat.cast_mul]
        exact congrArg _ (Nat.cast_pow 2 n)
      rw [Int.toNat_natCast, ← hvalue]
      exact has_ofNat (hvalue.symm ▸ h)
    · obtain ⟨n, hn⟩ : ∃ n : ℕ, e = -(n : ℤ) := ⟨(-e).toNat, by omega⟩
      have hvalue : decimal (m * Nat.pow 5 n) true n = m * 2 ^ e := by
        have hfive : ((Nat.pow 5 n : ℕ) : ℚ) = 5 ^ n := Nat.cast_pow 5 n
        rw [hn, decimal, if_pos rfl, Nat.cast_mul, hfive, zpow_neg, zpow_natCast,
          show (10 : ℚ) = 5 * 2 by norm_num, mul_pow]
        field_simp
      rw [show (-e).toNat = n by omega, ← hvalue]
      exact has_ofScientific (by omega) (hvalue.symm ▸ h)
  cases negative
  · exact hmagnitude
  · exact hmagnitude.neg

/-! ## The remainder -/

theorem mul_two_pow (m : ℕ) {e j : ℤ} (hj : j ≤ e) :
    ((m * Nat.pow 2 (e - j).toNat : ℕ) : ℚ) * 2 ^ j = m * 2 ^ e := by
  obtain ⟨n, rfl⟩ : ∃ n : ℕ, e = j + n := ⟨(e - j).toNat, by omega⟩
  have hpow : ((Nat.pow 2 n : ℕ) : ℚ) = 2 ^ n := Nat.cast_pow 2 n
  rw [add_sub_cancel_left, Int.toNat_natCast, Nat.cast_mul, hpow, zpow_add₀ (by norm_num),
    zpow_natCast]
  ring

theorem Has.remainder (hx : Has x p) (hy : Has y q) (hq : q ≠ 0) :
    ∃ r, Has (remainder x y) r ∧ |r| < |q| ∧ (|p| < |q| → r = p) := by
  obtain ⟨negative, m, e, hpx, rfl⟩ := hx.parts
  obtain ⟨negative', n, k, hpy, rfl⟩ := hy.parts
  obtain ⟨⟨hm, he, -⟩, -⟩ := canonical_parts hpx
  obtain ⟨⟨hn, hk, -⟩, -⟩ := canonical_parts hpy
  have hnpos : 0 < n := by
    refine Nat.pos_of_ne_zero ?_
    rintro rfl
    cases negative' <;> simp [withSign, signOf] at hq
  unfold Binary64.remainder
  rw [hpx, hpy]
  simp only [if_neg hnpos.ne']
  generalize hj : min e k = j
  generalize ha : m * Nat.pow 2 (e - j).toNat = a
  generalize hb : n * Nat.pow 2 (k - j).toNat = b
  have hbpos : 0 < b := hb ▸ Nat.mul_pos hnpos (Nat.pow_pos (by norm_num))
  have hvaluea : (a : ℚ) * 2 ^ j = m * 2 ^ e := ha ▸ mul_two_pow m (by omega)
  have hvalueb : (b : ℚ) * 2 ^ j = n * 2 ^ k := hb ▸ mul_two_pow n (by omega)
  -- one of the two numbers keeps its mantissa, and bounds the remainder
  have hplaces : a % b < 2 ^ 53 := by
    rcases min_choice e k with hmin | hmin
    · have : a = m := by rw [← ha, show (e - j).toNat = 0 by omega]; exact mul_one m
      exact (Nat.mod_le a b).trans_lt (this ▸ hm)
    · have : b = n := by rw [← hb, show (k - j).toNat = 0 by omega]; exact mul_one n
      exact (Nat.mod_lt a hbpos).trans (this ▸ hn)
  have hrest : (0 : ℚ) ≤ (a % b : ℕ) * 2 ^ j := by positivity
  have hdivisor : (0 : ℚ) ≤ n * 2 ^ k := by positivity
  have hexact : nearest ((a % b : ℕ) * 2 ^ j) = (a % b : ℕ) * 2 ^ j :=
    nearest_of_places hplaces (by omega)
  have hle : ((a % b : ℕ) : ℚ) * 2 ^ j ≤ |withSign (signOf negative) (m * 2 ^ e)| := by
    rw [abs_withSign _ (by positivity), ← hvaluea]
    gcongr
    exact Nat.mod_le a b
  have hfits : |nearest ((a % b : ℕ) * 2 ^ j)| < beyond := by
    rw [hexact, abs_of_nonneg hrest]
    exact hle.trans_lt hx.lt_beyond
  refine ⟨_, has_ofDyadic negative (by omega) hfits, ?_, fun hlt => ?_⟩
  · rw [hexact, abs_withSign _ hrest, abs_withSign _ hdivisor, ← hvalueb]
    gcongr
    exact Nat.mod_lt a hbpos
  · rw [abs_withSign _ (by positivity), abs_withSign _ hdivisor, ← hvaluea, ← hvalueb] at hlt
    have hless : a < b := by exact_mod_cast lt_of_mul_lt_mul_right hlt (by positivity)
    rw [hexact, Nat.mod_eq_of_lt hless, hvaluea]

/-- The remainder moved up lies between zero and the divisor. -/
theorem Has.modulo_mem (hx : Has x p) (hy : Has y q) (hq : q ≠ 0) :
    ∃ v, Has (modulo x y) v ∧ 0 ≤ v ∧ v ≤ |q| := by
  obtain ⟨r, hr, hlt, -⟩ := hx.remainder hy hq
  have hbounds := abs_lt.mp hlt
  unfold modulo
  simp only [hr.lt_iff has_zero]
  split
  · next hneg =>
    have hle : nearest (r + |q|) ≤ |q| := by
      rw [← hy.abs.nearest_eq]
      exact nearest_mono (by linarith [hy.abs.nearest_eq])
    have hnonneg : 0 ≤ nearest (r + |q|) := nearest_nonneg (by linarith)
    refine ⟨_, hr.add hy.abs ?_, hnonneg, hle⟩
    rw [abs_of_nonneg hnonneg]
    exact hle.trans_lt hy.lt_beyond
  · next hneg => exact ⟨r, hr, not_lt.mp hneg, hbounds.2.le⟩

end MidiRig.Binary64
