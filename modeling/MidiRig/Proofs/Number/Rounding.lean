import Mathlib
import MidiRig.Proofs.Number.Nearest

/-!
# What the float operations round

An operation on doubles computes a mantissa with a round and a sticky bit, shifts it to its place
and rounds it. `Reads` is the exact number that such a mantissa stands for. Rounding it gives the
nearest double (`holds_roundWithAccuracy`), in the form in which doubles are kept.
-/

namespace MidiRig.Binary64

open Float.Model Float.Model.UnpackedFloat

/-! ## Mantissas with residual bits -/

/-- What an accuracy says about the part of a number below its mantissa. -/
def Fits : Accuracy → ℚ → Prop
  | .exact, x => x = 0
  | .inexact .lt, x => 0 < x ∧ x < 1 / 2
  | .inexact .eq, x => x = 1 / 2
  | .inexact .gt, x => 1 / 2 < x ∧ x < 1

theorem Fits.nonneg {a : Accuracy} {x : ℚ} (h : Fits a x) : 0 ≤ x := by
  rcases a with _ | _ | _ | _ <;> simp only [Fits] at h <;> linarith

theorem Fits.lt_one {a : Accuracy} {x : ℚ} (h : Fits a x) : x < 1 := by
  rcases a with _ | _ | _ | _ <;> simp only [Fits] at h <;> linarith

/-- The number that a mantissa with its residual bits stands for. -/
def Reads (em : ExtendedMantissa) (x : ℚ) : Prop := Fits em.accuracy (x - em.mantissa)

namespace Reads

variable {em : ExtendedMantissa} {x : ℚ}

theorem of_fits {a : Accuracy} {m : ℕ} (h : Fits a (x - m)) :
    Reads (.ofMantissaAndAccuracy m a) x := by
  rcases a with _ | _ | _ | _ <;> exact h

theorem floor (h : Reads em x) : ⌊x⌋₊ = em.mantissa := by
  have hnonneg := Fits.nonneg h
  have hlt := Fits.lt_one h
  have hmantissa : (0 : ℚ) ≤ em.mantissa := Nat.cast_nonneg _
  refine (Nat.floor_eq_iff (by linarith)).mpr ⟨?_, ?_⟩
  · linarith
  · linarith

theorem roundedMantissa (h : Reads em x) : em.roundedMantissa = toEven x := by
  unfold toEven
  rw [h.floor]
  obtain ⟨m, round, sticky⟩ := em
  unfold Reads at h
  cases round <;> cases sticky <;>
    simp only [ExtendedMantissa.accuracy, ExtendedMantissa.roundedMantissa,
      Accuracy.roundToNearestEven, Fits] at h ⊢
  · rw [if_pos (by linarith)]
  · rw [if_pos h.2]
  · rw [if_neg (by linarith), if_neg (by linarith)]
  · rw [if_neg (by linarith), if_pos h.1]

/-- The last place becomes the round bit, and the bits below it are joined. -/
theorem shiftRightOne (h : Reads em x) : Reads em.shiftRightOne (x / 2) := by
  obtain ⟨m, round, sticky⟩ := em
  have hm : ((m % 2 : ℕ) : ℚ) + 2 * ((m / 2 : ℕ) : ℚ) = m := by
    exact_mod_cast Nat.mod_add_div m 2
  unfold Reads at h ⊢
  unfold ExtendedMantissa.shiftRightOne
  rcases Nat.mod_two_eq_zero_or_one m with hlast | hlast <;> rw [hlast] at hm ⊢ <;>
    cases round <;> cases sticky <;>
    simp only [ExtendedMantissa.accuracy, Fits, Nat.cast_zero, Nat.cast_one, bne_self_eq_false,
      Nat.reduceBneDiff, Bool.or_false, Bool.or_true, Bool.or_self] at h hm ⊢ <;>
    first
      | linarith
      | exact ⟨by linarith, by linarith⟩

theorem shiftRight (h : Reads em x) (n : ℕ) : Reads (em >>> n) (x / 2 ^ n) := by
  induction n with
  | zero => exact (pow_zero (2 : ℚ)).symm ▸ (div_one x).symm ▸ h
  | succ n ih =>
    have hnext := ih.shiftRightOne
    rw [div_div, ← pow_succ] at hnext
    exact hnext

end Reads

/-! ## The place of a mantissa -/

theorem targetExponent_eq (e : ℤ) : Format.binary64.targetExponent e = max (e - 53) (-1074) := rfl

theorem log_eq {q : ℚ} {k : ℤ} (hq : 0 < q) (hlo : 2 ^ k ≤ q) (hhi : q < 2 ^ (k + 1)) :
    Int.log 2 q = k := by
  have hlog : (2 : ℚ) ^ Int.log 2 q ≤ q := by
    exact_mod_cast Int.zpow_log_le_self (b := 2) (by norm_num) hq
  have hlog' : q < (2 : ℚ) ^ (Int.log 2 q + 1) := by
    exact_mod_cast Int.lt_zpow_succ_log_self (b := 2) (by norm_num) q
  have hone : (1 : ℚ) < 2 := by norm_num
  have h := (zpow_lt_zpow_iff_right₀ hone).mp (hlog.trans_lt hhi)
  have h' := (zpow_lt_zpow_iff_right₀ hone).mp (hlo.trans_lt hlog')
  omega

/-- The place of a number can be told from the leading bit of a mantissa. -/
theorem targetExponent_of_pos {q : ℚ} {m : ℕ} {e : ℤ} (hm : ⌊q / 2 ^ e⌋₊ = m) (hpos : 0 < m) :
    Format.binary64.targetExponent (totalExponent m e) = place q := by
  have hpow : (0 : ℚ) < 2 ^ e := by positivity
  obtain ⟨hle, hlt⟩ := (Nat.floor_eq_iff' hpos.ne').mp hm
  have hone : (1 : ℚ) ≤ m := by exact_mod_cast hpos
  have hq : 0 < q := by
    have := (le_div_iff₀ hpow).mp (hone.trans hle)
    linarith
  have hlog : Int.log 2 q = m.log2 + e := by
    refine log_eq hq ?_ ?_
    · rw [zpow_add₀ (by norm_num), zpow_natCast, ← le_div_iff₀ hpow]
      refine le_trans ?_ hle
      exact_mod_cast Nat.log2_self_le hpos.ne'
    · rw [show (m.log2 : ℤ) + e + 1 = ((m.log2 + 1 : ℕ) : ℤ) + e by push_cast; ring,
        zpow_add₀ (by norm_num), zpow_natCast, ← div_lt_iff₀ hpow]
      refine lt_of_lt_of_le hlt ?_
      exact_mod_cast Nat.lt_log2_self (n := m)
  rw [targetExponent_eq, totalExponent, place, hlog]
  congr 1
  omega

/-- A mantissa may be zero, if it goes as far as the place of the number. -/
theorem targetExponent_of_le {q : ℚ} (hq : 0 < q) {m : ℕ} {e : ℤ} (hm : ⌊q / 2 ^ e⌋₊ = m)
    (he : e ≤ place q) : Format.binary64.targetExponent (totalExponent m e) = place q := by
  rcases Nat.eq_zero_or_pos m with rfl | hpos
  · -- less than one unit of the mantissa, so there is no place but the least one
    have hlt : q < 2 ^ e := by
      have := Nat.floor_eq_zero.mp hm
      rwa [div_lt_one (by positivity)] at this
    have hlog : Int.log 2 q < e := by
      refine (zpow_lt_zpow_iff_right₀ (by norm_num : (1 : ℚ) < 2)).mp (lt_of_le_of_lt ?_ hlt)
      exact_mod_cast Int.zpow_log_le_self (b := 2) (by norm_num) hq
    rw [targetExponent_eq, totalExponent]
    unfold place at he ⊢
    simp only [Nat.log2_zero]
    omega
  · exact targetExponent_of_pos hm hpos

/-! ## Rounding -/

def withSign : Sign → ℚ → ℚ
  | .negative, q => -q
  | .positive, q => q

/-- The number that an unpacked double is, if it is one. -/
def Holds : UnpackedFloat → ℚ → Prop
  | .zero _, v => v = 0
  | .finite s m e _, v => Canonical m e ∧ v = withSign s (m * 2 ^ e)
  | .infinity _, _ | .notANumber, _ => False

/-- Rounding may carry into a new place, and the mantissa is shifted once more. -/
theorem shift_carried {r : ℕ} {e : ℤ} (hr : r ≤ 2 ^ 53) (he : -1074 ≤ e)
    (hfull : e = -1074 ∨ 2 ^ 52 ≤ r) :
    ∃ m k, shiftToTargetExponent Format.binary64 r e .exact = (⟨m, false, false⟩, k) ∧
      (r : ℚ) * 2 ^ e = m * 2 ^ k ∧ (m ≠ 0 → Canonical m k) := by
  rcases hr.lt_or_eq with hlt | rfl
  · have hlog : r.log2 ≤ 52 := by
      rcases Nat.eq_zero_or_pos r with rfl | hpos
      · simp
      · have := (Nat.log2_lt hpos.ne').mpr hlt
        omega
    have hshift : (Format.binary64.targetExponent (totalExponent r e) - e).toNat = 0 := by
      rw [targetExponent_eq, totalExponent]
      omega
    refine ⟨r, e, ?_, rfl, fun _ => ⟨hlt, he, hfull.symm⟩⟩
    unfold shiftToTargetExponent shiftToExponent
    simp only [hshift]
    exact Prod.ext rfl (add_zero e)
  · have hshift : (Format.binary64.targetExponent (totalExponent (2 ^ 53) e) - e).toNat = 1 := by
      rw [targetExponent_eq, totalExponent, Nat.log2_two_pow]
      omega
    refine ⟨2 ^ 52, e + 1, ?_, ?_, fun _ => ⟨by norm_num, by omega, .inl le_rfl⟩⟩
    · unfold shiftToTargetExponent shiftToExponent
      simp only [hshift]
      rfl
    · rw [zpow_add_one₀ (by norm_num)]
      push_cast
      ring

/-- Rounding a number of which the mantissa and the accuracy are known gives the nearest double. -/
theorem holds_roundWithAccuracy (s : Sign) {q : ℚ} (hq : 0 < q) {m : ℕ} {e : ℤ} {a : Accuracy}
    (hfits : Fits a (q / 2 ^ e - m)) (he : e ≤ place q) :
    Holds (roundWithAccuracy Format.binary64 s m e a) (withSign s (nearestMag q)) := by
  have hreads := Reads.of_fits hfits
  have hm : ⌊q / 2 ^ e⌋₊ = m := by
    refine (Nat.floor_eq_iff (by positivity)).mpr ⟨?_, ?_⟩
    · linarith [hfits.nonneg]
    · linarith [hfits.lt_one]
  -- the first shift goes to the place, and rounds there
  obtain ⟨n, hn⟩ := Int.eq_ofNat_of_zero_le (sub_nonneg.mpr he)
  have hplace : e + n = place q := by omega
  have hfirst : shiftToTargetExponent Format.binary64 m e a =
      (ExtendedMantissa.ofMantissaAndAccuracy m a >>> n, place q) := by
    unfold shiftToTargetExponent shiftToExponent
    simp only [targetExponent_of_le hq hm he, hn, Int.toNat_natCast, hplace]
  have hrounded : (ExtendedMantissa.ofMantissaAndAccuracy m a >>> n).roundedMantissa =
      toEven (q / 2 ^ place q) := by
    rw [(hreads.shiftRight n).roundedMantissa, ← hplace, zpow_add₀ (by norm_num), zpow_natCast,
      div_div]
  -- the second one only carries
  have hleast : -1074 ≤ place q := le_max_right _ _
  obtain ⟨k, l, hsecond, hvalue, hcanonical⟩ := shift_carried (toEven_place_le hq) hleast
    (le_toEven_place hq)
  unfold roundWithAccuracy
  rw [hfirst]
  simp only [hrounded, hsecond]
  have hnearest : nearestMag q = k * 2 ^ l := hvalue
  split
  · next hzero =>
    have hnone : nearestMag q = 0 := by rw [hnearest, hzero]; simp
    rw [hnone]
    cases s <;> simp [Holds, withSign]
  · next hpos => exact ⟨hcanonical hpos, by rw [hnearest]⟩

end MidiRig.Binary64
