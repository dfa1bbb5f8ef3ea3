import Mathlib.Data.Rat.Floor
import MidiRig.Proofs.Number.Modulo

/-!
# Doubles and whole numbers

Rounding a double up or down is rounding the number that it is, so a whole number of 64 bits lies
above a double just when it lies above its ceiling (`Has.ceilInt64_le_iff`). The other way round a
whole number becomes the double nearest to it (`has_ofInt_nearest`), which is the number itself
where doubles have enough places; and those that have too many places for a double are not mixed up
with it (`nearest_intCast_eq_iff`).
-/

namespace MidiRig.Binary64

variable {x : Float} {v : ℚ} {c d : ℤ}

/-! ## Rounding up and down -/

/-- A whole number divided by a power of two. -/
theorem mul_zpow_of_neg (m : ℕ) {q : ℤ} (hq : ¬ 0 ≤ q) :
    (m : ℚ) * 2 ^ q = (m : ℚ) / (Nat.pow 2 (-q).toNat : ℕ) := by
  obtain ⟨n, rfl⟩ : ∃ n : ℕ, q = -(n : ℤ) := ⟨(-q).toNat, by omega⟩
  have hpow : ((Nat.pow 2 n : ℕ) : ℚ) = 2 ^ n := Nat.cast_pow 2 n
  rw [neg_neg, Int.toNat_natCast, hpow, zpow_neg, zpow_natCast, div_eq_mul_inv]

theorem mul_zpow_of_nonneg (m : ℕ) {q : ℤ} (hq : 0 ≤ q) :
    (m : ℚ) * 2 ^ q = ((m * Nat.pow 2 q.toNat : ℕ) : ℤ) := by
  obtain ⟨n, rfl⟩ := Int.eq_ofNat_of_zero_le hq
  have hpow : ((Nat.pow 2 n : ℕ) : ℚ) = 2 ^ n := Nat.cast_pow 2 n
  rw [Int.toNat_natCast, zpow_natCast, Int.cast_natCast, Nat.cast_mul, hpow]

theorem floorMag_eq (m : ℕ) (q : ℤ) : (floorMag m q : ℤ) = ⌊(m : ℚ) * 2 ^ q⌋ := by
  unfold floorMag
  split
  · next hq => rw [mul_zpow_of_nonneg m hq, Int.floor_intCast]
  · next hq =>
    rw [mul_zpow_of_neg m hq, Rat.floor_natCast_div_natCast]
    rfl

theorem ceil_natCast_div (m : ℕ) {u : ℕ} (hu : 0 < u) :
    (((m + (u - 1)) / u : ℕ) : ℤ) = ⌈(m : ℚ) / u⌉ := by
  have hu' : (0 : ℚ) < u := by exact_mod_cast hu
  have hle : (m + (u - 1)) / u * u ≤ m + (u - 1) := Nat.div_mul_le_self _ _
  have hlt : m ≤ (m + (u - 1)) / u * u := by
    have := Nat.lt_div_mul_add (a := m + (u - 1)) hu
    omega
  refine (Int.ceil_eq_iff.mpr ⟨?_, ?_⟩).symm
  · rw [lt_div_iff₀ hu', sub_mul, one_mul, sub_lt_iff_lt_add, Int.cast_natCast]
    have hbelow : (m + (u - 1)) / u * u < m + u := by omega
    exact_mod_cast hbelow
  · rw [div_le_iff₀ hu', Int.cast_natCast]
    exact_mod_cast hlt

theorem ceilMag_eq (m : ℕ) (q : ℤ) : (ceilMag m q : ℤ) = ⌈(m : ℚ) * 2 ^ q⌉ := by
  unfold ceilMag
  split
  · next hq => rw [mul_zpow_of_nonneg m hq, Int.ceil_intCast]
  · next hq =>
    rw [mul_zpow_of_neg m hq]
    exact ceil_natCast_div m (Nat.pow_pos (by norm_num))

theorem floorInt_eq (negative : Bool) (m : ℕ) (q : ℤ) :
    floorInt negative m q = ⌊withSign (signOf negative) (m * 2 ^ q)⌋ := by
  cases negative
  · exact floorMag_eq m q
  · show -(ceilMag m q : ℤ) = ⌊-((m : ℚ) * 2 ^ q)⌋
    rw [Int.floor_neg, ceilMag_eq]

theorem ceilInt_eq (negative : Bool) (m : ℕ) (q : ℤ) :
    ceilInt negative m q = ⌈withSign (signOf negative) (m * 2 ^ q)⌉ := by
  cases negative
  · exact ceilMag_eq m q
  · show -(floorMag m q : ℤ) = ⌈-((m : ℚ) * 2 ^ q)⌉
    rw [Int.ceil_neg, floorMag_eq]

theorem Has.le_floorInt64_iff (h : Has x v) (hlo : minInt64 < c) (hhi : c ≤ maxInt64) :
    c ≤ floorInt64 x ↔ (c : ℚ) ≤ v := by
  obtain ⟨negative, m, q, hparts, rfl⟩ := h.parts
  unfold floorInt64 toIntWith
  rw [hparts, ← Int.le_floor, ← floorInt_eq]
  simp only [le_max_iff, le_min_iff, hhi, not_le.mpr hlo, true_and, false_or]

theorem Has.ceilInt64_le_iff (h : Has x v) (hlo : minInt64 ≤ c) (hhi : c < maxInt64) :
    ceilInt64 x ≤ c ↔ v ≤ c := by
  obtain ⟨negative, m, q, hparts, rfl⟩ := h.parts
  unfold ceilInt64 toIntWith
  rw [hparts, ← Int.ceil_le, ← ceilInt_eq]
  simp only [max_le_iff, min_le_iff, hlo, not_le.mpr hhi, true_and, false_or]

theorem toIntWith_le (f : Bool → ℕ → ℤ → ℤ) {lo hi : ℤ} (hlo : lo ≤ hi) (hhi : 0 ≤ hi)
    (x : Float) : toIntWith f lo hi x ≤ hi := by
  unfold toIntWith
  split
  · exact hhi
  · exact hlo
  · exact le_rfl
  · exact max_le hlo (min_le_left _ _)

theorem le_toIntWith (f : Bool → ℕ → ℤ → ℤ) {lo hi : ℤ} (hlo : lo ≤ hi) (hzero : lo ≤ 0)
    (x : Float) : lo ≤ toIntWith f lo hi x := by
  unfold toIntWith
  split
  · exact hzero
  · exact le_rfl
  · exact hlo
  · exact le_max_left _ _

/-! ## Doubles that are whole numbers -/

theorem wholeMag_iff (m : ℕ) (q : ℤ) : wholeMag m q = true ↔ ∃ n : ℕ, (m : ℚ) * 2 ^ q = n := by
  unfold wholeMag
  by_cases hq : 0 ≤ q
  · simp only [hq, decide_true, Bool.true_or, true_iff]
    exact ⟨m * Nat.pow 2 q.toNat, by rw [mul_zpow_of_nonneg m hq, Int.cast_natCast]⟩
  · have hunit : ((Nat.pow 2 (-q).toNat : ℕ) : ℚ) ≠ 0 := by
      exact_mod_cast (Nat.pow_pos (by norm_num) : 0 < Nat.pow 2 (-q).toNat).ne'
    simp only [hq, decide_false, Bool.false_or, beq_iff_eq, mul_zpow_of_neg m hq]
    rw [← Nat.dvd_iff_mod_eq_zero]
    constructor
    · rintro ⟨n, hn⟩
      refine ⟨n, ?_⟩
      rw [hn, Nat.cast_mul, mul_div_cancel_left₀ _ hunit]
    · rintro ⟨n, hn⟩
      refine ⟨n, ?_⟩
      rw [div_eq_iff hunit] at hn
      rw [mul_comm]
      exact_mod_cast hn

theorem isWhole_iff : isWhole x = true ↔ ∃ c : ℤ, Has x c := by
  constructor
  · intro h
    unfold isWhole at h
    split at h
    · next negative m q hparts =>
      obtain ⟨n, hn⟩ := (wholeMag_iff m q).mp h
      have hvalue := Has.of_parts hparts
      rw [hn] at hvalue
      cases negative with
      | false => exact ⟨n, by rwa [Int.cast_natCast]⟩
      | true => exact ⟨-n, by rwa [Int.cast_neg, Int.cast_natCast]⟩
    · cases h
  · rintro ⟨c, h⟩
    obtain ⟨negative, m, q, hparts, hvalue⟩ := h.parts
    unfold isWhole
    rw [hparts]
    refine (wholeMag_iff m q).mpr ⟨c.natAbs, ?_⟩
    rw [Nat.cast_natAbs, Int.cast_abs, hvalue, abs_withSign _ (by positivity)]

/-- A double that is a whole number of the range becomes that number. -/
theorem Has.toIntWith_eq {lo hi : ℤ} (h : Has x c) (hlo : lo ≤ c) (hhi : c ≤ hi) :
    toIntWith truncInt lo hi x = c := by
  obtain ⟨negative, m, q, hparts, hvalue⟩ := h.parts
  have hmagnitude : (m : ℚ) * 2 ^ q = (|c| : ℤ) := by
    rw [Int.cast_abs, hvalue, abs_withSign _ (by positivity)]
  have hfloor : (floorMag m q : ℤ) = |c| := by rw [floorMag_eq, hmagnitude, Int.floor_intCast]
  have htrunc : truncInt negative m q = c := by
    rw [hmagnitude] at hvalue
    cases negative with
    | false =>
      have hc : (c : ℚ) = (|c| : ℤ) := hvalue
      exact hfloor.trans (by exact_mod_cast hc.symm)
    | true =>
      have hc : (c : ℚ) = -(|c| : ℤ) := hvalue
      exact (congrArg Neg.neg hfloor).trans (by exact_mod_cast hc.symm)
  unfold toIntWith
  rw [hparts]
  simp only [htrunc, min_eq_right hhi, max_eq_right hlo]

theorem Has.toInt64_eq (h : Has x c) (hlo : minInt64 ≤ c) (hhi : c ≤ maxInt64) : toInt64 x = c :=
  h.toIntWith_eq hlo hhi

theorem Has.toInt32_eq (h : Has x c) (hlo : minInt32 ≤ c) (hhi : c ≤ maxInt32) : toInt32 x = c :=
  h.toIntWith_eq hlo hhi

/-! ## Whole numbers as doubles -/

theorem has_ofInt_nearest (h : |nearest c| < beyond) : Has (Float.ofInt c) (nearest c) := by
  cases c with
  | ofNat n => exact has_ofNat h
  | negSucc n =>
    have hvalue : nearest (Int.negSucc n : ℚ) = -nearest ((n + 1 : ℕ) : ℚ) := by
      rw [← nearest_neg]
      push_cast [Int.negSucc_eq]
      rfl
    rw [hvalue, abs_neg] at h
    rw [hvalue]
    exact (has_ofNat h).neg

theorem nearest_intCast (hc : |c| < 2 ^ 53) : nearest c = c := by
  obtain ⟨n, rfl | rfl⟩ := c.eq_nat_or_neg
  · have hn : n < 2 ^ 53 := by simpa using hc
    exact nearest_natCast hn
  · have hn : n < 2 ^ 53 := by simpa using hc
    rw [Int.cast_neg, nearest_neg]
    exact congrArg Neg.neg (nearest_natCast hn)

theorem abs_intCast_lt_beyond {n : ℕ} (hn : n < 1024) (hc : |c| ≤ 2 ^ n) :
    |nearest c| < beyond := by
  have hle : |(c : ℚ)| ≤ 2 ^ n := by exact_mod_cast hc
  exact (abs_nearest_le hle).trans_lt (two_pow_lt_beyond hn)

/-- Whole numbers that doubles hold exactly. -/
theorem has_ofInt (hc : |c| < 2 ^ 53) : Has (Float.ofInt c) c := by
  have h := has_ofInt_nearest (abs_intCast_lt_beyond (n := 53) (by norm_num) hc.le)
  rwa [nearest_intCast hc] at h

/-- No other whole number is rounded to one that has places to spare. -/
theorem nearest_intCast_eq_iff (hc : |c| < 2 ^ 52) : nearest d = c ↔ d = c := by
  constructor
  · intro h
    rcases lt_trichotomy d c with hlt | heq | hlt
    · have hprev : nearest ((c - 1 : ℤ) : ℚ) = (c - 1 : ℤ) :=
        nearest_intCast (by rw [abs_lt] at hc ⊢; omega)
      have hle : nearest d ≤ nearest ((c - 1 : ℤ) : ℚ) :=
        nearest_mono (by exact_mod_cast Int.le_sub_one_of_lt hlt)
      rw [h, hprev] at hle
      have : c ≤ c - 1 := by exact_mod_cast hle
      omega
    · exact heq
    · have hnext : nearest ((c + 1 : ℤ) : ℚ) = (c + 1 : ℤ) :=
        nearest_intCast (by rw [abs_lt] at hc ⊢; omega)
      have hle : nearest ((c + 1 : ℤ) : ℚ) ≤ nearest d := nearest_mono (by exact_mod_cast hlt)
      rw [h, hnext] at hle
      have : c + 1 ≤ c := by exact_mod_cast hle
      omega
  · rintro rfl
    exact nearest_intCast (hc.trans (by norm_num))

/-! ## Whole numbers of 32 bits -/

/-- Whether a number fits the fields of an event. -/
def IsInt32 (c : ℤ) : Prop := minInt32 ≤ c ∧ c ≤ maxInt32

theorem IsInt32.small {c : ℤ} (h : IsInt32 c) : |c| < 2 ^ 52 := by
  have hlo : minInt32 = -2 ^ 31 := rfl
  have hhi : maxInt32 = 2 ^ 31 - 1 := rfl
  obtain ⟨h, h'⟩ := h
  rw [abs_lt]
  omega

end MidiRig.Binary64
