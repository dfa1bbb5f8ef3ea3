import Mathlib.Algebra.Order.Field.Power
import Mathlib.Data.Int.Log
import Mathlib.Data.Rat.Floor
import Mathlib.Tactic.Linarith
import Mathlib.Tactic.Positivity
import Mathlib.Tactic.Push

/-!
# The nearest double

Doubles are the multiples of a power of two that have at most 53 binary places, where the power is
not less than `2 ^ -1074`. `nearest` is the multiple of the last place that is nearest to a number,
and of two that are equally near the even one. It keeps the order (`nearest_mono`) and leaves
doubles alone (`nearest_of_canonical`). Overflow is not its concern: the exponent has no end.
-/

namespace MidiRig.Binary64

/-! ## Whole numbers -/

/-- The nearest whole number to one that is not negative; halfway, the even one. -/
def toEven (q : ℚ) : ℕ :=
  if q - ⌊q⌋₊ < 1 / 2 then ⌊q⌋₊
  else if 1 / 2 < q - ⌊q⌋₊ then ⌊q⌋₊ + 1
  else ⌊q⌋₊ + ⌊q⌋₊ % 2

theorem toEven_natCast (n : ℕ) : toEven n = n := by
  simp [toEven]

theorem floor_le_toEven (q : ℚ) : ⌊q⌋₊ ≤ toEven q := by
  unfold toEven
  split_ifs <;> omega

theorem toEven_le_succ (q : ℚ) : toEven q ≤ ⌊q⌋₊ + 1 := by
  unfold toEven
  split_ifs <;> omega

theorem toEven_of_lt_half {q : ℚ} (h : q < 1 / 2) : toEven q = 0 := by
  have hfloor : ⌊q⌋₊ = 0 := Nat.floor_eq_zero.mpr (by linarith)
  rw [toEven, hfloor, Nat.cast_zero, sub_zero, if_pos h]

theorem toEven_mono {p q : ℚ} (h : p ≤ q) : toEven p ≤ toEven q := by
  have hfloor : ⌊p⌋₊ ≤ ⌊q⌋₊ := Nat.floor_mono h
  rcases Nat.lt_or_eq_of_le hfloor with hlt | heq
  · exact (toEven_le_succ p).trans (Nat.succ_le_of_lt hlt |>.trans (floor_le_toEven q))
  · -- within one unit the later number is not rounded down before the earlier one
    unfold toEven
    rw [heq]
    split_ifs <;> first | omega | (exfalso; linarith)

theorem abs_toEven_sub_le {q : ℚ} (hq : 0 ≤ q) : |toEven q - q| ≤ 1 / 2 := by
  have hlo : (⌊q⌋₊ : ℚ) ≤ q := Nat.floor_le hq
  have hhi : q < ⌊q⌋₊ + 1 := Nat.lt_floor_add_one q
  have hparity : ((⌊q⌋₊ % 2 : ℕ) : ℚ) = 0 ∨ ((⌊q⌋₊ % 2 : ℕ) : ℚ) = 1 := by
    rcases Nat.mod_two_eq_zero_or_one ⌊q⌋₊ with h | h <;> simp [h]
  unfold toEven
  rw [abs_le]
  split_ifs with hbelow habove
  · constructor <;> linarith
  · push_cast
    constructor <;> linarith
  · push_cast
    rcases hparity with h | h <;> rw [h] <;> constructor <;> linarith

/-! ## Places -/

/-- Exponent of the last place of a double of this size. -/
def place (q : ℚ) : ℤ := max (Int.log 2 q - 52) (-1074)

theorem place_mono {p q : ℚ} (hp : 0 < p) (h : p ≤ q) : place p ≤ place q := by
  have := Int.log_mono_right (b := 2) hp h
  unfold place
  omega

/-- What lies at or above a power of two does so by at least 52 places, or the last place is the
least one there is. -/
theorem place_spec {q : ℚ} (hq : 0 < q) :
    q < 2 ^ (place q + 53) ∧ (place q = -1074 ∨ 2 ^ (place q + 52) ≤ q) := by
  have hlo : (2 : ℚ) ^ Int.log 2 q ≤ q := by
    exact_mod_cast Int.zpow_log_le_self (b := 2) (by norm_num) hq
  have hhi : q < (2 : ℚ) ^ (Int.log 2 q + 1) := by
    exact_mod_cast Int.lt_zpow_succ_log_self (b := 2) (by norm_num) q
  refine ⟨hhi.trans_le (zpow_le_zpow_right₀ (by norm_num) (by unfold place; omega)), ?_⟩
  rcases le_total (Int.log 2 q - 52) (-1074) with h | h
  · exact .inl (max_eq_right h)
  · refine .inr ?_
    rw [show place q = Int.log 2 q - 52 from max_eq_left h]
    simpa using hlo

/-! ## Magnitudes -/

/-- The double nearest to a number that is not negative. -/
def nearestMag (q : ℚ) : ℚ := toEven (q / 2 ^ place q) * 2 ^ place q

theorem nearestMag_zero : nearestMag 0 = 0 := by
  simp [nearestMag, toEven]

theorem nearestMag_nonneg (q : ℚ) : 0 ≤ nearestMag q := by
  unfold nearestMag
  positivity

/-- Less than half of the least place is nothing. -/
theorem nearestMag_of_lt {q : ℚ} (hq : 0 ≤ q) (h : q < 2 ^ (-1075 : ℤ)) : nearestMag q = 0 := by
  rcases hq.eq_or_lt with rfl | hpos
  · exact nearestMag_zero
  have hplace : place q = -1074 := by
    refine (place_spec hpos).2.resolve_right fun hle => ?_
    have hexponent : place q + 52 < -1075 :=
      (zpow_lt_zpow_iff_right₀ (by norm_num : (1 : ℚ) < 2)).mp (hle.trans_lt h)
    have : -1074 ≤ place q := le_max_right _ _
    omega
  have hhalf : q / 2 ^ place q < 1 / 2 := by
    rw [hplace, div_lt_iff₀ (by positivity)]
    calc q < 2 ^ (-1075 : ℤ) := h
      _ = 1 / 2 * 2 ^ (-1074 : ℤ) := by
        rw [show (-1075 : ℤ) = -1 + -1074 by norm_num, zpow_add₀ (by norm_num)]
        norm_num
  rw [nearestMag, toEven_of_lt_half hhalf, Nat.cast_zero, zero_mul]

/-- Rounding gives at most 53 places. -/
theorem toEven_place_le {q : ℚ} (hq : 0 < q) : toEven (q / 2 ^ place q) ≤ 2 ^ 53 := by
  have hlt : q / 2 ^ place q < 2 ^ (53 : ℕ) := by
    rw [div_lt_iff₀ (by positivity), ← zpow_natCast, ← zpow_add₀ (by norm_num)]
    simpa [add_comm] using (place_spec hq).1
  calc toEven (q / 2 ^ place q) ≤ toEven ((2 ^ 53 : ℕ) : ℚ) :=
        toEven_mono (by push_cast; exact hlt.le)
    _ = 2 ^ 53 := toEven_natCast _

/-- Rounding gives at least 53 places, unless the last place is the least one. -/
theorem le_toEven_place {q : ℚ} (hq : 0 < q) :
    place q = -1074 ∨ 2 ^ 52 ≤ toEven (q / 2 ^ place q) := by
  refine (place_spec hq).2.imp_right fun hle => ?_
  have hquotient : ((2 ^ 52 : ℕ) : ℚ) ≤ q / 2 ^ place q := by
    rw [le_div_iff₀ (by positivity), Nat.cast_pow, Nat.cast_ofNat, ← zpow_natCast,
      ← zpow_add₀ (by norm_num), add_comm]
    exact hle
  calc 2 ^ 52 = toEven ((2 ^ 52 : ℕ) : ℚ) := (toEven_natCast _).symm
    _ ≤ toEven (q / 2 ^ place q) := toEven_mono hquotient

theorem nearestMag_mono {p q : ℚ} (hp : 0 ≤ p) (h : p ≤ q) : nearestMag p ≤ nearestMag q := by
  rcases hp.eq_or_lt with rfl | hp
  · rw [nearestMag_zero]
    exact nearestMag_nonneg q
  have hq : 0 < q := hp.trans_le h
  rcases (place_mono hp h).lt_or_eq with hlt | heq
  · -- a power of two lies between them
    have hleast : place q ≠ -1074 := fun hleast => by
      have : -1074 ≤ place p := le_max_right _ _
      omega
    have hp53 : (toEven (p / 2 ^ place p) : ℚ) ≤ 2 ^ 53 := by exact_mod_cast toEven_place_le hp
    have hq52 : (2 : ℚ) ^ 52 ≤ toEven (q / 2 ^ place q) := by
      exact_mod_cast (le_toEven_place hq).resolve_left hleast
    calc nearestMag p ≤ 2 ^ 53 * 2 ^ place p := by unfold nearestMag; gcongr
      _ = 2 ^ 52 * 2 ^ (place p + 1) := by rw [zpow_add_one₀ (by norm_num)]; ring
      _ ≤ 2 ^ 52 * 2 ^ place q := by
        gcongr
        · norm_num
        · omega
      _ ≤ nearestMag q := by unfold nearestMag; gcongr
  · have hquotient : p / 2 ^ place q ≤ q / 2 ^ place q := by gcongr
    unfold nearestMag
    rw [heq]
    gcongr
    exact toEven_mono hquotient

/-- A mantissa and an exponent as they stand in a double: all 53 places are used, or the exponent is
the least one. -/
structure Canonical (m : ℕ) (e : ℤ) : Prop where
  places : m < 2 ^ 53
  least : -1074 ≤ e
  full : 2 ^ 52 ≤ m ∨ e = -1074

theorem nearestMag_of_places {m : ℕ} {e : ℤ} (hm : m < 2 ^ 53) (he : -1074 ≤ e) :
    nearestMag (m * 2 ^ e) = m * 2 ^ e := by
  rcases Nat.eq_zero_or_pos m with rfl | hpos
  · simpa using nearestMag_zero
  have hmq : (0 : ℚ) < m := by exact_mod_cast hpos
  have hq : (0 : ℚ) < m * 2 ^ e := by positivity
  -- the last place of the number is not beyond that of the mantissa
  have hplace : place (m * 2 ^ e) ≤ e := by
    refine max_le ?_ he
    have hlo : (2 : ℚ) ^ Int.log 2 ((m : ℚ) * 2 ^ e) ≤ m * 2 ^ e := by
      exact_mod_cast Int.zpow_log_le_self (b := 2) (by norm_num) hq
    have hhi : (m : ℚ) * 2 ^ e < 2 ^ (53 + e) := by
      rw [zpow_add₀ (by norm_num)]
      gcongr
      exact_mod_cast hm
    have := (zpow_lt_zpow_iff_right₀ (by norm_num : (1 : ℚ) < 2)).mp (hlo.trans_lt hhi)
    omega
  obtain ⟨k, hk⟩ := Int.eq_ofNat_of_zero_le (sub_nonneg.mpr hplace)
  have hwhole : (m : ℚ) * 2 ^ e / 2 ^ place (m * 2 ^ e) = ((m * 2 ^ k : ℕ) : ℚ) := by
    rw [mul_div_assoc, ← zpow_sub₀ (by norm_num), hk]
    push_cast
    simp
  unfold nearestMag
  rw [hwhole, toEven_natCast, ← hwhole, div_mul_cancel₀ _ (by positivity)]

theorem nearestMag_of_canonical {m : ℕ} {e : ℤ} (h : Canonical m e) :
    nearestMag (m * 2 ^ e) = m * 2 ^ e :=
  nearestMag_of_places h.places h.least

/-! ## Numbers of both signs -/

/-- The double nearest to a number. -/
def nearest (q : ℚ) : ℚ := if q < 0 then -nearestMag (-q) else nearestMag q

theorem nearest_of_nonneg {q : ℚ} (h : 0 ≤ q) : nearest q = nearestMag q := if_neg h.not_gt

theorem nearest_neg (q : ℚ) : nearest (-q) = -nearest q := by
  rcases lt_trichotomy q 0 with h | rfl | h
  · rw [nearest, nearest, if_neg (by linarith), if_pos h, neg_neg]
  · simp [nearest, nearestMag_zero]
  · rw [nearest, nearest, if_pos (by linarith), if_neg h.not_gt, neg_neg]

theorem nearest_zero : nearest 0 = 0 := (nearest_of_nonneg le_rfl).trans nearestMag_zero

theorem nearest_mono {p q : ℚ} (h : p ≤ q) : nearest p ≤ nearest q := by
  unfold nearest
  split_ifs with hp hq hq
  · exact neg_le_neg (nearestMag_mono (by linarith) (by linarith))
  · exact (neg_nonpos.mpr (nearestMag_nonneg _)).trans (nearestMag_nonneg _)
  · exact absurd (h.trans_lt hq) hp
  · exact nearestMag_mono (not_lt.mp hp) h

theorem nearest_nonneg {q : ℚ} (h : 0 ≤ q) : 0 ≤ nearest q :=
  nearest_of_nonneg h ▸ nearestMag_nonneg q

/-- What is not next to nothing is moved by no more than a tiny part of itself. -/
theorem abs_nearest_sub_le {q : ℚ} (h : 2 ^ (-1022 : ℤ) ≤ q) : |nearest q - q| ≤ q / 2 ^ 53 := by
  have hq : 0 < q := lt_of_lt_of_le (by positivity) h
  have hunit : (0 : ℚ) < 2 ^ place q := by positivity
  have hplace : 2 ^ place q * 2 ^ 52 ≤ q := by
    rw [← zpow_natCast, ← zpow_add₀ (by norm_num)]
    rcases (place_spec hq).2 with hleast | hle
    · rw [hleast]
      exact h
    · exact hle
  have hmoved : nearest q - q = (toEven (q / 2 ^ place q) - q / 2 ^ place q) * 2 ^ place q := by
    rw [nearest_of_nonneg hq.le, nearestMag, sub_mul, div_mul_cancel₀ _ hunit.ne']
  rw [hmoved, abs_mul, abs_of_pos hunit]
  calc |toEven (q / 2 ^ place q) - q / 2 ^ place q| * 2 ^ place q ≤ 1 / 2 * 2 ^ place q := by
        gcongr
        exact abs_toEven_sub_le (by positivity)
    _ = 2 ^ place q * 2 ^ 52 / 2 ^ 53 := by ring
    _ ≤ q / 2 ^ 53 := by gcongr

/-! ## Powers of ten -/

theorem two_pow_lt_ten_pow {a b : ℕ} (hab : a ≤ 3 * b) (hb : b ≠ 0) : (2 : ℚ) ^ a < 10 ^ b := by
  calc (2 : ℚ) ^ a ≤ 2 ^ (3 * b) := pow_le_pow_right₀ (by norm_num) hab
    _ = 8 ^ b := by rw [pow_mul]; norm_num
    _ < 10 ^ b := pow_lt_pow_left₀ (by norm_num) (by norm_num) hb

/-- Every number that rounds to a double other than zero is larger. -/
theorem ten_zpow_lt : (10 : ℚ) ^ (-400 : ℤ) < 2 ^ (-1075 : ℤ) := by
  rw [zpow_neg, zpow_neg, inv_lt_inv₀ (by positivity) (by positivity), zpow_ofNat, zpow_ofNat]
  exact two_pow_lt_ten_pow (by norm_num) (by norm_num)

end MidiRig.Binary64
