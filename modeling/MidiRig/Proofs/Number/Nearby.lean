import MidiRig.Number.Binary64
import MidiRig.Proofs.Number.Nearest

/-!
# What rounds to a double

The numbers that round to a double form an interval from halfway to the double below it to halfway
to the one above it (`Near`, `nearestMag_of_near`). The ends belong to it if the mantissa is even.
-/

namespace MidiRig.Binary64

/-! ## Rounding to a given number -/

theorem toEven_eq {x : ℚ} {n : ℕ} (h : |x - n| < 1 / 2 ∨ n % 2 = 0 ∧ |x - n| ≤ 1 / 2)
    (hx : 0 ≤ x) : toEven x = n := by
  have hle : |x - n| ≤ 1 / 2 := h.elim le_of_lt And.right
  rw [abs_le] at hle
  rcases le_or_gt (n : ℚ) x with hn | hn
  · have hfloor : ⌊x⌋₊ = n := by
      rw [Nat.floor_eq_iff hx]
      exact ⟨hn, by linarith⟩
    unfold toEven
    rw [hfloor]
    split_ifs with hbelow habove
    · rfl
    · linarith
    · obtain hlt | ⟨heven, -⟩ := h
      · exact absurd (abs_lt.mp hlt).2 hbelow
      · rw [heven, add_zero]
  · obtain ⟨k, rfl⟩ : ∃ k, n = k + 1 := by
      refine ⟨n - 1, (Nat.succ_pred_eq_of_pos ?_).symm⟩
      exact_mod_cast hx.trans_lt hn
    push_cast at hle hn h
    have hfloor : ⌊x⌋₊ = k := by
      rw [Nat.floor_eq_iff hx]
      constructor <;> linarith
    unfold toEven
    rw [hfloor]
    split_ifs with hbelow habove
    · linarith
    · rfl
    · obtain hlt | ⟨heven, -⟩ := h
      · have := (abs_lt.mp hlt).1
        exact absurd (by linarith) habove
      · omega

theorem place_of_bounds {r : ℚ} {e : ℤ} (hr : 0 < r) (hlo : e = -1074 ∨ 2 ^ (e + 52) ≤ r)
    (hhi : r < 2 ^ (e + 53)) (he : -1074 ≤ e) : place r = e := by
  have hlog : Int.log 2 r < e + 53 :=
    (Int.lt_zpow_iff_log_lt (by norm_num) hr).mp (by exact_mod_cast hhi)
  unfold place
  rcases hlo with rfl | hlo
  · omega
  · have := (Int.zpow_le_iff_le_log (by norm_num) hr).mp
      (by exact_mod_cast hlo : ((2 : ℕ) : ℚ) ^ (e + 52) ≤ r)
    omega

/-! ## The interval -/

/-- Quarters of the last place from a double to the lower end of the numbers that round to it: half
as many where the exponent changes. -/
def below (m : ℕ) (q : ℤ) : ℕ := if m = hiddenBit ∧ minExponent < q then 1 else 2

def lowEnd (m : ℕ) (q : ℤ) : ℚ := (4 * m - below m q) * 2 ^ (q - 2)

def highEnd (m : ℕ) (q : ℤ) : ℚ := (4 * m + 2) * 2 ^ (q - 2)

/-- Whether a number rounds to `m * 2 ^ q`. The ends do if `m` is even. -/
def Near (m : ℕ) (q : ℤ) (r : ℚ) : Prop :=
  if m % 2 = 0 then lowEnd m q ≤ r ∧ r ≤ highEnd m q else lowEnd m q < r ∧ r < highEnd m q

variable {m : ℕ} {q : ℤ} {r : ℚ}

theorem below_le (m : ℕ) (q : ℤ) : below m q ≤ 2 := by
  unfold below
  split <;> omega

theorem four_mul_zpow (q : ℤ) : 4 * (2 : ℚ) ^ (q - 2) = 2 ^ q := by
  rw [zpow_sub₀ (by norm_num)]
  norm_num
  ring

theorem Near.le (h : Near m q r) : lowEnd m q ≤ r ∧ r ≤ highEnd m q := by
  unfold Near at h
  split at h
  · exact h
  · exact ⟨h.1.le, h.2.le⟩

theorem lowEnd_pos (hm : 0 < m) : 0 < lowEnd m q := by
  have hone : (1 : ℚ) ≤ m := by exact_mod_cast hm
  have hbelow : (below m q : ℚ) ≤ 2 := by exact_mod_cast below_le m q
  exact mul_pos (by linarith) (by positivity)

/-- In a place where the number is within half a unit of `m`, it is rounded to `m`. -/
theorem toEven_of_near (hm : 0 < m) (hr : Near m q r) : toEven (r / 2 ^ q) = m := by
  have hunit : (0 : ℚ) < 2 ^ (q - 2) := by positivity
  have hbelow : (below m q : ℚ) ≤ 2 := by exact_mod_cast below_le m q
  have hpos : 0 < r := (lowEnd_pos hm).trans_le hr.le.1
  have hdiff : r / 2 ^ q - m = (r - 4 * m * 2 ^ (q - 2)) / (4 * 2 ^ (q - 2)) := by
    rw [← four_mul_zpow]
    field_simp
  refine toEven_eq ?_ (by positivity)
  rw [hdiff, abs_div, abs_of_pos (show (0 : ℚ) < 4 * 2 ^ (q - 2) by positivity),
    div_lt_iff₀ (by positivity), div_le_iff₀ (by positivity), abs_lt, abs_le]
  unfold Near lowEnd highEnd at hr
  split at hr
  · next heven => exact .inr ⟨heven, by nlinarith, by nlinarith⟩
  · exact .inl ⟨by nlinarith, by nlinarith⟩

/-- Where the exponent changes, numbers below the double have one place more. -/
theorem nearestMag_below_power (hq : -1074 < q) (hr : Near hiddenBit q r)
    (hlt : r < hiddenBit * 2 ^ q) : nearestMag r = hiddenBit * 2 ^ q := by
  have hbit : (hiddenBit : ℚ) = 2 ^ 52 := by norm_num [hiddenBit]
  have hbelow : below hiddenBit q = 1 := if_pos ⟨rfl, hq⟩
  have hlow : lowEnd hiddenBit q ≤ r := hr.le.1
  have hpos : 0 < r := (lowEnd_pos (by decide)).trans_le hlow
  have htwo : 2 * (2 : ℚ) ^ (q - 2) = 2 ^ (q - 1) := by
    rw [show q - 1 = q - 2 + 1 by ring, zpow_add_one₀ (by norm_num), mul_comm]
  have hunit : (0 : ℚ) < 2 ^ (q - 2) := by positivity
  rw [← four_mul_zpow, hbit] at hlt
  unfold lowEnd at hlow
  rw [hbelow, hbit, Nat.cast_one] at hlow
  have hplace : place r = q - 1 := by
    refine place_of_bounds hpos (.inr ?_) ?_ (by omega)
    · rw [zpow_add₀ (by norm_num), ← htwo, zpow_ofNat]
      nlinarith
    · rw [zpow_add₀ (by norm_num), ← htwo, zpow_ofNat]
      nlinarith
  have hquotient : toEven (r / 2 ^ (q - 1)) = 2 ^ 53 := by
    refine toEven_eq (.inr ⟨by norm_num, ?_⟩) (by positivity)
    have hdiff : r / 2 ^ (q - 1) - ((2 ^ 53 : ℕ) : ℚ) =
        (r - 2 ^ 54 * 2 ^ (q - 2)) / (2 * 2 ^ (q - 2)) := by
      rw [← htwo]
      push_cast
      field_simp
      ring
    rw [hdiff, abs_div, abs_of_pos (show (0 : ℚ) < 2 * 2 ^ (q - 2) by positivity),
      div_le_iff₀ (by positivity), abs_le]
    constructor <;> nlinarith
  unfold nearestMag
  rw [hplace, hquotient, hbit, ← htwo, ← four_mul_zpow q]
  push_cast
  ring

/-- The numbers of the interval round to the double. -/
theorem nearestMag_of_near (h : Canonical m q) (hm : 0 < m) (hr : Near m q r) :
    nearestMag r = m * 2 ^ q := by
  have hpos : 0 < r := (lowEnd_pos hm).trans_le hr.le.1
  by_cases hpower : m = hiddenBit ∧ minExponent < q ∧ r < m * 2 ^ q
  · obtain ⟨rfl, hq, hlt⟩ := hpower
    exact nearestMag_below_power hq hr hlt
  have hunit : (0 : ℚ) < 2 ^ (q - 2) := by positivity
  have hplace : place r = q := by
    refine place_of_bounds hpos ?_ ?_ h.least
    · rw [or_iff_not_imp_left]
      intro hq
      have hleast : -1074 < q := lt_of_le_of_ne h.least (Ne.symm hq)
      have hfull : (2 : ℚ) ^ 52 ≤ m := by exact_mod_cast h.full.resolve_right hq
      rw [zpow_add₀ (by norm_num), ← four_mul_zpow q, zpow_ofNat]
      by_cases hlt : r < m * 2 ^ q
      · -- there is a double between the power of two and this one
        have hnext : (2 : ℚ) ^ 52 + 1 ≤ m := by
          have hne : m ≠ 2 ^ 52 := fun heq => hpower ⟨heq, hleast, hlt⟩
          have := h.full.resolve_right hq
          exact_mod_cast Nat.lt_of_le_of_ne this (Ne.symm hne)
        have hbelow : (below m q : ℚ) ≤ 2 := by exact_mod_cast below_le m q
        have hlow : (4 * m - below m q) * 2 ^ (q - 2) ≤ r := hr.le.1
        nlinarith
      · rw [← four_mul_zpow q] at hlt
        nlinarith
    · have hhigh : r ≤ (4 * m + 2) * 2 ^ (q - 2) := hr.le.2
      have hplaces : (m : ℚ) + 1 ≤ 2 ^ 53 := by exact_mod_cast h.places
      rw [zpow_add₀ (by norm_num), ← four_mul_zpow, zpow_ofNat]
      nlinarith
  unfold nearestMag
  rw [hplace, toEven_of_near hm hr]

end MidiRig.Binary64
