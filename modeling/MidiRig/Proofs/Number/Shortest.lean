import MidiRig.Number.Shortest
import MidiRig.Proofs.Number.Digits
import MidiRig.Proofs.Number.Nearby

/-!
# The shortest decimal

Seventeen digits make a grid that is finer than the numbers that round to a double
(`grid_seventeen`), so the search ends with one of them (`found_ofDyadic`). Where the double is a
whole number it ends before it comes to places behind the point.
-/

namespace MidiRig.Shortest

open Binary64

/-! ## Intervals of rational numbers -/

namespace Interval

/-- The rational numbers that an interval stands for. -/
structure Is (i : Interval) (low value high : ℚ) : Prop where
  denominator : 0 < i.denominator
  low : (i.low : ℚ) = low * i.denominator
  value : (i.value : ℚ) = value * i.denominator
  high : (i.high : ℚ) = high * i.denominator

variable {i : Interval} {l v u : ℚ}

/-- A power as a fraction of which one part is one. -/
theorem zpow_mul_pow_toNat {b : ℕ} (hb : 0 < b) (e : ℤ) :
    (b : ℚ) ^ e * ((Nat.pow b (-e).toNat : ℕ) : ℚ) = (Nat.pow b e.toNat : ℕ) := by
  have hcast : ∀ n : ℕ, ((Nat.pow b n : ℕ) : ℚ) = b ^ (n : ℤ) := fun n => by
    rw [zpow_natCast]
    exact Nat.cast_pow b n
  have hne : (b : ℚ) ≠ 0 := by exact_mod_cast hb.ne'
  rw [hcast, hcast, ← zpow_add₀ hne]
  congr 1
  omega

theorem Is.shift (h : i.Is l v u) (e : ℤ) :
    (i.shift e).Is (l * 10 ^ e) (v * 10 ^ e) (u * 10 ^ e) := by
  have hten := zpow_mul_pow_toNat (show 0 < 10 by norm_num) e
  rw [Nat.cast_ofNat] at hten
  have hscale : ∀ {n : ℕ} {x : ℚ}, (n : ℚ) = x * i.denominator →
      ((n * Nat.pow 10 e.toNat : ℕ) : ℚ) =
        x * 10 ^ e * ((i.denominator * Nat.pow 10 (-e).toNat : ℕ) : ℚ) := by
    intro n x hn
    rw [Nat.cast_mul, Nat.cast_mul, hn, ← hten]
    ring
  exact ⟨Nat.mul_pos h.denominator (Nat.pow_pos (by norm_num)), hscale h.low, hscale h.value,
    hscale h.high⟩

/-- Whether a whole number lies in the interval. -/
theorem Is.contains (h : i.Is l v u) {n : ℕ} :
    i.contains n = true ↔ if i.closed then l ≤ n ∧ n ≤ u else l < n ∧ n < u := by
  have hden : (0 : ℚ) < i.denominator := by exact_mod_cast h.denominator
  have hcast : ((n * i.denominator : ℕ) : ℚ) = n * i.denominator := Nat.cast_mul _ _
  simp only [Interval.contains]
  cases i.closed with
  | true =>
    rw [if_pos rfl, if_pos rfl, Bool.and_eq_true, decide_eq_true_iff, decide_eq_true_iff,
      ← @Nat.cast_le ℚ, ← @Nat.cast_le ℚ, hcast, h.low, h.high, mul_le_mul_iff_left₀ hden,
      mul_le_mul_iff_left₀ hden]
  | false =>
    rw [if_neg Bool.false_ne_true, if_neg Bool.false_ne_true, Bool.and_eq_true,
      decide_eq_true_iff, decide_eq_true_iff, ← @Nat.cast_lt ℚ, ← @Nat.cast_lt ℚ, hcast, h.low,
      h.high, mul_lt_mul_iff_left₀ hden, mul_lt_mul_iff_left₀ hden]

theorem Is.floor (h : i.Is l v u) : i.value / i.denominator = ⌊v⌋₊ := by
  have hden : (0 : ℚ) < i.denominator := by exact_mod_cast h.denominator
  have hfloor : ⌊(i.value : ℚ) / i.denominator⌋₊ = i.value / i.denominator :=
    Nat.floor_div_eq_div _ _
  rw [← hfloor, h.value, mul_div_cancel_right₀ _ hden.ne']

theorem contains_of_nearest? {d : ℕ} (h : i.nearest? = some d) : i.contains d = true := by
  simp only [nearest?] at h
  split at h
  · next hdown hup =>
    cases h
    split
    · exact hup
    · exact hdown
  · next hdown _ =>
    cases h
    exact hdown
  · next hup =>
    cases h
    exact hup
  · cases h

theorem nearest?_ne_none (h : i.contains (i.value / i.denominator) = true ∨
    i.contains (i.value / i.denominator + 1) = true) : i.nearest? ≠ none := by
  simp only [nearest?]
  rcases h with h | h
  · rw [h]
    cases i.contains (i.value / i.denominator + 1) <;> simp
  · rw [h]
    cases i.contains (i.value / i.denominator) <;> simp

theorem Is.contains_of_lt (h : i.Is l v u) {n : ℕ} (hlo : l < n) (hhi : (n : ℚ) < u) :
    i.contains n = true := by
  rw [h.contains]
  split
  · exact ⟨hlo.le, hhi.le⟩
  · exact ⟨hlo, hhi⟩

/-- An interval of more than one unit has one of the whole numbers next to its value. -/
theorem Is.nearest?_of_wide (h : i.Is l v u) (hv : 0 ≤ v) (hlo : l < v) (hhi : v < u)
    (hwide : 1 < u - l) : i.nearest? ≠ none := by
  have hfloor : (⌊v⌋₊ : ℚ) ≤ v := Nat.floor_le hv
  have hnext : v < ⌊v⌋₊ + 1 := Nat.lt_floor_add_one v
  refine nearest?_ne_none ?_
  rw [h.floor]
  rcases lt_or_ge l ⌊v⌋₊ with hdown | hdown
  · exact .inl (h.contains_of_lt hdown (by linarith))
  · exact .inr (h.contains_of_lt (by push_cast; linarith) (by push_cast; linarith))

/-- A value that is a whole number is found. -/
theorem Is.nearest?_of_whole {n : ℕ} (h : i.Is l n u) (hlo : l < n) (hhi : (n : ℚ) < u) :
    i.nearest? ≠ none := by
  refine nearest?_ne_none (.inl ?_)
  rw [h.floor, Nat.floor_natCast]
  exact h.contains_of_lt hlo hhi

/-- From one on, the digits before the point are counted. -/
theorem Is.magnitude_of_le (h : i.Is l v u) (hle : i.denominator ≤ i.value) :
    (10 : ℚ) ^ (i.magnitude - 1) ≤ v ∧ v < 10 ^ i.magnitude := by
  have hden : (0 : ℚ) < i.denominator := by exact_mod_cast h.denominator
  have hv : v = i.value / i.denominator := (div_eq_iff hden.ne').mpr h.value |>.symm
  obtain ⟨k, hk, hlo, hhi⟩ := Decimal.length_toDigits (Nat.div_pos hle h.denominator)
  rw [Interval.magnitude, if_pos hle, hk]
  rw [h.floor] at hlo hhi
  constructor
  · rw [Nat.cast_succ, add_sub_cancel_right, zpow_natCast]
    calc (10 : ℚ) ^ k ≤ ⌊v⌋₊ := by exact_mod_cast hlo
      _ ≤ v := Nat.floor_le (hv ▸ by positivity)
  · rw [zpow_natCast]
    calc v < ⌊v⌋₊ + 1 := Nat.lt_floor_add_one v
      _ ≤ 10 ^ (k + 1) := by exact_mod_cast hhi

/-- Below one, the zeros behind the point are those of the inverse, rounded up. -/
theorem Is.magnitude_of_lt (h : i.Is l v u) (hvalue : 0 < i.value)
    (hlt : i.value < i.denominator) :
    (10 : ℚ) ^ (i.magnitude - 1) ≤ v ∧ v < 10 ^ i.magnitude := by
  have hden : (0 : ℚ) < i.denominator := by exact_mod_cast h.denominator
  have hv : v = i.value / i.denominator := (div_eq_iff hden.ne').mpr h.value |>.symm
  have hpos : (0 : ℚ) < i.value := by exact_mod_cast hvalue
  obtain ⟨k, hk, hlo, hhi⟩ := Decimal.length_toDigits
    (Nat.div_pos (by omega : i.value ≤ i.denominator - 1) hvalue)
  have hlarge : i.denominator ≤ 10 ^ (k + 1) * i.value := by
    have := (Nat.div_lt_iff_lt_mul hvalue).mp hhi
    omega
  have hsmall : 10 ^ k * i.value < i.denominator := by
    have := (Nat.le_div_iff_mul_le hvalue).mp hlo
    omega
  have hplaces : (1 : ℤ) - ((k + 1 : ℕ) : ℤ) = -(k : ℤ) := by push_cast; ring
  rw [Interval.magnitude, if_neg (not_le.mpr hlt), hk, hplaces, ← neg_add', zpow_neg, zpow_neg, hv]
  constructor
  · rw [inv_eq_one_div, div_le_div_iff₀ (by positivity) hden, one_mul, mul_comm]
    exact_mod_cast hlarge
  · rw [inv_eq_one_div, div_lt_div_iff₀ hden (by positivity), one_mul, mul_comm]
    exact_mod_cast hsmall

/-- Digits before the point, or zeros behind it. -/
theorem Is.magnitude (h : i.Is l v u) (hv : 0 < v) :
    (10 : ℚ) ^ (i.magnitude - 1) ≤ v ∧ v < 10 ^ i.magnitude := by
  rcases le_or_gt i.denominator i.value with hle | hlt
  · exact h.magnitude_of_le hle
  · have hden : (0 : ℚ) < i.denominator := by exact_mod_cast h.denominator
    have hpos : (0 : ℚ) < i.value := by rw [h.value]; positivity
    exact h.magnitude_of_lt (by exact_mod_cast hpos) hlt

end Interval

/-! ## The interval of a double -/

variable {m : ℕ} {q : ℤ}

theorem is_interval (hm : 0 < m) (q : ℤ) :
    (interval m q).Is (lowEnd m q) (m * 2 ^ q) (highEnd m q) := by
  have htwo := Interval.zpow_mul_pow_toNat (show 0 < 2 by norm_num) (q - 2)
  rw [neg_sub, Nat.cast_ofNat] at htwo
  have hbelow : below m q ≤ 4 * m := (below_le m q).trans (by omega)
  refine ⟨Nat.pow_pos (by norm_num), ?_, ?_, ?_⟩
  · show (((4 * m - below m q) * Nat.pow 2 (q - 2).toNat : ℕ) : ℚ) =
      (4 * m - below m q) * 2 ^ (q - 2) * (Nat.pow 2 (2 - q).toNat : ℕ)
    rw [mul_assoc, htwo, Nat.cast_mul, Nat.cast_sub hbelow]
    push_cast
    rfl
  · show ((4 * m * Nat.pow 2 (q - 2).toNat : ℕ) : ℚ) = m * 2 ^ q * (Nat.pow 2 (2 - q).toNat : ℕ)
    have hscaled : (m : ℚ) * 2 ^ q * (Nat.pow 2 (2 - q).toNat : ℕ) =
        4 * m * (2 ^ (q - 2) * (Nat.pow 2 (2 - q).toNat : ℕ)) := by
      rw [← four_mul_zpow]
      ring
    rw [hscaled, htwo, Nat.cast_mul]
    push_cast
    rfl
  · show (((4 * m + 2) * Nat.pow 2 (q - 2).toNat : ℕ) : ℚ) =
      (4 * m + 2) * 2 ^ (q - 2) * (Nat.pow 2 (2 - q).toNat : ℕ)
    rw [mul_assoc, htwo, Nat.cast_mul]
    push_cast
    rfl

theorem lowEnd_lt (m : ℕ) (q : ℤ) : lowEnd m q < m * 2 ^ q := by
  have hunit : (0 : ℚ) < 2 ^ (q - 2) := by positivity
  have hbelow : (1 : ℚ) ≤ below m q := by
    unfold below
    split <;> norm_num
  rw [← four_mul_zpow, lowEnd]
  nlinarith

theorem lt_highEnd (m : ℕ) (q : ℤ) : m * 2 ^ q < highEnd m q := by
  have hunit : (0 : ℚ) < 2 ^ (q - 2) := by positivity
  rw [← four_mul_zpow, highEnd]
  nlinarith

theorem near_of_contains (hm : 0 < m) {e : ℤ} {d : ℕ}
    (h : ((interval m q).shift e).contains d = true) : Near m q (d * 10 ^ (-e)) := by
  have hten : (0 : ℚ) < 10 ^ e := by positivity
  rw [((is_interval hm q).shift e).contains] at h
  have hclosed : ((interval m q).shift e).closed = (m % 2 == 0) := rfl
  unfold Near
  rw [zpow_neg, ← div_eq_mul_inv, le_div_iff₀ hten, div_le_iff₀ hten, lt_div_iff₀ hten,
    div_lt_iff₀ hten]
  simpa only [hclosed, beq_iff_eq] using h

/-- The interval is wider than the sixteenth place of its value. -/
theorem lt_width (h : Canonical m q) : (m : ℚ) * 2 ^ q < (highEnd m q - lowEnd m q) * 10 ^ 16 := by
  have hunit : (0 : ℚ) < 2 ^ (q - 2) := by positivity
  have hm : (m : ℚ) < 2 ^ 53 := by exact_mod_cast h.places
  rw [← four_mul_zpow, highEnd, lowEnd, below]
  split
  · next hpower =>
    rw [hpower.1]
    norm_num [hiddenBit]
    nlinarith
  · push_cast
    nlinarith

/-- With seventeen digits there is a number in the interval. -/
theorem grid_seventeen (h : Canonical m q) (hm : 0 < m) {size : ℤ}
    (hsize : (10 : ℚ) ^ (size - 1) ≤ m * 2 ^ q) :
    ((interval m q).shift (17 - size)).nearest? ≠ none := by
  have hten : (0 : ℚ) < 10 ^ (17 - size) := by positivity
  have hpos : (0 : ℚ) < m := by exact_mod_cast hm
  refine ((is_interval hm q).shift (17 - size)).nearest?_of_wide (by positivity) ?_ ?_ ?_
  · exact mul_lt_mul_of_pos_right (lowEnd_lt m q) hten
  · exact mul_lt_mul_of_pos_right (lt_highEnd m q) hten
  · have hwidth := lt_width h
    have hunit : (10 : ℚ) ^ (size - 1) * 10 ^ (17 - size) = 10 ^ 16 := by
      rw [← zpow_add₀ (by norm_num), show size - 1 + (17 - size) = 16 by ring]
      norm_num
    rw [← sub_mul]
    have : (10 : ℚ) ^ (size - 1) < (highEnd m q - lowEnd m q) * 10 ^ 16 := hsize.trans_lt hwidth
    nlinarith

/-! ## The search -/

/-- The search ends on the first grid that has a point in the interval. -/
theorem search_spec {i : Interval} {size : ℤ} {fuel n : ℕ}
    (h : ∃ k, n ≤ k ∧ k < n + fuel ∧ (i.shift (k - size)).nearest? ≠ none) :
    ∃ k d, n ≤ k ∧ k < n + fuel ∧ (i.shift (k - size)).contains d = true ∧
      search i size fuel n = ⟨d, size - k⟩ ∧
      ∀ j, n ≤ j → (i.shift (j - size)).nearest? ≠ none → k ≤ j := by
  induction fuel generalizing n with
  | zero =>
    obtain ⟨k, hnk, hk, -⟩ := h
    omega
  | succ fuel ih =>
    unfold search
    split
    · next d hd =>
      exact ⟨n, d, le_rfl, by omega, Interval.contains_of_nearest? hd, rfl, fun j hj _ => hj⟩
    · next hnone =>
      obtain ⟨k, hnk, hk, hpoint⟩ := h
      have hne : n ≠ k := by
        rintro rfl
        exact hpoint hnone
      obtain ⟨k, d, hnk, hk, hcontains, hsearch, hleast⟩ :=
        @ih (n + 1) ⟨k, by omega, by omega, hpoint⟩
      refine ⟨k, d, by omega, by omega, hcontains, hsearch, fun j hj hpoint => hleast j ?_ hpoint⟩
      have : n ≠ j := by
        rintro rfl
        exact hpoint hnone
      omega

/-- The shortest decimal rounds to the double, and has no more places than digits are searched. -/
structure Found (m : ℕ) (q : ℤ) (d : Decimal) : Prop where
  near : Near m q (d.digits * 10 ^ d.exponent)
  places : -500 ≤ d.exponent
  /-- A whole number is found before places behind the point are looked at. -/
  whole : (∃ n : ℕ, (m : ℚ) * 2 ^ q = n) → 0 ≤ d.exponent

theorem neg_400_lt_of_lt (h : Canonical m q) (hm : 0 < m) {size : ℤ}
    (hhi : (m : ℚ) * 2 ^ q < 10 ^ size) : -400 < size := by
  have hmq : (1 : ℚ) ≤ m := by exact_mod_cast hm
  have hsmall : (10 : ℚ) ^ (-400 : ℤ) < 10 ^ size := by
    calc (10 : ℚ) ^ (-400 : ℤ) < 2 ^ (-1075 : ℤ) := ten_zpow_lt
      _ ≤ 2 ^ q := zpow_le_zpow_right₀ (by norm_num) (by have := h.least; omega)
      _ ≤ m * 2 ^ q := le_mul_of_one_le_left (by positivity) hmq
      _ < 10 ^ size := hhi
  exact (zpow_lt_zpow_iff_right₀ (by norm_num : (1 : ℚ) < 10)).mp hsmall

/-- As many digits as a whole number has are enough for it. -/
theorem nearest?_of_eq_natCast (hm : 0 < m) {n : ℕ} (hn : (m : ℚ) * 2 ^ q = n) :
    ((interval m q).shift 0).nearest? ≠ none := by
  have hshift := (is_interval hm q).shift 0
  rw [zpow_zero, mul_one, mul_one, mul_one, hn] at hshift
  exact hshift.nearest?_of_whole (hn ▸ lowEnd_lt m q) (hn ▸ lt_highEnd m q)

theorem pos_of_natCast_lt {n : ℕ} (hn : 0 < n) {size : ℤ} (hhi : (n : ℚ) < 10 ^ size) :
    0 < size := by
  have hlt : (10 : ℚ) ^ (0 : ℤ) < 10 ^ size := by
    rw [zpow_zero]
    exact lt_of_le_of_lt (by exact_mod_cast hn) hhi
  exact (zpow_lt_zpow_iff_right₀ (by norm_num : (1 : ℚ) < 10)).mp hlt

theorem found_ofDyadic (h : Canonical m q) (hm : 0 < m) : Found m q (ofDyadic m q) := by
  obtain ⟨hlo, hhi⟩ := (is_interval hm q).magnitude (by positivity)
  unfold ofDyadic
  simp only
  generalize (interval m q).magnitude = size at *
  have hgrid : ((interval m q).shift ((17 : ℕ) - size)).nearest? ≠ none := grid_seventeen h hm hlo
  obtain ⟨k, d, hk, hk17, hcontains, hsearch, hleast⟩ :=
    @search_spec _ size 17 1 ⟨17, by norm_num, by norm_num, hgrid⟩
  rw [hsearch]
  refine ⟨?_, ?_, ?_⟩
  · have hnear := near_of_contains hm hcontains
    rwa [neg_sub] at hnear
  · have hsize := neg_400_lt_of_lt h hm hhi
    show -500 ≤ size - k
    omega
  · rintro ⟨n, hn⟩
    show 0 ≤ size - k
    have hpos : (0 : ℚ) < n := hn ▸ by positivity
    have hsize : 0 < size := pos_of_natCast_lt (by exact_mod_cast hpos) (hn ▸ hhi)
    obtain ⟨j, rfl⟩ := Int.eq_ofNat_of_zero_le hsize.le
    have := hleast j (by omega) ((sub_self (j : ℤ)).symm ▸ nearest?_of_eq_natCast hm hn)
    omega

end MidiRig.Shortest
