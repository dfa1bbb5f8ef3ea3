import MidiRig.Proofs.Number.Arithmetic

/-!
# Doubles read from decimals

A decimal is read as the double nearest to it (`has_ofScientific`). Small ones are read by one
operation on two exact doubles, for which the powers of ten are listed; the others by a division or
a multiplication of whole numbers.
-/

namespace MidiRig.Binary64

open Float.Model Float.Model.UnpackedFloat

/-- A decimal is read as the double nearest to it. -/
theorem holds_ofScientific (m : ℕ) {e : ℤ} (hlo : -(2048 + (m.log2 : ℤ)) ≤ e) (hhi : e ≤ 2048) :
    Holds (UnpackedFloat.ofScientific Format.binary64 m e) (nearest (m * 10 ^ e)) := by
  unfold UnpackedFloat.ofScientific
  split_ifs with hm hlarge hsmall hsign
  · rw [hm, Nat.cast_zero, zero_mul, nearest_zero]
    exact rfl
  · exact absurd hlarge (not_lt.mpr hhi)
  · exact absurd hsmall (not_lt.mpr hlo)
  · obtain ⟨n, rfl⟩ := Int.eq_ofNat_of_zero_le hsign
    have hpos := Nat.pos_of_ne_zero hm
    have hplaces : 2 ^ 52 ≤ m <<< 53 * 10 ^ n := by
      rw [Nat.shiftLeft_eq]
      have : 1 ≤ 10 ^ n := Nat.one_le_pow _ _ (by norm_num)
      nlinarith
    have hproduct := holds_mul .positive .positive (e := -53) (k := 0)
      (Nat.shiftLeft_pos_iff.mpr hpos) (show 0 < 10 ^ n by positivity) (.inl hplaces)
    have hvalue : withSign .positive ((m <<< 53 : ℕ) * 2 ^ (-53 : ℤ)) *
        withSign .positive ((10 ^ n : ℕ) * 2 ^ (0 : ℤ)) = (m : ℚ) * 10 ^ (n : ℤ) := by
      simp only [withSign]
      rw [Nat.shiftLeft_eq, zpow_neg, zpow_ofNat, zpow_zero, zpow_natCast]
      push_cast
      field_simp
      norm_num
    rw [hvalue] at hproduct
    exact hproduct
  · obtain ⟨n, hn⟩ := Int.eq_ofNat_of_zero_le (show 0 ≤ -e by omega)
    have hquotient := holds_div .positive .positive (e := 0) (k := 0) (Nat.pos_of_ne_zero hm)
      (show 0 < 10 ^ n by positivity)
    have hvalue : withSign .positive ((m : ℚ) * 2 ^ (0 : ℤ)) /
        withSign .positive ((10 ^ n : ℕ) * 2 ^ (0 : ℤ)) = m * 10 ^ e := by
      simp only [withSign]
      rw [show e = -(n : ℤ) by omega, zpow_neg, zpow_natCast]
      push_cast
      ring
    rw [hvalue] at hquotient
    simp only [hn]
    exact hquotient

theorem has_toFloat {n : ℕ} (hn : n < 2 ^ 53) : Has n.toUInt64.toFloat n := by
  have hword : n.toUInt64.toNat = n := by
    show n % 2 ^ 64 = n
    omega
  have hround := holds_normalize n.toUInt64.toNat 0 .positive
  have hvalue : ((n.toUInt64.toNat : ℤ) : ℚ) * 2 ^ (0 : ℤ) = n := by rw [hword]; simp
  rw [hvalue, nearest_natCast hn] at hround
  exact has_ofModel_pack (u := UnpackedFloat.ofUInt64 Format.binary64 n.toUInt64) hround
    (natCast_lt_beyond hn)

theorem parts_powerOfTen : ∀ e : Fin 23, parts Float.exactlyRepresentablePowersOfTen[e] =
    .finite false (5 ^ e.1 * 2 ^ (52 - Nat.log2 (5 ^ e.1)))
      (e - (52 - Nat.log2 (5 ^ e.1) : ℕ)) := by
  decide +kernel

theorem has_powerOfTen (e : Fin 23) : Has Float.exactlyRepresentablePowersOfTen[e] (10 ^ e.1) := by
  have hvalue : (((5 ^ e.1 * 2 ^ (52 - Nat.log2 (5 ^ e.1)) : ℕ) : ℚ)) *
      2 ^ ((e : ℤ) - (52 - Nat.log2 (5 ^ e.1) : ℕ)) = 10 ^ e.1 := by
    rw [zpow_sub₀ (by norm_num), zpow_natCast, zpow_natCast, show (10 : ℚ) = 5 * 2 by norm_num,
      mul_pow]
    push_cast
    field_simp
  have h := Has.of_parts (parts_powerOfTen e)
  rwa [hvalue] at h

/-- The number that a decimal is. -/
def decimal (m : ℕ) (s : Bool) (e : ℕ) : ℚ := if s then m / 10 ^ e else m * 10 ^ e

/-- A double is the nearest to a number that is not negative, or infinity if this is too large. -/
structure IsNearest (x : Float) (q : ℚ) : Prop where
  has : nearest q < beyond → Has x (nearest q)
  top : beyond ≤ nearest q → IsTop x

theorem isNearest_ofModel_pack {u : UnpackedFloat} {q : ℚ} (hq : 0 ≤ q) (h : Holds u (nearest q)) :
    IsNearest (.ofModel (.pack u)) q where
  has hlt := has_ofModel_pack h (by rwa [abs_of_nonneg (nearest_nonneg hq)])
  top := isTop_ofModel_pack h

theorem decimal_nonneg (m : ℕ) (s : Bool) (e : ℕ) : 0 ≤ decimal m s e := by
  unfold decimal
  split <;> positivity

theorem decimal_le {m e : ℕ} (hm : m < 2 ^ 53) (he : e < 23) (s : Bool) :
    decimal m s e ≤ 2 ^ 1023 := by
  have hm' : (m : ℚ) ≤ 2 ^ 53 := by exact_mod_cast hm.le
  have hone : (1 : ℚ) ≤ 10 ^ e := one_le_pow₀ (by norm_num)
  calc decimal m s e ≤ m * 10 ^ e := by
        unfold decimal
        split
        · exact (div_le_self (by positivity) hone).trans (le_mul_of_one_le_right (by positivity) hone)
        · exact le_rfl
    _ ≤ 2 ^ 53 * 10 ^ 23 := by
        gcongr
        norm_num
    _ ≤ 2 ^ 145 := by norm_num
    _ ≤ 2 ^ 1023 := pow_le_pow_right₀ (by norm_num) (by norm_num)

/-- A decimal is read as the double nearest to it. -/
theorem isNearest_ofScientific {m : ℕ} {s : Bool} {e : ℕ} (he : e ≤ 2048 + if s then m.log2 else 0) :
    IsNearest (Float.ofScientific m s e) (decimal m s e) := by
  unfold Float.ofScientific
  split
  · next hfast =>
    have hm := has_toFloat hfast.1
    have hten := has_powerOfTen ⟨e, by omega⟩
    have hlt : |nearest (decimal m s e)| < beyond := by
      refine abs_nearest_lt ?_
      rw [abs_of_nonneg (decimal_nonneg m s e)]
      exact decimal_le hfast.1 (by omega) s
    refine ⟨fun _ => ?_, fun htop => absurd hlt (not_lt.mpr (htop.trans (le_abs_self _)))⟩
    cases s
    · exact hm.mul hten hlt
    · exact hm.div hten (by positivity) hlt
  · refine isNearest_ofModel_pack (decimal_nonneg m s e) ?_
    cases s
    · rw [if_neg Bool.false_ne_true] at he
      have hslow := holds_ofScientific m (e := (e : ℤ)) (by omega) (by omega)
      rw [zpow_natCast] at hslow
      exact hslow
    · rw [if_pos rfl] at he
      have hslow := holds_ofScientific m (e := -(e : ℤ)) (by omega) (by omega)
      rw [zpow_neg, zpow_natCast, ← div_eq_mul_inv, ← Int.ofNat_eq_natCast,
        ← Int.negOfNat_eq] at hslow
      exact hslow

theorem has_ofScientific {m : ℕ} {s : Bool} {e : ℕ} (he : e ≤ 2048)
    (h : |nearest (decimal m s e)| < beyond) :
    Has (Float.ofScientific m s e) (nearest (decimal m s e)) :=
  (isNearest_ofScientific (he.trans (Nat.le_add_right _ _))).has ((le_abs_self _).trans_lt h)

theorem has_ofNat {n : ℕ} (h : |nearest n| < beyond) : Has (Float.ofNat n) (nearest n) := by
  have hvalue : decimal n false 0 = n := by simp [decimal]
  have := has_ofScientific (m := n) (s := false) (e := 0) (by norm_num) (hvalue.symm ▸ h)
  rwa [hvalue] at this

/-- Whole numbers that doubles hold exactly. -/
theorem has_natCast {n : ℕ} (hn : n < 2 ^ 53) : Has (Float.ofNat n) n := by
  have hvalue := nearest_natCast hn
  have h := has_ofNat (hvalue.symm ▸ natCast_lt_beyond hn)
  rwa [hvalue] at h

/-- A literal with one decimal, which is zero. -/
theorem has_literal (n : ℕ) (hn : n < 2 ^ 53) :
    Has (OfScientific.ofScientific (10 * n) true 1) n := by
  have hvalue : nearest (decimal (10 * n) true 1) = n := by
    rw [← nearest_natCast hn, decimal, if_pos rfl]
    push_cast
    rw [pow_one, mul_div_cancel_left₀ _ (by norm_num)]
  have hlt := (has_natCast hn).lt_beyond
  have := has_ofScientific (m := 10 * n) (s := true) (e := 1) (by norm_num) (hvalue.symm ▸ hlt)
  rwa [hvalue] at this

theorem has_zero : Has 0.0 0 := by
  have h := has_literal 0 (by norm_num)
  rw [Nat.cast_zero] at h
  exact h

theorem isTop_infinity : IsTop infinity := by
  have hparts : parts infinity = .infinite false := by decide +kernel
  rw [IsTop, unpack_eq_parts, hparts]
  rfl

theorem isNearest_zero {q : ℚ} (h : nearest q = 0) : IsNearest 0.0 q where
  has _ := h ▸ has_zero
  top htop := absurd beyond_pos (not_lt.mpr (h ▸ htop))

theorem isNearest_infinity {q : ℚ} (h : beyond ≤ nearest q) : IsNearest infinity q where
  has hlt := absurd hlt (not_lt.mpr h)
  top _ := isTop_infinity

end MidiRig.Binary64
