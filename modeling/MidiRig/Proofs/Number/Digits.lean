import MidiRig.Number.Decimal
import MidiRig.Proofs.Number.Equal

/-!
# Decimal digits

Whole numbers are read from the digits that write them, and a number with a point is read as the
double nearest to what it says (`readFloat?_written`, `isNearest_scaled`).
-/

namespace MidiRig.Decimal

open Binary64

/-! ## Digits of whole numbers -/

theorem digitsValue_eq (cs : List Char) : digitsValue cs = Nat.ofDigitChars 10 cs 0 :=
  Nat.ofDigitChars_eq_foldl.symm

theorem digitsValue_toDigits (n : ℕ) : digitsValue (Nat.toDigits 10 n) = n := by
  rw [digitsValue_eq, Nat.ofDigitChars_ten_toDigits]

theorem digitsValue_append (cs ds : List Char) :
    digitsValue (cs ++ ds) = 10 ^ ds.length * digitsValue cs + digitsValue ds := by
  simp only [digitsValue_eq]
  rw [Nat.ofDigitChars_append, Nat.ofDigitChars_eq_ofDigitChars_zero]

theorem digitsValue_zeros (n : ℕ) : digitsValue (List.replicate n '0') = 0 := by
  rw [digitsValue_eq, Nat.ofDigitChars_replicate_zero, Nat.mul_zero]

theorem isDigit_of_mem_toDigits {n : ℕ} {c : Char} (h : c ∈ Nat.toDigits 10 n) :
    c.isDigit = true := Nat.isDigit_of_mem_toDigits (by norm_num) (by norm_num) h

theorem toList_toString (n : ℕ) : (toString n).toList = Nat.toDigits 10 n := by
  rw [Nat.toString_eq_ofList_toDigits, String.toList_ofList]

/-- A number lies between the powers of ten that its digits tell. -/
theorem length_toDigits {n : ℕ} (hn : 0 < n) :
    ∃ k, (Nat.toDigits 10 n).length = k + 1 ∧ 10 ^ k ≤ n ∧ n < 10 ^ (k + 1) := by
  obtain ⟨k, hk⟩ : ∃ k, (Nat.toDigits 10 n).length = k + 1 :=
    ⟨_, (Nat.succ_pred_eq_of_pos Nat.length_toDigits_pos).symm⟩
  refine ⟨k, hk, ?_, (Nat.length_toDigits_le_iff (by norm_num) k.succ_pos).mp hk.le⟩
  rcases Nat.eq_zero_or_pos k with rfl | hmore
  · exact hn
  · rw [← not_lt, ← Nat.length_toDigits_le_iff (by norm_num) hmore]
    omega

/-- Zeros behind a number other than zero. -/
theorem toDigits_append_zeros {n : ℕ} (hn : 0 < n) (k : ℕ) :
    Nat.toDigits 10 n ++ List.replicate k '0' = Nat.toDigits 10 (n * 10 ^ k) := by
  induction k with
  | zero => simp
  | succ k ih =>
    have hzero : ['0'] = Nat.toDigits 10 0 := (Nat.toDigits_zero 10).symm
    rw [List.replicate_succ', ← List.append_assoc, ih, hzero,
      Nat.toDigits_append_toDigits (by norm_num) (by positivity) (by norm_num)]
    congr 1
    ring

theorem toDigits_begins (n : ℕ) : ∃ c cs, Nat.toDigits 10 n = c :: cs ∧ c.isDigit = true := by
  obtain ⟨c, cs, hdigits⟩ := List.exists_cons_of_ne_nil (Nat.toDigits_ne_nil (b := 10) (n := n))
  exact ⟨c, cs, hdigits, isDigit_of_mem_toDigits (hdigits ▸ List.mem_cons_self)⟩

theorem spanDigits_append {ds rest : List Char} (hds : ∀ c ∈ ds, c.isDigit = true)
    (hrest : rest.takeWhile Char.isDigit = []) : spanDigits (ds ++ rest) = (ds, rest) := by
  have hdrop : rest.dropWhile Char.isDigit = rest := by
    have := List.takeWhile_append_dropWhile (p := Char.isDigit) (l := rest)
    rwa [hrest, List.nil_append] at this
  unfold spanDigits
  rw [List.takeWhile_append_of_pos hds, List.dropWhile_append_of_pos hds, hrest, hdrop,
    List.append_nil]

theorem spanDigits_toDigits (n : ℕ) {rest : List Char} (hrest : rest.takeWhile Char.isDigit = []) :
    spanDigits (Nat.toDigits 10 n ++ rest) = (Nat.toDigits 10 n, rest) :=
  spanDigits_append (fun _ => isDigit_of_mem_toDigits) hrest

/-! ## Whole numbers with a sign -/

/-- The text of a whole number is a sign and digits. -/
theorem toList_toString_int (n : ℤ) : (toString n).toList =
    (if n < 0 then ['-'] else []) ++ Nat.toDigits 10 n.natAbs := by
  show n.repr.toList = _
  rw [Int.repr_eq_if]
  rcases lt_or_ge n 0 with h | h
  · rw [if_neg (not_le.mpr h), if_pos h, String.toList_append, Nat.repr_eq_ofList_toDigits,
      show (-n).toNat = n.natAbs by omega, String.toList_ofList, String.toList_ofList]
  · rw [if_pos h, if_neg (not_lt.mpr h), Nat.repr_eq_ofList_toDigits, String.toList_ofList,
      show n.toNat = n.natAbs by omega]
    rfl

/-- A digit is none of the other characters. -/
theorem ne_of_isDigit {c d : Char} (h : c.isDigit = true) (hd : d.isDigit = false) : c ≠ d := by
  rintro rfl
  rw [hd] at h
  exact Bool.false_ne_true h

theorem splitSign_of_isDigit {c : Char} (h : c.isDigit = true) (cs : List Char) :
    splitSign (c :: cs) = (false, c :: cs) := by
  have hminus : c ≠ '-' := ne_of_isDigit h (by decide)
  have hplus : c ≠ '+' := ne_of_isDigit h (by decide)
  simp [splitSign, hminus, hplus]

theorem splitSign_toDigits (n : ℕ) (rest : List Char) :
    splitSign (Nat.toDigits 10 n ++ rest) = (false, Nat.toDigits 10 n ++ rest) := by
  obtain ⟨c, cs, hdigits, hc⟩ := toDigits_begins n
  rw [hdigits]
  exact splitSign_of_isDigit hc _

/-- A whole number is read from its text. -/
theorem readInt?_toString {lo hi n : ℤ} (hlo : lo ≤ n) (hhi : n ≤ hi) :
    readInt? lo hi (toString n).toList = some n := by
  have hsplit : splitSign (toString n).toList = (decide (n < 0), Nat.toDigits 10 n.natAbs) := by
    rw [toList_toString_int]
    rcases lt_or_ge n 0 with h | h
    · rw [if_pos h, decide_eq_true h]
      rfl
    · rw [if_neg (not_lt.mpr h), decide_eq_false (not_lt.mpr h), List.nil_append]
      simpa using splitSign_toDigits n.natAbs []
  have hdigits : ((Nat.toDigits 10 n.natAbs).isEmpty ||
      !(Nat.toDigits 10 n.natAbs).all Char.isDigit) = false := by
    rw [Bool.or_eq_false_iff, List.isEmpty_eq_false_iff, Bool.not_eq_false', List.all_eq_true]
    exact ⟨Nat.toDigits_ne_nil, fun _ => isDigit_of_mem_toDigits⟩
  have hvalue : signed (decide (n < 0)) n.natAbs = n := by
    unfold signed
    split
    · next hneg =>
      have := of_decide_eq_true hneg
      omega
    · next hneg =>
      have := of_decide_eq_false (Bool.eq_false_iff.mpr hneg)
      omega
  unfold readInt?
  simp only [hsplit, hdigits, digitsValue_toDigits, hvalue, Bool.false_eq_true, if_false,
    if_pos (And.intro hlo hhi)]

theorem bounds_of_readInt? {lo hi n : ℤ} {cs : List Char} (h : readInt? lo hi cs = some n) :
    lo ≤ n ∧ n ≤ hi := by
  simp only [readInt?] at h
  split at h
  · cases h
  · split at h
    · next hbounds =>
      cases h
      exact hbounds
    · cases h

/-! ## Numbers with a point -/

/-- A whole number and the digits behind its point, if there are any. -/
def written (n : ℕ) (fraction : List Char) : List Char :=
  Nat.toDigits 10 n ++ if fraction.isEmpty then [] else '.' :: fraction

/-- What these digits say. -/
def writtenValue (n : ℕ) (fraction : List Char) : ℚ :=
  n + digitsValue fraction / 10 ^ fraction.length

theorem readMagnitude?_written (n : ℕ) {fraction : List Char}
    (hfraction : ∀ c ∈ fraction, c.isDigit = true) :
    readMagnitude? (written n fraction) =
      some (scaled (digitsValue (Nat.toDigits 10 n ++ fraction)) (-fraction.length)) := by
  have hwhole : (Nat.toDigits 10 n).isEmpty = false :=
    List.isEmpty_eq_false_iff.mpr Nat.toDigits_ne_nil
  unfold readMagnitude? written
  cases fraction with
  | nil =>
    rw [spanDigits_toDigits n rfl]
    simp [hwhole, readExponent?]
  | cons d ds =>
    have hspan : spanDigits (d :: ds) = (d :: ds, []) := by
      simpa using spanDigits_append hfraction (show [].takeWhile Char.isDigit = [] from rfl)
    rw [spanDigits_toDigits n (by rfl)]
    simp [hspan, hwhole, readExponent?]

theorem isUpper_of_isDigit {c : Char} (h : c.isDigit = true) : ¬ c.isUpper = true := by
  have hbelow : c.toNat ≤ 57 := (Char.isDigit_iff_toNat.mp h).2
  simp only [Char.isUpper, decide_eq_true_eq, ge_iff_le, UInt32.le_iff_toNat_le]
  rintro ⟨habove, -⟩
  have : 65 ≤ c.toNat := habove
  omega

theorem named?_digits (n : ℕ) (rest : List Char) :
    named? (String.ofList ((Nat.toDigits 10 n ++ rest).map Char.toLower)) = none := by
  obtain ⟨c, cs, hdigits, hdigit⟩ := toDigits_begins n
  have hlower : c.toLower = c := Char.toLower_eq_of_not_isUpper (isUpper_of_isDigit hdigit)
  have hne : ∀ name : String, (∃ d ds, name.toList = d :: ds ∧ d.isDigit = false) →
      String.ofList ((c :: cs ++ rest).map Char.toLower) ≠ name := by
    rintro _ ⟨d, ds, hname, hd⟩ rfl
    rw [String.toList_ofList, List.cons_append, List.map_cons, hlower, List.cons.injEq] at hname
    exact ne_of_isDigit hdigit hd hname.1
  rw [hdigits]
  unfold named?
  rw [if_neg (not_or.mpr ⟨hne _ ⟨'i', _, rfl, by decide⟩, hne _ ⟨'i', _, rfl, by decide⟩⟩),
    if_neg (hne _ ⟨'n', _, rfl, by decide⟩)]

/-- The value of digits as one number and a power of ten. -/
theorem writtenValue_eq (n : ℕ) (fraction : List Char) :
    (digitsValue (Nat.toDigits 10 n ++ fraction) : ℚ) * 10 ^ (-fraction.length : ℤ) =
      writtenValue n fraction := by
  rw [digitsValue_append, digitsValue_toDigits, zpow_neg, zpow_natCast, writtenValue]
  push_cast
  field_simp

/-! ## Scaled decimals -/

theorem isNearest_of_large {q : ℚ} (h : (10 : ℚ) ^ (400 : ℤ) ≤ q) : IsNearest infinity q := by
  refine isNearest_infinity ?_
  calc beyond = nearest (2 ^ 1024) := by rw [nearest_two_pow, beyond]
    _ ≤ nearest (10 ^ (400 : ℤ)) := by
      rw [zpow_ofNat]
      exact nearest_mono (two_pow_lt_ten_pow (by norm_num) (by norm_num)).le
    _ ≤ nearest q := nearest_mono h

theorem isNearest_of_small {q : ℚ} (hq : 0 ≤ q) (h : q ≤ 10 ^ (-400 : ℤ)) : IsNearest 0.0 q :=
  isNearest_zero ((nearest_of_nonneg hq).trans (nearestMag_of_lt hq (h.trans_lt ten_zpow_lt)))

/-- A decimal is read as the double nearest to it. -/
theorem isNearest_scaled (m : ℕ) (e : ℤ) : IsNearest (scaled m e) (m * 10 ^ e) := by
  rcases Nat.eq_zero_or_pos m with rfl | hm
  · rw [scaled, if_pos rfl, Nat.cast_zero, zero_mul]
    exact isNearest_zero nearest_zero
  obtain ⟨k, hk, hlo, hhi⟩ := length_toDigits hm
  have hbelow : (10 : ℚ) ^ ((k : ℤ) + e) ≤ m * 10 ^ e := by
    rw [zpow_add₀ (by norm_num), zpow_natCast]
    gcongr
    exact_mod_cast hlo
  have habove : (m : ℚ) * 10 ^ e < 10 ^ ((k : ℤ) + 1 + e) := by
    rw [zpow_add₀ (by norm_num)]
    gcongr
    exact_mod_cast hhi
  unfold scaled exponentLimit
  simp only [hk, if_neg hm.ne']
  split_ifs with hlarge hsmall hsign
  · exact isNearest_of_large
      ((zpow_le_zpow_right₀ (by norm_num) (by push_cast at hlarge; omega)).trans hbelow)
  · exact isNearest_of_small (by positivity)
      (habove.le.trans (zpow_le_zpow_right₀ (by norm_num) (by push_cast at hsmall; omega)))
  · obtain ⟨n, rfl⟩ := Int.eq_ofNat_of_zero_le hsign
    have hvalue : decimal (m * Nat.pow 10 n) false 0 = m * 10 ^ (n : ℤ) := by
      have hten : ((Nat.pow 10 n : ℕ) : ℚ) = 10 ^ n := Nat.cast_pow 10 n
      rw [decimal, if_neg Bool.false_ne_true, pow_zero, mul_one, Nat.cast_mul, hten, zpow_natCast]
    rw [Int.toNat_natCast, ← hvalue]
    exact isNearest_ofScientific (Nat.zero_le _)
  · obtain ⟨n, rfl⟩ : ∃ n : ℕ, e = -(n : ℤ) := ⟨(-e).toNat, by omega⟩
    have hvalue : decimal m true n = m * 10 ^ (-(n : ℤ)) := by
      rw [decimal, if_pos rfl, zpow_neg, zpow_natCast, div_eq_mul_inv]
    have hlog : k ≤ m.log2 := (Nat.le_log2 hm.ne').mpr
      ((Nat.pow_le_pow_left (by norm_num) k).trans hlo)
    rw [show (- -(n : ℤ)).toNat = n by omega, ← hvalue]
    exact isNearest_ofScientific (by rw [if_pos rfl]; push_cast at hsmall; omega)

end MidiRig.Decimal
