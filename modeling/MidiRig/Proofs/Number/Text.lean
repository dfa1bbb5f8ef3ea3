import MidiRig.Proofs.Number.Shortest
import MidiRig.Proofs.Number.Whole

/-!
# The text of a double reads back

The shortest decimal of a double is written as digits (`positional_spec`) that are read as the same
double (`readFloat?_text`). There is a point in them just when the double has a fractional part
(`text_spec`), so a reader that asks for a point can be given one.
-/

namespace MidiRig.Shortest

open Binary64

variable {m : ℕ} {q : ℤ}

/-! ## Digits of a decimal -/

theorem toList_zeros (n : ℕ) : (zeros n).toList = List.replicate n '0' := String.toList_ofList

/-- Without idle zeros at the end. -/
def dropZeros (cs : List Char) : List Char := (cs.reverse.dropWhile (· == '0')).reverse

theorem dropZeros_append (cs : List Char) :
    ∃ k, cs = dropZeros cs ++ List.replicate k '0' := by
  have hzeros : ∀ c ∈ cs.reverse.takeWhile (· == '0'), c = '0' := fun c hc =>
    beq_iff_eq.mp (List.mem_takeWhile_imp (p := fun c => c == '0') hc)
  refine ⟨(cs.reverse.takeWhile (· == '0')).length, ?_⟩
  rw [dropZeros, ← List.reverse_replicate, ← List.eq_replicate_of_mem hzeros,
    ← List.reverse_append, List.takeWhile_append_dropWhile, List.reverse_reverse]

/-- Digits behind a point say the same without idle zeros. -/
theorem digitsValue_dropZeros (cs : List Char) :
    (Decimal.digitsValue (dropZeros cs) : ℚ) / 10 ^ (dropZeros cs).length =
      Decimal.digitsValue cs / 10 ^ cs.length := by
  obtain ⟨k, hk⟩ := dropZeros_append cs
  generalize dropZeros cs = shown at hk ⊢
  subst hk
  rw [Decimal.digitsValue_append, Decimal.digitsValue_zeros, List.length_append,
    List.length_replicate, pow_add]
  push_cast
  field_simp
  ring

theorem dropZeros_subset {cs : List Char} {c : Char} (h : c ∈ dropZeros cs) : c ∈ cs := by
  obtain ⟨k, hk⟩ := dropZeros_append cs
  rw [hk]
  exact List.mem_append_left _ h

theorem length_dropZeros_le (cs : List Char) : (dropZeros cs).length ≤ cs.length := by
  obtain ⟨k, hk⟩ := dropZeros_append cs
  have := congrArg List.length hk
  rw [List.length_append] at this
  omega

/-- The digits of a number, filled up with zeros in front. -/
def padded (places n : ℕ) : List Char :=
  List.replicate (places - (Nat.toDigits 10 n).length) '0' ++ Nat.toDigits 10 n

theorem toList_padded (places n : ℕ) :
    (zeros (places - (toString n).length) ++ toString n).toList = padded places n := by
  rw [String.toList_append, toList_zeros, ← String.length_toList, Decimal.toList_toString, padded]

theorem digitsValue_padded (places n : ℕ) : Decimal.digitsValue (padded places n) = n := by
  rw [padded, Decimal.digitsValue_append, Decimal.digitsValue_zeros, Decimal.digitsValue_toDigits,
    Nat.mul_zero, Nat.zero_add]

theorem length_padded {places n : ℕ} (hplaces : 0 < places) (hn : n < 10 ^ places) :
    (padded places n).length = places := by
  have hlength := (Nat.length_toDigits_le_iff (by norm_num) hplaces).mpr hn
  rw [padded, List.length_append, List.length_replicate, Nat.sub_add_cancel hlength]

theorem isDigit_of_mem_padded {places n : ℕ} {c : Char} (h : c ∈ padded places n) :
    c.isDigit = true := by
  rcases List.mem_append.mp h with h | h
  · rw [List.eq_of_mem_replicate h]
    rfl
  · exact Decimal.isDigit_of_mem_toDigits h

/-- A decimal without places behind the point gets zeros. -/
theorem toList_positional_of_nonneg {d : Decimal} {e : ℕ} (hd : 0 < d.digits)
    (he : d.exponent = e) :
    d.positional.toList = Decimal.written (d.digits * 10 ^ e) [] := by
  have hsign : 0 ≤ d.exponent := he ▸ Int.natCast_nonneg e
  rw [Decimal.positional, if_pos hsign, he, Int.toNat_natCast, String.toList_append,
    Decimal.toList_toString, toList_zeros, Decimal.toDigits_append_zeros hd]
  exact (List.append_nil _).symm

/-- Places behind the point are those of the remainder, less the idle zeros. -/
theorem toList_positional_of_neg {d : Decimal} {places : ℕ} (hplaces : 0 < places)
    (he : d.exponent = -places) :
    d.positional.toList = Decimal.written (d.digits / 10 ^ places)
      (dropZeros (padded places (d.digits % 10 ^ places))) := by
  have hten : Nat.pow 10 places = 10 ^ places := rfl
  have hsign : ¬ 0 ≤ d.exponent := by omega
  rw [Decimal.positional, if_neg hsign, he, neg_neg, Int.toNat_natCast]
  simp only [hten, toList_padded]
  show String.toList (if (dropZeros _).isEmpty then _ else _ ++ String.ofList (dropZeros _)) = _
  unfold Decimal.written
  split
  · rw [Decimal.toList_toString, List.append_nil]
  · rw [String.toList_append, String.toList_append, Decimal.toList_toString, String.toList_ofList,
      String.toList_ofList, List.append_assoc]
    rfl

/-- A decimal is written as it is, with no more places than it has. -/
theorem positional_spec {d : Decimal} (hd : 0 < d.digits) :
    ∃ n fraction, d.positional.toList = Decimal.written n fraction ∧
      (∀ c ∈ fraction, c.isDigit = true) ∧
      Decimal.writtenValue n fraction = d.digits * 10 ^ d.exponent ∧
      (fraction.length : ℤ) ≤ max 0 (-d.exponent) := by
  rcases le_or_gt 0 d.exponent with hsign | hsign
  · obtain ⟨e, he⟩ := Int.eq_ofNat_of_zero_le hsign
    refine ⟨_, [], toList_positional_of_nonneg hd he, List.forall_mem_nil _, ?_, le_max_left _ _⟩
    rw [he, Decimal.writtenValue, zpow_natCast]
    simp [Decimal.digitsValue]
  · obtain ⟨places, he⟩ : ∃ places : ℕ, d.exponent = -(places : ℤ) :=
      ⟨(-d.exponent).toNat, by omega⟩
    have hplaces : 0 < places := by omega
    have hlength : (padded places (d.digits % 10 ^ places)).length = places :=
      length_padded hplaces (Nat.mod_lt _ (by positivity))
    refine ⟨_, _, toList_positional_of_neg hplaces he,
      fun c hc => isDigit_of_mem_padded (dropZeros_subset hc), ?_, ?_⟩
    · have hsplit := Nat.div_add_mod d.digits (10 ^ places)
      rw [Decimal.writtenValue, digitsValue_dropZeros, digitsValue_padded, hlength, he, zpow_neg,
        zpow_natCast, eq_mul_inv_iff_mul_eq₀ (by positivity), add_mul,
        div_mul_cancel₀ _ (by positivity), mul_comm]
      exact_mod_cast hsplit
    · have hshort := length_dropZeros_le (padded places (d.digits % 10 ^ places))
      omega

/-- Digits that say a number which rounds to a double are read as that double. -/
theorem readMagnitude?_of_near (h : Canonical m q) (hq : q ≤ 971) (hm : 0 < m) {n : ℕ}
    {fraction : List Char} (hfraction : ∀ c ∈ fraction, c.isDigit = true)
    (hnear : Near m q (Decimal.writtenValue n fraction)) :
    ∃ y, Decimal.readMagnitude? (Decimal.written n fraction) = some y ∧ Has y (m * 2 ^ q) := by
  have hpos := (lowEnd_pos hm).trans_le hnear.le.1
  have hnearest : nearest (Decimal.writtenValue n fraction) = m * 2 ^ q :=
    (nearest_of_nonneg hpos.le).trans (nearestMag_of_near h hm hnear)
  have hlt : (m : ℚ) * 2 ^ q < beyond := by
    rw [← not_le, h.beyond_le_iff]
    omega
  refine ⟨_, Decimal.readMagnitude?_written n hfraction, ?_⟩
  rw [← hnearest, ← Decimal.writtenValue_eq]
  rw [← hnearest, ← Decimal.writtenValue_eq] at hlt
  exact (Decimal.isNearest_scaled _ _).has hlt

/-! ### Whole numbers -/

/-- A whole number is rounded to a whole number. -/
theorem nearestMag_natCast (n : ℕ) : ∃ k : ℕ, nearestMag n = k := by
  rcases Nat.eq_zero_or_pos n with rfl | hpos
  · exact ⟨0, by rw [Nat.cast_zero, nearestMag_zero]⟩
  have hn : (0 : ℚ) < n := by exact_mod_cast hpos
  rcases le_or_gt 0 (place n) with hplace | hplace
  · obtain ⟨p, hp⟩ := Int.eq_ofNat_of_zero_le hplace
    refine ⟨toEven (n / 2 ^ place n) * 2 ^ p, ?_⟩
    unfold nearestMag
    rw [hp, zpow_natCast]
    push_cast
    rfl
  · have hlt : n < 2 ^ 53 := by
      have hbound : (n : ℚ) < 2 ^ (53 : ℤ) := (place_spec hn).1.trans_le
        (zpow_le_zpow_right₀ (by norm_num) (by omega))
      exact_mod_cast hbound
    have hexact := nearestMag_of_places (m := n) (e := 0) hlt (by norm_num)
    rw [zpow_zero, mul_one] at hexact
    exact ⟨n, hexact⟩

/-! ### The double that was written -/

/-- The text of a finite double is a sign and digits; it has a point just when there is something
behind it. These digits, and any others that say the same, are read as the double. -/
structure Written (x : Float) (negative : Bool) (n : ℕ) (fraction : List Char) : Prop where
  digits : ∀ c ∈ fraction, c.isDigit = true
  length : fraction.length ≤ 2048
  whole : fraction = [] ↔ isWhole x = true
  read : ∀ tail : List Char, (∀ c ∈ tail, c.isDigit = true) → tail.length ≤ 2048 →
    Decimal.writtenValue n tail = Decimal.writtenValue n fraction →
    ∃ y, Decimal.readMagnitude? (Decimal.written n tail) = some y ∧
      (if negative then -y else y) = x

/-- The sign of a number. -/
def signText (negative : Bool) : List Char := if negative then ['-'] else []

theorem writtenValue_nil (n : ℕ) : Decimal.writtenValue n [] = n := by
  simp [Decimal.writtenValue, Decimal.digitsValue]

theorem parts_zero (negative : Bool) :
    parts (if negative then -0.0 else 0.0) = .finite negative 0 (-1074) := by
  cases negative <;> decide +kernel

theorem written_zero {x : Float} {negative : Bool} (h : parts x = .finite negative 0 q) :
    Written x negative 0 [] := by
  have hleast : q = -1074 := (canonical_parts h).1.full.resolve_left (by norm_num)
  subst hleast
  refine ⟨List.forall_mem_nil _, Nat.zero_le _, ?_, fun tail htail _ hvalue => ?_⟩
  · refine iff_of_true rfl ?_
    unfold isWhole
    rw [h]
    exact (wholeMag_iff 0 _).mpr ⟨0, by simp⟩
  · have hzero : Decimal.digitsValue (Nat.toDigits 10 0 ++ tail) = 0 := by
      rw [writtenValue_nil, ← Decimal.writtenValue_eq, Nat.cast_zero] at hvalue
      exact_mod_cast (mul_eq_zero.mp hvalue).resolve_right (by positivity)
    refine ⟨0.0, ?_, eq_of_parts ((parts_zero negative).trans h.symm) ?_⟩
    · rw [Decimal.readMagnitude?_written 0 htail, hzero]
      rfl
    · rw [parts_zero]
      exact nofun

theorem written_positional {x : Float} {negative : Bool} (h : parts x = .finite negative m q)
    (hm : 0 < m) : ∃ n fraction, (ofDyadic m q).positional.toList = Decimal.written n fraction ∧
      Written x negative n fraction := by
  obtain ⟨hcanonical, hq⟩ := canonical_parts h
  obtain ⟨hnear, hplaces, hwhole⟩ := found_ofDyadic hcanonical hm
  have hdigits : 0 < (ofDyadic m q).digits := by
    have hpos := (lowEnd_pos hm).trans_le hnear.le.1
    exact_mod_cast (pos_iff_pos_of_mul_pos hpos).mpr (by positivity)
  obtain ⟨n, fraction, htext, hfraction, hvalue, hlength⟩ := positional_spec hdigits
  refine ⟨n, fraction, htext, hfraction, by omega, ?_, ?_⟩
  · have hiff : isWhole x = true ↔ ∃ n : ℕ, (m : ℚ) * 2 ^ q = n := by
      unfold isWhole
      rw [h]
      exact wholeMag_iff m q
    rw [hiff]
    constructor
    · rintro rfl
      obtain ⟨k, hk⟩ := nearestMag_natCast n
      rw [← hvalue, writtenValue_nil] at hnear
      exact ⟨k, by rw [← hk, nearestMag_of_near hcanonical hm hnear]⟩
    · intro hx
      have := hwhole hx
      rw [← List.length_eq_zero_iff]
      omega
  · intro tail htail _ htailValue
    rw [← hvalue, ← htailValue] at hnear
    obtain ⟨y, hread, hy⟩ := readMagnitude?_of_near hcanonical hq hm htail hnear
    refine ⟨y, hread, ?_⟩
    have hx := Has.of_parts h
    have hne : (m : ℚ) * 2 ^ q ≠ 0 := by positivity
    cases negative with
    | false => exact hy.eq_of_ne_zero hx hne
    | true => exact hy.neg.eq_of_ne_zero hx (neg_ne_zero.mpr hne)

theorem text_spec {x : Float} (hx : isFinite x = true) :
    ∃ negative n fraction, (text x).toList = signText negative ++ Decimal.written n fraction ∧
      Written x negative n fraction := by
  unfold isFinite at hx
  split at hx
  · next negative m q h =>
    have hsign : ∀ t : String, (if negative then "-" ++ t else t).toList =
        signText negative ++ t.toList := by
      intro t
      cases negative with
      | false => rfl
      | true => exact String.toList_append
    unfold text
    rw [h]
    simp only [hsign]
    rcases Nat.eq_zero_or_pos m with rfl | hm
    · exact ⟨negative, 0, [], by rw [if_pos rfl]; rfl, written_zero h⟩
    · obtain ⟨n, fraction, htext, hwritten⟩ := written_positional h hm
      exact ⟨negative, n, fraction, by rw [if_neg hm.ne', htext], hwritten⟩
  · cases hx

theorem splitSign_signText (negative : Bool) (n : ℕ) (fraction : List Char) :
    Decimal.splitSign (signText negative ++ Decimal.written n fraction) =
      (negative, Decimal.written n fraction) := by
  cases negative with
  | true => rfl
  | false => exact Decimal.splitSign_toDigits n _

theorem Written.readFloat? {x : Float} {negative : Bool} {n : ℕ} {fraction : List Char}
    (h : Written x negative n fraction) {tail : List Char} (htail : ∀ c ∈ tail, c.isDigit = true)
    (hlength : tail.length ≤ 2048)
    (hvalue : Decimal.writtenValue n tail = Decimal.writtenValue n fraction) :
    Decimal.readFloat? (signText negative ++ Decimal.written n tail) = some x := by
  obtain ⟨y, hread, hy⟩ := h.read tail htail hlength hvalue
  have hname : Decimal.named? (String.ofList ((Decimal.written n tail).map Char.toLower)) = none :=
    Decimal.named?_digits n _
  unfold Decimal.readFloat?
  simp only [splitSign_signText, hname, hread]
  exact congrArg some hy

theorem parts_infinity (negative : Bool) :
    parts (if negative then -infinity else infinity) = .infinite negative := by
  cases negative <;> decide +kernel

theorem eq_infinity {x : Float} {negative : Bool} (h : parts x = .infinite negative) :
    (if negative then -infinity else infinity) = x :=
  eq_of_parts ((parts_infinity negative).trans h.symm) (by rw [parts_infinity]; exact nofun)

theorem toList_text_of_infinite {x : Float} {negative : Bool} (h : parts x = .infinite negative) :
    (text x).toList = signText negative ++ ['i', 'n', 'f'] := by
  unfold text
  rw [h]
  cases negative <;> rfl

/-- The text of a double is read as that double. -/
theorem readFloat?_text {x : Float} (hx : x.isNaN = false) :
    Decimal.readFloat? (text x).toList = some x := by
  cases h : parts x with
  | nan => exact absurd h (isNaN_eq_false_iff_parts.mp hx)
  | finite negative m q =>
    obtain ⟨negative, n, fraction, htext, hwritten⟩ : ∃ negative n fraction, _ :=
      text_spec (x := x) (by unfold isFinite; rw [h])
    rw [htext]
    exact hwritten.readFloat? hwritten.digits hwritten.length rfl
  | infinite negative =>
    rw [toList_text_of_infinite h, ← eq_infinity h]
    cases negative <;> rfl

/-! ## The text of a whole number -/

theorem has_scaled_natCast {k : ℕ} (hk : k < 2 ^ 53) : Has (Decimal.scaled k 0) k := by
  have hvalue : nearest (k * 10 ^ (0 : ℤ)) = k := by
    rw [zpow_zero, mul_one, nearest_natCast hk]
  have h := (Decimal.isNearest_scaled k 0).has
    (hvalue.symm ▸ (le_abs_self _).trans_lt (natCast_lt_beyond hk))
  rwa [hvalue] at h

theorem toList_toString_eq (n : ℤ) :
    (toString n).toList = signText (decide (n < 0)) ++ Decimal.written n.natAbs [] := by
  rw [Decimal.toList_toString_int, signText, Decimal.written]
  simp

/-- A whole number is read as the double that it is, if doubles have enough places for it. -/
theorem readFloat?_toString {n : ℤ} (hn : |n| < 2 ^ 53) :
    ∃ y, Decimal.readFloat? (toString n).toList = some y ∧ Has y n := by
  have habs : n.natAbs < 2 ^ 53 := by
    have : (n.natAbs : ℤ) < 2 ^ 53 := by rwa [Int.natCast_natAbs]
    exact_mod_cast this
  have hscaled := has_scaled_natCast habs
  have hread : Decimal.readMagnitude? (Decimal.written n.natAbs []) =
      some (Decimal.scaled n.natAbs 0) := by
    rw [Decimal.readMagnitude?_written _ (List.forall_mem_nil _), List.append_nil,
      Decimal.digitsValue_toDigits]
    rfl
  have hname : Decimal.named? (String.ofList ((Decimal.written n.natAbs []).map Char.toLower)) =
      none := Decimal.named?_digits _ _
  refine ⟨if n < 0 then -Decimal.scaled n.natAbs 0 else Decimal.scaled n.natAbs 0, ?_, ?_⟩
  · rw [toList_toString_eq]
    unfold Decimal.readFloat?
    simp only [splitSign_signText, hname, hread, decide_eq_true_eq]
    rfl
  · split
    · next hneg =>
      have hvalue := hscaled.neg
      rwa [Nat.cast_natAbs, abs_of_neg hneg, Int.cast_neg, neg_neg] at hvalue
    · next hnonneg => rwa [Nat.cast_natAbs, abs_of_nonneg (not_lt.mp hnonneg)] at hscaled

/-! ## Characters of numbers -/

/-- What numbers are written with. -/
def isNumeral (c : Char) : Bool := c.isDigit || ['-', '.', 'i', 'n', 'f'].contains c

theorem isNumeral_signText {negative : Bool} {c : Char} (h : c ∈ signText negative) :
    isNumeral c = true := by
  cases negative with
  | false => exact absurd h List.not_mem_nil
  | true =>
    rw [List.mem_singleton.mp h]
    rfl

theorem isNumeral_written {n : ℕ} {fraction : List Char}
    (hfraction : ∀ c ∈ fraction, c.isDigit = true) {c : Char}
    (h : c ∈ Decimal.written n fraction) : isNumeral c = true := by
  have hdigit : ∀ {c : Char}, c.isDigit = true → isNumeral c = true := by
    intro c hc
    rw [isNumeral, hc, Bool.true_or]
  rcases List.mem_append.mp h with h | h
  · exact hdigit (Decimal.isDigit_of_mem_toDigits h)
  · split at h
    · exact absurd h List.not_mem_nil
    · rcases List.mem_cons.mp h with rfl | h
      · rfl
      · exact hdigit (hfraction c h)

theorem isNumeral_toString {n : ℤ} {c : Char} (h : c ∈ (toString n).toList) :
    isNumeral c = true := by
  rw [toList_toString_eq] at h
  rcases List.mem_append.mp h with h | h
  · exact isNumeral_signText h
  · exact isNumeral_written (List.forall_mem_nil _) h

theorem isNumeral_text {x : Float} (hx : x.isNaN = false) {c : Char} (h : c ∈ (text x).toList) :
    isNumeral c = true := by
  cases hparts : parts x with
  | nan => exact absurd hparts (isNaN_eq_false_iff_parts.mp hx)
  | finite negative m q =>
    obtain ⟨negative, n, fraction, htext, hwritten⟩ : ∃ negative n fraction, _ :=
      text_spec (x := x) (by unfold isFinite; rw [hparts])
    rw [htext] at h
    rcases List.mem_append.mp h with h | h
    · exact isNumeral_signText h
    · exact isNumeral_written hwritten.digits h
  | infinite negative =>
    rw [toList_text_of_infinite hparts] at h
    rcases List.mem_append.mp h with h | h
    · exact isNumeral_signText h
    · have hall : ['i', 'n', 'f'].all isNumeral = true := rfl
      exact List.all_eq_true.mp hall c h

end MidiRig.Shortest
