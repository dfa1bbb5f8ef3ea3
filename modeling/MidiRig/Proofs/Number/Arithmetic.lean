import MidiRig.Proofs.Number.Value

/-!
# Arithmetic on doubles

Each operation gives the double nearest to the exact result, as long as that is not too large
(`Has.add`, `Has.sub`, `Has.mul`, `Has.div`). The rules for unpacked doubles come first; they have
no upper end.
-/

namespace MidiRig.Binary64

open Float.Model Float.Model.UnpackedFloat

/-! ## Normalizing -/

theorem place_eq {m : ℕ} (hm : 0 < m) (e : ℤ) :
    Format.binary64.targetExponent (totalExponent m e) = place (m * 2 ^ e) := by
  refine targetExponent_of_pos ?_ hm
  rw [mul_div_cancel_right₀ _ (by positivity), Nat.floor_natCast]

theorem holds_round (s : Sign) {m : ℕ} (hm : 0 < m) (e : ℤ) :
    Holds (UnpackedFloat.round Format.binary64 s m e) (withSign s (nearestMag (m * 2 ^ e))) := by
  have hq : (0 : ℚ) < m * 2 ^ e := by positivity
  unfold UnpackedFloat.round decreaseExponent
  simp only [place_eq hm]
  refine holds_roundWithAccuracy s hq ?_ (by omega)
  show _ - _ = (0 : ℚ)
  rw [Nat.shiftLeft_eq, zpow_sub₀ (by norm_num), zpow_natCast]
  push_cast
  field_simp
  ring

theorem holds_normalize (z e : ℤ) (s : Sign) :
    Holds (UnpackedFloat.normalize Format.binary64 z e s) (nearest (z * 2 ^ e)) := by
  have hpow : (0 : ℚ) < 2 ^ e := by positivity
  unfold UnpackedFloat.normalize
  split
  · next h =>
    have hneg := Int.compare_eq_lt.mp h
    have hround := holds_round .negative (show 0 < (-z).toNat by omega) e
    have hcast : (((-z).toNat : ℕ) : ℚ) = -z := by
      rw [← Int.cast_natCast, Int.toNat_of_nonneg (by omega), Int.cast_neg]
    rw [hcast, neg_mul] at hround
    have hlt : (z : ℚ) * 2 ^ e < 0 := mul_neg_of_neg_of_pos (by exact_mod_cast hneg) hpow
    rwa [nearest, if_pos hlt]
  · next h =>
    rw [Int.compare_eq_eq.mp h, Int.cast_zero, zero_mul, nearest_zero]
    rfl
  · next h =>
    have hpos := Int.compare_eq_gt.mp h
    have hround := holds_round .positive (show 0 < z.toNat by omega) e
    have hcast : ((z.toNat : ℕ) : ℚ) = z := by
      rw [← Int.cast_natCast, Int.toNat_of_nonneg (by omega)]
    rw [hcast] at hround
    have hle : (0 : ℚ) ≤ z * 2 ^ e := mul_nonneg (by exact_mod_cast hpos.le) hpow.le
    rwa [nearest_of_nonneg hle]

/-! ## Sums -/

theorem decreaseExponent_value (s : Sign) (m : ℕ) {e k : ℤ} (hk : k ≤ e) :
    ((s.apply (decreaseExponent m e k).1 : ℤ) : ℚ) * 2 ^ k = withSign s (m * 2 ^ e) := by
  obtain ⟨n, rfl⟩ : ∃ n : ℕ, e = k + n := ⟨(e - k).toNat, by omega⟩
  have hmag : (((decreaseExponent m (k + n) k).1 : ℕ) : ℚ) * 2 ^ k = m * 2 ^ (k + n) := by
    unfold decreaseExponent
    simp only [add_sub_cancel_left, Int.toNat_natCast, Nat.shiftLeft_eq]
    rw [zpow_add₀ (by norm_num), zpow_natCast]
    push_cast
    ring
  rw [← hmag]
  cases s
  · simp [Sign.apply, withSign]
  · simp [Sign.apply, withSign]

namespace Holds

variable {u w : UnpackedFloat} {p q : ℚ}

theorem neg (h : Holds u p) : Holds u.neg (-p) := by
  cases u with
  | zero => exact neg_eq_zero.mpr h
  | finite s m e hm =>
    obtain ⟨hcanonical, rfl⟩ := h
    refine ⟨hcanonical, ?_⟩
    cases s
    · exact neg_neg _
    · rfl
  | infinity | notANumber => exact h.elim

theorem add (hu : Holds u p) (hw : Holds w q) :
    Holds (u.add Format.binary64 w) (nearest (p + q)) := by
  cases u with
  | infinity | notANumber => exact hu.elim
  | zero s =>
    obtain rfl : p = 0 := hu
    rw [zero_add, hw.nearest_eq]
    cases w with
    | infinity | notANumber => exact hw.elim
    | zero t =>
      unfold UnpackedFloat.add
      simp only
      split <;> exact hw
    | finite => exact hw
  | finite s m e hm =>
    cases w with
    | infinity | notANumber => exact hw.elim
    | zero t =>
      obtain rfl : q = 0 := hw
      rw [add_zero, hu.nearest_eq]
      exact hu
    | finite t n k hn =>
      have hsum := holds_normalize (s.apply (decreaseExponent m e (min e k)).1 +
        t.apply (decreaseExponent n k (min e k)).1) (min e k) .positive
      rw [Int.cast_add, add_mul, decreaseExponent_value s m (min_le_left e k),
        decreaseExponent_value t n (min_le_right e k), ← hu.2, ← hw.2] at hsum
      exact hsum

end Holds

theorem sub_eq_add (u w : UnpackedFloat) :
    u.sub Format.binary64 w = u.add Format.binary64 w.neg := by
  have happly : ∀ (t : Sign) (z : ℤ), -t.apply z = (-t).apply z := by
    intro t z
    cases t
    · exact neg_neg z
    · rfl
  cases u with
  | notANumber => rfl
  | infinity s => cases w <;> rfl
  | zero s => cases w <;> rfl
  | finite s m e hm =>
    cases w with
    | finite t n k hn =>
      unfold UnpackedFloat.sub UnpackedFloat.add UnpackedFloat.neg
      simp only [sub_eq_add_neg, happly]
    | _ => rfl

theorem Holds.sub {u w : UnpackedFloat} {p q : ℚ} (hu : Holds u p) (hw : Holds w q) :
    Holds (u.sub Format.binary64 w) (nearest (p - q)) := by
  rw [sub_eq_add, sub_eq_add_neg]
  exact hu.add hw.neg

/-! ## Products -/

theorem withSign_mul (s t : Sign) (p q : ℚ) :
    withSign (s * t) (p * q) = withSign s p * withSign t q := by
  cases s <;> cases t
  · exact (neg_mul_neg p q).symm
  · exact neg_mul_eq_neg_mul p q
  · exact neg_mul_eq_mul_neg p q
  · rfl

theorem withSign_div (s t : Sign) (p q : ℚ) :
    withSign (s / t) (p / q) = withSign s p / withSign t q := by
  cases s <;> cases t
  · exact (neg_div_neg_eq p q).symm
  · exact (neg_div q p).symm
  · exact (div_neg p).symm
  · rfl

theorem nearest_withSign (s : Sign) {q : ℚ} (hq : 0 ≤ q) :
    nearest (withSign s q) = withSign s (nearestMag q) := by
  cases s
  · exact (nearest_neg q).trans (congrArg Neg.neg (nearest_of_nonneg hq))
  · exact nearest_of_nonneg hq

/-- A mantissa with all its places reaches the place of the number. -/
theorem le_place {m : ℕ} {e : ℤ} (hm : 0 < m) (h : 2 ^ 52 ≤ m ∨ e ≤ -1074) :
    e ≤ place (m * 2 ^ e) := by
  rw [← place_eq hm, targetExponent_eq, totalExponent]
  rcases h with h | h
  · have := (Nat.le_log2 hm.ne').mpr h
    omega
  · omega

theorem holds_mul (s t : Sign) {m n : ℕ} {e k : ℤ} (hm : 0 < m) (hn : 0 < n)
    (h : 2 ^ 52 ≤ m * n ∨ e + k ≤ -1074) :
    Holds (UnpackedFloat.mul Format.binary64 (.finite s m e hm) (.finite t n k hn))
      (nearest (withSign s (m * 2 ^ e) * withSign t (n * 2 ^ k))) := by
  have hvalue : (m : ℚ) * 2 ^ e * (n * 2 ^ k) = ((m * n : ℕ) : ℚ) * 2 ^ (e + k) := by
    rw [zpow_add₀ (by norm_num)]
    push_cast
    ring
  rw [← withSign_mul, nearest_withSign _ (by positivity), hvalue]
  refine holds_roundWithAccuracy _ (by positivity) ?_ (le_place (Nat.mul_pos hm hn) h)
  show _ - _ = (0 : ℚ)
  rw [mul_div_cancel_right₀ _ (by positivity), sub_self]

/-! ## Quotients -/

theorem fits_fraction {n d : ℕ} (h : n < d) : Fits (accuracyOfFraction n d) (n / d) := by
  have hd : (0 : ℚ) < d := by exact_mod_cast Nat.zero_lt_of_lt h
  unfold accuracyOfFraction
  split_ifs with hn
  · rw [hn]
    exact div_eq_zero_iff.mpr (.inl Nat.cast_zero)
  · have hpos : (0 : ℚ) < n := by exact_mod_cast Nat.pos_of_ne_zero hn
    have hlt : (n : ℚ) < d := by exact_mod_cast h
    rcases lt_trichotomy (2 * n) d with hhalf | hhalf | hhalf
    · rw [Nat.compare_eq_lt.mpr hhalf]
      have : (2 * n : ℚ) < d := by exact_mod_cast hhalf
      exact ⟨by positivity, by rw [div_lt_iff₀ hd]; linarith⟩
    · rw [Nat.compare_eq_eq.mpr hhalf]
      have : (2 * n : ℚ) = d := by exact_mod_cast hhalf
      show _ = (1 : ℚ) / 2
      rw [div_eq_iff hd.ne']
      linarith
    · rw [Nat.compare_eq_gt.mpr hhalf]
      have : (d : ℚ) < 2 * n := by exact_mod_cast hhalf
      exact ⟨by rw [lt_div_iff₀ hd]; linarith, by rw [div_lt_one hd]; exact hlt⟩

/-- The exponent of the quotient goes as far as its place. -/
theorem divCore_le_place {m n : ℕ} (e k : ℤ) (hm : 0 < m) (hn : 0 < n) :
    (divCore Format.binary64 m e n k).2.1 ≤ place (m * 2 ^ e / (n * 2 ^ k)) := by
  have hq : (0 : ℚ) < m * 2 ^ e / (n * 2 ^ k) := by positivity
  have hlog : m.log2 + e - (n.log2 + 1 + k) ≤ Int.log 2 ((m : ℚ) * 2 ^ e / (n * 2 ^ k)) := by
    refine (Int.zpow_le_iff_le_log (by norm_num) hq).mp ?_
    have hlo : (2 : ℚ) ^ m.log2 ≤ m := by exact_mod_cast Nat.log2_self_le hm.ne'
    have hhi : (n : ℚ) ≤ 2 ^ (n.log2 + 1) := by exact_mod_cast (Nat.lt_log2_self (n := n)).le
    rw [Nat.cast_ofNat, zpow_sub₀ (by norm_num), zpow_add₀ (by norm_num) (m.log2 : ℤ),
      zpow_add₀ (by norm_num) ((n.log2 : ℤ) + 1), zpow_natCast, ← Nat.cast_succ, zpow_natCast]
    gcongr
  refine (min_le_right _ _).trans ?_
  rw [targetExponent_eq, totalExponent, totalExponent]
  unfold place
  omega

theorem divCore_fits {m n : ℕ} (e k : ℤ) (hn : 0 < n) :
    Fits (divCore Format.binary64 m e n k).2.2
      (m * 2 ^ e / (n * 2 ^ k) / 2 ^ (divCore Format.binary64 m e n k).2.1 -
        (divCore Format.binary64 m e n k).1) := by
  unfold divCore
  generalize hj : min (e - k) _ = j
  simp only
  obtain ⟨i, hi⟩ : ∃ i : ℕ, e - k - j = i := ⟨(e - k - j).toNat, by omega⟩
  have hvalue : (m : ℚ) * 2 ^ e / (n * 2 ^ k) / 2 ^ j = (m * 2 ^ i : ℕ) / n := by
    rw [show e = i + j + k by omega, zpow_add₀ (by norm_num), zpow_add₀ (by norm_num),
      zpow_natCast]
    push_cast
    field_simp
  have hdiv : ((m * 2 ^ i / n : ℕ) : ℚ) * n + (m * 2 ^ i % n : ℕ) = (m * 2 ^ i : ℕ) := by
    exact_mod_cast Nat.div_add_mod' (m * 2 ^ i) n
  have hrest : ((m * 2 ^ i : ℕ) : ℚ) / n - (m * 2 ^ i / n : ℕ) = (m * 2 ^ i % n : ℕ) / n := by
    have hnq : (n : ℚ) ≠ 0 := by exact_mod_cast hn.ne'
    rw [← hdiv]
    field_simp
    ring
  rw [hi, Int.toNat_natCast, Nat.shiftLeft_eq, hvalue, hrest]
  exact fits_fraction (Nat.mod_lt _ hn)

theorem holds_div (s t : Sign) {m n : ℕ} {e k : ℤ} (hm : 0 < m) (hn : 0 < n) :
    Holds (UnpackedFloat.div Format.binary64 (.finite s m e hm) (.finite t n k hn))
      (nearest (withSign s (m * 2 ^ e) / withSign t (n * 2 ^ k))) := by
  rw [← withSign_div, nearest_withSign _ (by positivity)]
  exact holds_roundWithAccuracy _ (by positivity) (divCore_fits e k hn)
    (divCore_le_place e k hm hn)

namespace Holds

variable {u w : UnpackedFloat} {p q : ℚ}

theorem mul (hu : Holds u p) (hw : Holds w q) :
    Holds (u.mul Format.binary64 w) (nearest (p * q)) := by
  cases u with
  | infinity | notANumber => exact hu.elim
  | zero s =>
    obtain rfl : p = 0 := hu
    rw [zero_mul, nearest_zero]
    cases w with
    | infinity | notANumber => exact hw.elim
    | zero | finite => exact rfl
  | finite s m e hm =>
    cases w with
    | infinity | notANumber => exact hw.elim
    | zero t =>
      obtain rfl : q = 0 := hw
      rw [mul_zero, nearest_zero]
      exact rfl
    | finite t n k hn =>
      obtain ⟨hu, rfl⟩ := hu
      obtain ⟨hw, rfl⟩ := hw
      refine holds_mul s t hm hn ?_
      -- both are subnormal, or one of them has all its places
      rcases hu.full with hfull | rfl
      · exact .inl (hfull.trans (Nat.le_mul_of_pos_right m hn))
      · rcases hw.full with hfull | rfl
        · exact .inl (hfull.trans (Nat.le_mul_of_pos_left n hm))
        · exact .inr (by norm_num)

theorem div (hu : Holds u p) (hw : Holds w q) (hq : q ≠ 0) :
    Holds (u.div Format.binary64 w) (nearest (p / q)) := by
  cases w with
  | infinity | notANumber => exact hw.elim
  | zero t => exact absurd hw hq
  | finite t n k hn =>
    cases u with
    | infinity | notANumber => exact hu.elim
    | zero s =>
      obtain rfl : p = 0 := hu
      rw [zero_div, nearest_zero]
      exact rfl
    | finite s m e hm =>
      obtain ⟨-, rfl⟩ := hu
      obtain ⟨-, rfl⟩ := hw
      exact holds_div s t hm hn

theorem abs (hu : Holds u p) : Holds u.abs |p| := by
  cases u with
  | infinity | notANumber => exact hu.elim
  | zero s => exact abs_eq_zero.mpr hu
  | finite s m e hm =>
    obtain ⟨hcanonical, rfl⟩ := hu
    exact ⟨hcanonical, abs_withSign s (by positivity)⟩

end Holds

/-! ## Doubles -/

theorem abs_nearest (q : ℚ) : |nearest q| = nearest |q| := by
  rcases le_total 0 q with h | h
  · rw [abs_of_nonneg h, abs_of_nonneg (nearest_nonneg h)]
  · rw [abs_of_nonpos h, nearest_neg, abs_of_nonpos]
    exact neg_nonneg.mp (nearest_neg q ▸ nearest_nonneg (neg_nonneg.mpr h))

theorem nearest_of_places {m : ℕ} {e : ℤ} (hm : m < 2 ^ 53) (he : -1074 ≤ e) :
    nearest (m * 2 ^ e) = m * 2 ^ e :=
  (nearest_of_nonneg (by positivity)).trans (nearestMag_of_places hm he)

theorem nearest_natCast {n : ℕ} (hn : n < 2 ^ 53) : nearest n = n := by
  simpa using nearest_of_places (e := 0) hn (by norm_num)

theorem nearest_two_zpow {e : ℤ} (he : -1074 ≤ e) : nearest (2 ^ e) = 2 ^ e := by
  have := nearest_of_places (m := 1) (by norm_num) he
  rwa [Nat.cast_one, one_mul] at this

theorem nearest_two_pow (n : ℕ) : nearest (2 ^ n) = 2 ^ n := by
  have := nearest_two_zpow (e := n) (by omega)
  rwa [zpow_natCast] at this

theorem abs_nearest_le {q : ℚ} {n : ℕ} (h : |q| ≤ 2 ^ n) : |nearest q| ≤ 2 ^ n := by
  rw [abs_nearest, ← nearest_two_pow]
  exact nearest_mono h

/-- Numbers up to half of what doubles reach do not overflow. -/
theorem abs_nearest_lt {q : ℚ} (h : |q| ≤ 2 ^ 1023) : |nearest q| < beyond :=
  (abs_nearest_le h).trans_lt (two_pow_lt_beyond (by norm_num))

theorem natCast_lt_beyond {n : ℕ} (hn : n < 2 ^ 53) : |(n : ℚ)| < beyond := by
  have hlt : (n : ℚ) < 2 ^ 53 := by exact_mod_cast hn
  rw [Nat.abs_cast]
  exact hlt.trans (two_pow_lt_beyond (by norm_num))

namespace Has

variable {x y : Float} {p q : ℚ}

theorem add (hx : Has x p) (hy : Has y q) (h : |nearest (p + q)| < beyond) :
    Has (x + y) (nearest (p + q)) :=
  has_ofModel_pack (hx.holds.add hy.holds) h

theorem sub (hx : Has x p) (hy : Has y q) (h : |nearest (p - q)| < beyond) :
    Has (x - y) (nearest (p - q)) :=
  has_ofModel_pack (hx.holds.sub hy.holds) h

theorem mul (hx : Has x p) (hy : Has y q) (h : |nearest (p * q)| < beyond) :
    Has (x * y) (nearest (p * q)) :=
  has_ofModel_pack (hx.holds.mul hy.holds) h

theorem div (hx : Has x p) (hy : Has y q) (hq : q ≠ 0) (h : |nearest (p / q)| < beyond) :
    Has (x / y) (nearest (p / q)) :=
  has_ofModel_pack (hx.holds.div hy.holds hq) h

theorem neg (hx : Has x p) : Has (-x) (-p) :=
  has_ofModel_pack hx.holds.neg (abs_neg p ▸ hx.lt_beyond)

theorem abs (hx : Has x p) : Has x.abs |p| :=
  has_ofModel_pack hx.holds.abs ((abs_abs p).symm ▸ hx.lt_beyond)

theorem of_parts {negative : Bool} {m : ℕ} {e : ℤ} (h : parts x = .finite negative m e) :
    Has x (withSign (signOf negative) (m * 2 ^ e)) := by
  constructor
  rw [unpack_eq_parts, h]
  simp only [Parts.unpacked]
  split
  · next hzero =>
    rw [hzero]
    cases negative <;> simp [Holds, withSign, signOf]
  · exact ⟨(canonical_parts h).1, rfl⟩

end Has

/-! ## Lower bounds

What overflows upward becomes infinity, so a lower bound survives. -/

theorem Has.unpack_of_pos {x : Float} {p : ℚ} (h : Has x p) (hp : 0 < p) :
    ∃ m e, ∃ hm : 0 < m, x.toModel.unpack = .finite .positive m e hm := by
  have h := h.holds
  cases hu : x.toModel.unpack with
  | zero s => exact absurd (hu ▸ h : Holds (.zero s) p) hp.ne'
  | finite s m e hm =>
    rw [hu] at h
    cases s with
    | positive => exact ⟨m, e, hm, rfl⟩
    | negative =>
      have hneg : (0 : ℚ) ≤ m * 2 ^ e := by positivity
      rw [h.2] at hp
      exact absurd hp (not_lt.mpr (neg_nonpos.mpr hneg))
  | infinity | notANumber =>
    rw [hu] at h
    exact h.elim

namespace IsTop

variable {x y : Float} {q : ℚ}

theorem mul (hx : IsTop x) (hy : Has y q) (hq : 0 < q) : IsTop (x * y) := by
  obtain ⟨n, k, hn, hu⟩ := hy.unpack_of_pos hq
  show (Float.Model.pack (x.toModel.unpack.mul Format.binary64 y.toModel.unpack)).unpack = _
  rw [hx, hu]
  exact unpack_pack_infinity _

theorem div (hx : IsTop x) (hy : Has y q) (hq : 0 < q) : IsTop (x / y) := by
  obtain ⟨n, k, hn, hu⟩ := hy.unpack_of_pos hq
  show (Float.Model.pack (x.toModel.unpack.div Format.binary64 y.toModel.unpack)).unpack = _
  rw [hx, hu]
  exact unpack_pack_infinity _

end IsTop

theorem Has.div_top {x y : Float} {p : ℚ} (hx : Has x p) (hy : IsTop y) : Has (x / y) 0 := by
  have hzero : ∃ s, x.toModel.unpack.div Format.binary64 y.toModel.unpack = .zero s := by
    have hx := hx.holds
    rw [hy]
    cases hu : x.toModel.unpack with
    | zero s => exact ⟨s / .positive, rfl⟩
    | finite s => exact ⟨s / .positive, rfl⟩
    | infinity | notANumber =>
      rw [hu] at hx
      exact hx.elim
  obtain ⟨s, hs⟩ := hzero
  constructor
  show Holds (Float.Model.pack (x.toModel.unpack.div Format.binary64 y.toModel.unpack)).unpack 0
  rw [hs, unpack_pack_zero]
  rfl

namespace AtLeast

variable {x y : Float} {p q c : ℚ}

/-- A double that is not negative and stands for a result, unless that overflows. -/
theorem of_holds {u : UnpackedFloat} {v : ℚ} (h : Holds u v) (hv : 0 ≤ v) (hle : q ≤ v) :
    AtLeast (.ofModel (.pack u)) q := by
  rcases lt_or_ge v beyond with hfits | hlarge
  · exact .inl ⟨v, has_ofModel_pack h ((abs_of_nonneg hv).symm ▸ hfits), hle⟩
  · exact .inr (isTop_ofModel_pack h hlarge)

theorem mul (hx : AtLeast x p) (hy : Has y q) (hp : 0 ≤ p) (hq : 0 < q) :
    AtLeast (x * y) (nearest (p * q)) := by
  rcases hx with ⟨v, hx, hv⟩ | hx
  · have hnonneg : 0 ≤ v := hp.trans hv
    exact of_holds (hx.holds.mul hy.holds) (nearest_nonneg (by positivity))
      (nearest_mono (by gcongr))
  · exact .inr (hx.mul hy hq)

theorem div (hx : AtLeast x p) (hy : Has y q) (hp : 0 ≤ p) (hq : 0 < q) (hc : q ≤ c) :
    AtLeast (x / y) (nearest (p / c)) := by
  rcases hx with ⟨v, hx, hv⟩ | hx
  · have hnonneg : 0 ≤ v := hp.trans hv
    exact of_holds (hx.holds.div hy.holds hq.ne') (nearest_nonneg (by positivity))
      (nearest_mono (by gcongr))
  · exact .inr (hx.div hy hq)

theorem mono (hx : AtLeast x p) (h : q ≤ p) : AtLeast x q :=
  hx.imp_left fun ⟨v, hv, hle⟩ => ⟨v, hv, h.trans hle⟩

end AtLeast

end MidiRig.Binary64
