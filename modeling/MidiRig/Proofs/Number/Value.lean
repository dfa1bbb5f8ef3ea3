import MidiRig.Number.Binary64
import MidiRig.Proofs.Number.Rounding

/-!
# Doubles and their values

`Has x v` says that the double `x` is the number `v`. An unpacked double in canonical form is the
value of a double unless it is too large (`has_ofModel_pack`), each double unpacks to that form
(`canonical_unpack`), and doubles compare as their values do (`Has.le_iff`, `Has.lt_iff`).
-/

namespace MidiRig.Binary64

open Float.Model Float.Model.UnpackedFloat

/-! ## Fields -/

theorem toNat_implicit (m : BitVec 52) : (1#1 ++ m).toNat = 2 ^ 52 + m.toNat := by
  rw [BitVec.toNat_append, ← Nat.shiftLeft_add_eq_or_of_lt m.isLt]
  simp [Nat.shiftLeft_eq]

theorem unpack_normal (s : Sign) {e : BitVec 11} (m : BitVec 52) (hfin : e ≠ -1#_) (he : e ≠ 0#_) :
    UnpackedFloat.unpack Format.binary64 (packComponents Format.binary64 s e m) =
      .finite s (2 ^ 52 + m.toNat) (e.toNat - 1075) (Nat.add_pos_left (Nat.two_pow_pos 52) _) := by
  unfold UnpackedFloat.unpack
  simp only [unpackMantissa_packComponents, unpackExponent_packComponents,
    unpackSign_packComponents, Sign.ofBitVec_toBitVec, if_neg hfin, if_neg he, toNat_implicit]
  rfl

theorem unpack_subnormal (s : Sign) {m : BitVec 52} (hm : 0 < m.toNat) :
    UnpackedFloat.unpack Format.binary64 (packComponents Format.binary64 s 0#_ m) =
      .finite s m.toNat (-1074) hm := by
  have hne : m ≠ 0#_ := by
    rintro rfl
    cases hm
  unfold UnpackedFloat.unpack
  simp only [unpackMantissa_packComponents, unpackExponent_packComponents,
    unpackSign_packComponents, Sign.ofBitVec_toBitVec, dif_neg hne]
  rfl

/-! ## Packing -/

/-- Least number beyond all doubles, if exponents had no end. -/
@[irreducible]
def beyond : ℚ := 2 ^ 1024

theorem two_pow_lt_beyond {n : ℕ} (h : n < 1024) : 2 ^ n < beyond := by
  unfold beyond
  exact pow_lt_pow_right₀ (by norm_num) h

theorem beyond_pos : 0 < beyond := by
  unfold beyond
  positivity

theorem unpack_pack_infinity (s : Sign) :
    (Float.Model.pack (.infinity s)).unpack = .infinity s := by
  cases s <;> rfl

theorem unpack_pack_zero (s : Sign) : (Float.Model.pack (.zero s)).unpack = .zero s := by
  cases s <;> rfl

theorem unpack_pack_finite (s : Sign) {m : ℕ} {e : ℤ} (hm : 0 < m) (h : Canonical m e)
    (he : e ≤ 971) : (Float.Model.pack (.finite s m e hm)).unpack = .finite s m e hm := by
  obtain ⟨hplaces, hleast, hfull⟩ := h
  have hfield : ¬ 2 ^ 11 ≤ (e + 1023 + 52).toNat + 1 := by omega
  show UnpackedFloat.unpack _ (UnpackedFloat.pack _ _) = _
  unfold UnpackedFloat.pack
  by_cases hnormal : 2 ^ 52 ≤ m
  · have hlog : m.log2 + 1 = 53 := by
      have hlo := (Nat.le_log2 hm.ne').mpr hnormal
      have hhi := (Nat.log2_lt hm.ne').mpr hplaces
      omega
    have hexponent : (BitVec.ofNat 11 (e + 1023 + 52).toNat).toNat = (e + 1023 + 52).toNat := by
      rw [BitVec.toNat_ofNat, Nat.mod_eq_of_lt (by omega)]
    have hmantissa : (BitVec.ofNat 52 m).toNat = m - 2 ^ 52 := by
      rw [BitVec.toNat_ofNat]
      omega
    have hne : ∀ k : ℕ, k = 0 ∨ k = 2047 →
        BitVec.ofNat 11 (e + 1023 + 52).toNat ≠ BitVec.ofNat 11 k := by
      intro k hk heq
      have := congrArg BitVec.toNat heq
      rw [hexponent, BitVec.toNat_ofNat] at this
      omega
    show UnpackedFloat.unpack _ (if 2 ^ 11 ≤ (e + 1023 + 52).toNat + 1 then _ else
      if m.log2 + 1 = 53 then _ else _) = _
    rw [if_neg hfield, if_pos hlog]
    refine (unpack_normal s _ (hne 2047 (.inr rfl)) (hne 0 (.inl rfl))).trans ?_
    congr 1
    · show 2 ^ 52 + (BitVec.ofNat 52 m).toNat = m
      omega
    · rw [hexponent]
      omega
  · have hlog : ¬ m.log2 + 1 = 53 := by
      have := (Nat.log2_lt hm.ne').mpr (not_le.mp hnormal)
      omega
    have hmantissa : (BitVec.ofNat 52 m).toNat = m := by
      rw [BitVec.toNat_ofNat, Nat.mod_eq_of_lt (not_le.mp hnormal)]
    show UnpackedFloat.unpack _ (if 2 ^ 11 ≤ (e + 1023 + 52).toNat + 1 then _ else
      if m.log2 + 1 = 53 then _ else _) = _
    rw [if_neg hfield, if_neg hlog]
    refine (unpack_subnormal s (hmantissa.symm ▸ hm)).trans ?_
    congr 1
    exact (hfull.resolve_left hnormal).symm

/-- Too large an exponent overflows. -/
theorem pack_overflow (s : Sign) {m : ℕ} {e : ℤ} (hm : 0 < m) (he : 971 < e) :
    Float.Model.pack (.finite s m e hm) = Float.Model.pack (.infinity s) := by
  have hfield : 2 ^ 11 ≤ (e + 1023 + 52).toNat + 1 := by omega
  have hpack : UnpackedFloat.pack Format.binary64 (.finite s m e hm) =
      UnpackedFloat.pack Format.binary64 (.infinity s) := by
    show (if 2 ^ 11 ≤ (e + 1023 + 52).toNat + 1 then _ else _) = _
    rw [if_pos hfield]
    rfl
  unfold Float.Model.pack
  simp only [hpack]

/-! ## The parts of a double -/

def signOf (negative : Bool) : Sign := if negative then .negative else .positive

def Parts.unpacked : Parts → UnpackedFloat
  | .nan => .notANumber
  | .infinite negative => .infinity (signOf negative)
  | .finite negative m e =>
    if h : m = 0 then .zero (signOf negative)
    else .finite (signOf negative) m e (Nat.pos_of_ne_zero h)

theorem toNat_unpackMantissa (b : BitVec 64) :
    (@unpackMantissa Format.binary64 b).toNat = b.toNat % 2 ^ 52 := by
  unfold unpackMantissa
  rw [BitVec.toNat_cast, BitVec.extractLsb_toNat]
  rfl

theorem toNat_unpackExponent (b : BitVec 64) :
    (@unpackExponent Format.binary64 b).toNat = b.toNat / 2 ^ 52 % 2 ^ 11 := by
  unfold unpackExponent
  rw [BitVec.toNat_cast, BitVec.extractLsb_toNat, Nat.shiftRight_eq_div_pow]
  rfl

theorem ofBitVec_unpackSign (b : BitVec 64) :
    Sign.ofBitVec (@unpackSign Format.binary64 b) = signOf (b.toNat / 2 ^ 63 == 1) := by
  have hsign : (@unpackSign Format.binary64 b).toNat = b.toNat / 2 ^ 63 := by
    unfold unpackSign
    rw [BitVec.toNat_cast, BitVec.extractLsb_toNat, Nat.shiftRight_eq_div_pow]
    have := b.isLt
    show b.toNat / 2 ^ 63 % 2 = _
    omega
  have hlt := (@unpackSign Format.binary64 b).isLt
  unfold Sign.ofBitVec signOf
  simp only [← hsign, beq_iff_eq, ← BitVec.toNat_inj, BitVec.toNat_ofNat]
  split_ifs <;> first | rfl | omega

/-- Sign, exponent and mantissa are the same fields of the bits. -/
theorem unpack_eq_parts (x : Float) : x.toModel.unpack = (parts x).unpacked := by
  have hmantissa : (@unpackMantissa Format.binary64 x.toModel.toBits.toBitVec).toNat =
    x.toBits.toNat % hiddenBit := toNat_unpackMantissa _
  have hexponent : (@unpackExponent Format.binary64 x.toModel.toBits.toBitVec).toNat =
    x.toBits.toNat / hiddenBit % Nat.pow 2 11 := toNat_unpackExponent _
  have hsign : Sign.ofBitVec (@unpackSign Format.binary64 x.toModel.toBits.toBitVec) =
    signOf (x.toBits.toNat / Nat.pow 2 63 == 1) := ofBitVec_unpackSign _
  unfold Float.Model.unpack UnpackedFloat.unpack parts
  simp only [hsign, ← BitVec.toNat_inj, hexponent, hmantissa]
  show (if _ = 2047 then if _ = 0 then _ else _ else if _ = 0 then dite (_ = 0) _ _ else _) = _
  split_ifs with hfin hfraction hfield hzero
  · rfl
  · rfl
  · simp only [Parts.unpacked, dif_pos hzero]
  · simp only [Parts.unpacked, dif_neg hzero, hfield]
    rfl
  · have hne : ¬ x.toBits.toNat % hiddenBit + hiddenBit = 0 := by
      have : hiddenBit = 2 ^ 52 := rfl
      omega
    simp only [Parts.unpacked, dif_neg hne]
    congr 1
    · exact (toNat_implicit _).trans (by rw [hmantissa, add_comm]; rfl)
    · unfold minExponent
      show _ - ((1023 : ℤ) + 52) = _
      ring

/-- Infinity is known by its parts. -/
theorem parts_of_infinity {x : Float} {s : Sign} (h : x.toModel.unpack = .infinity s) :
    ∃ negative, signOf negative = s ∧ parts x = .infinite negative := by
  rw [unpack_eq_parts] at h
  cases hparts : parts x with
  | nan =>
    rw [hparts] at h
    cases h
  | infinite negative =>
    rw [hparts] at h
    exact ⟨negative, UnpackedFloat.infinity.inj h, rfl⟩
  | finite negative m e =>
    rw [hparts] at h
    simp only [Parts.unpacked] at h
    split at h <;> cases h

theorem canonical_parts {x : Float} {negative : Bool} {m : ℕ} {e : ℤ}
    (h : parts x = .finite negative m e) : Canonical m e ∧ e ≤ 971 := by
  unfold parts at h
  simp only at h
  have hfraction := Nat.mod_lt x.toBits.toNat (show 0 < hiddenBit by decide)
  have hfield := Nat.mod_lt (x.toBits.toNat / hiddenBit) (show 0 < Nat.pow 2 11 by decide)
  have hbit : hiddenBit = 2 ^ 52 := rfl
  have hpow : Nat.pow 2 11 = 2048 := rfl
  split at h
  · split at h <;> cases h
  · next hfin =>
    split at h
    · cases h
      exact ⟨⟨by omega, by decide, .inr rfl⟩, by decide⟩
    · cases h
      unfold minExponent
      exact ⟨⟨by omega, by omega, .inl (by omega)⟩, by omega⟩

theorem canonical_unpack {x : Float} {s : Sign} {m : ℕ} {e : ℤ} {hm : 0 < m}
    (h : x.toModel.unpack = .finite s m e hm) : Canonical m e ∧ e ≤ 971 := by
  rw [unpack_eq_parts] at h
  cases hparts : parts x with
  | nan | infinite =>
    rw [hparts] at h
    cases h
  | finite negative n k =>
    rw [hparts] at h
    simp only [Parts.unpacked] at h
    split at h
    · cases h
    · cases h
      exact canonical_parts hparts

/-! ## Values -/

namespace Holds

variable {u w : UnpackedFloat} {p q : ℚ}

theorem unique (hp : Holds u p) (hq : Holds u q) : p = q := by
  cases u with
  | zero => exact hp.trans hq.symm
  | finite => exact hp.2.trans hq.2.symm
  | infinity | notANumber => exact hp.elim

theorem nearest_eq (h : Holds u p) : nearest p = p := by
  cases u with
  | zero => exact h.symm ▸ nearest_zero
  | finite s m e hm =>
    obtain ⟨hcanonical, rfl⟩ := h
    have hmag : nearest (m * 2 ^ e) = m * 2 ^ e :=
      (nearest_of_nonneg (by positivity)).trans (nearestMag_of_canonical hcanonical)
    cases s
    · exact (nearest_neg _).trans (congrArg Neg.neg hmag)
    · exact hmag
  | infinity | notANumber => exact h.elim

end Holds

/-- A double is a number. -/
structure Has (x : Float) (v : ℚ) : Prop where
  holds : Holds x.toModel.unpack v

/-- Infinity, above all numbers. -/
def IsTop (x : Float) : Prop := x.toModel.unpack = .infinity .positive

theorem abs_withSign (s : Sign) {q : ℚ} (hq : 0 ≤ q) : |withSign s q| = q := by
  cases s
  · exact (abs_neg q).trans (abs_of_nonneg hq)
  · exact abs_of_nonneg hq

/-- An exponent is beyond those of doubles just when the number is. -/
theorem Canonical.beyond_le_iff {m : ℕ} {e : ℤ} (h : Canonical m e) :
    beyond ≤ m * 2 ^ e ↔ 971 < e := by
  unfold beyond
  constructor
  · intro hle
    have hlt : (m : ℚ) * 2 ^ e < 2 ^ (53 + e) := by
      rw [zpow_add₀ (by norm_num)]
      gcongr
      exact_mod_cast h.places
    have := hle.trans_lt hlt
    rw [← zpow_natCast, zpow_lt_zpow_iff_right₀ (by norm_num)] at this
    push_cast at this
    omega
  · intro he
    have hfull : 2 ^ 52 ≤ m := h.full.resolve_right (by omega)
    calc (2 : ℚ) ^ (52 + 972) = (2 ^ 52 : ℕ) * 2 ^ (972 : ℤ) := by
          rw [pow_add, Nat.cast_pow, Nat.cast_ofNat, zpow_ofNat]
      _ ≤ m * 2 ^ e := by
        gcongr
        · norm_num
        · omega

namespace Has

variable {x y : Float} {p q : ℚ}

theorem unique (hp : Has x p) (hq : Has x q) : p = q := hp.holds.unique hq.holds

theorem nearest_eq (h : Has x p) : nearest p = p := h.holds.nearest_eq

theorem lt_beyond (h : Has x p) : |p| < beyond := by
  have h := h.holds
  cases hu : x.toModel.unpack with
  | zero =>
    rw [hu] at h
    rw [show p = 0 from h, abs_zero]
    exact beyond_pos
  | finite s m e hm =>
    rw [hu] at h
    obtain ⟨hcanonical, rfl⟩ := h
    rw [abs_withSign s (by positivity), ← not_le, hcanonical.beyond_le_iff]
    exact not_lt.mpr (canonical_unpack hu).2
  | infinity | notANumber =>
    rw [hu] at h
    exact h.elim

end Has

/-- A number that is not too large is that of the double it is packed into. -/
theorem has_ofModel_pack {u : UnpackedFloat} {v : ℚ} (h : Holds u v) (hv : |v| < beyond) :
    Has (.ofModel (.pack u)) v := by
  constructor
  show Holds (Float.Model.pack u).unpack v
  cases u with
  | zero s => rwa [unpack_pack_zero]
  | finite s m e hm =>
    obtain ⟨hcanonical, rfl⟩ := h
    rw [abs_withSign s (by positivity), ← not_le, hcanonical.beyond_le_iff] at hv
    rw [unpack_pack_finite s hm hcanonical (not_lt.mp hv)]
    exact ⟨hcanonical, rfl⟩
  | infinity | notANumber => exact h.elim

/-- One that is too large becomes infinity. -/
theorem isTop_ofModel_pack {u : UnpackedFloat} {v : ℚ} (h : Holds u v) (hv : beyond ≤ v) :
    IsTop (.ofModel (.pack u)) := by
  have hpos : 0 < v := beyond_pos.trans_le hv
  cases u with
  | zero s => exact absurd h hpos.ne'
  | finite s m e hm =>
    obtain ⟨hcanonical, rfl⟩ := h
    cases s with
    | negative =>
      have : (0 : ℚ) ≤ m * 2 ^ e := by positivity
      exact absurd hpos (not_lt.mpr (neg_nonpos.mpr this))
    | positive =>
      unfold IsTop
      rw [pack_overflow _ _ (hcanonical.beyond_le_iff.mp hv), unpack_pack_infinity]
  | infinity | notANumber => exact h.elim

/-! ## Order -/

/-- Of two doubles in canonical form the one with the larger exponent is larger. -/
theorem Canonical.lt_of_lt {m n : ℕ} {e k : ℤ} (hm : Canonical m e) (hn : Canonical n k)
    (h : e < k) : (m : ℚ) * 2 ^ e < n * 2 ^ k := by
  have hfull : 2 ^ 52 ≤ n := hn.full.resolve_right (by have := hm.least; omega)
  calc (m : ℚ) * 2 ^ e < (2 ^ 53 : ℕ) * 2 ^ e := by
        gcongr
        exact hm.places
    _ = (2 ^ 52 : ℕ) * 2 ^ (e + 1) := by
        rw [zpow_add_one₀ (by norm_num)]
        push_cast
        ring
    _ ≤ n * 2 ^ k := by
        gcongr
        · norm_num
        · omega

theorem Canonical.cmp_eq {m n : ℕ} {e k : ℤ} (hm : Canonical m e) (hn : Canonical n k) :
    (compare e k).then (compare m n) = cmp ((m : ℚ) * 2 ^ e) (n * 2 ^ k) := by
  rcases lt_trichotomy e k with h | rfl | h
  · rw [Int.compare_eq_lt.mpr h, (cmp_eq_lt_iff _ _).mpr (hm.lt_of_lt hn h)]
    rfl
  · have hpow : (0 : ℚ) < 2 ^ e := by positivity
    have hscale : StrictMono fun k : ℕ => (k : ℚ) * 2 ^ e := fun a b hab =>
      mul_lt_mul_of_pos_right (Nat.cast_lt.mpr hab) hpow
    rw [Int.compare_eq_eq.mpr rfl]
    exact (cmp_eq_compare m n).symm.trans (hscale.cmp_map_eq m n).symm
  · rw [Int.compare_eq_gt.mpr h, (cmp_eq_gt_iff _ _).mpr (hn.lt_of_lt hm h)]
    rfl

theorem Holds.compare_eq {u w : UnpackedFloat} {p q : ℚ} (hu : Holds u p) (hw : Holds w q) :
    u.compare w = some (cmp p q) := by
  cases u with
  | infinity | notANumber => exact hu.elim
  | zero s =>
    obtain rfl : p = 0 := hu
    cases w with
    | infinity | notANumber => exact hw.elim
    | zero t =>
      obtain rfl : q = 0 := hw
      cases s <;> exact congrArg some (cmp_self_eq_eq _).symm
    | finite t n k hn =>
      obtain ⟨-, rfl⟩ := hw
      have hpos : (0 : ℚ) < n * 2 ^ k := by positivity
      cases t
      · exact congrArg some ((cmp_eq_gt_iff _ _).mpr (neg_neg_of_pos hpos)).symm
      · exact congrArg some ((cmp_eq_lt_iff _ _).mpr hpos).symm
  | finite s m e hm =>
    obtain ⟨hcanonical, rfl⟩ := hu
    have hposm : (0 : ℚ) < m * 2 ^ e := by positivity
    cases w with
    | infinity | notANumber => exact hw.elim
    | zero t =>
      obtain rfl : q = 0 := hw
      cases s
      · exact congrArg some ((cmp_eq_lt_iff _ _).mpr (neg_neg_of_pos hposm)).symm
      · exact congrArg some ((cmp_eq_gt_iff _ _).mpr hposm).symm
    | finite t n k hn =>
      obtain ⟨hcanonical', rfl⟩ := hw
      have hposn : (0 : ℚ) < n * 2 ^ k := by positivity
      have hmag := hcanonical.cmp_eq hcanonical'
      cases s <;> cases t
      · have hneg : StrictAnti (Neg.neg : ℚ → ℚ) := fun _ _ => neg_lt_neg
        refine congrArg some ?_
        rw [hmag, cmp_swap]
        exact (hneg.cmp_map_eq _ _).symm
      · exact congrArg some ((cmp_eq_lt_iff _ _).mpr (by simp only [withSign]; linarith)).symm
      · exact congrArg some ((cmp_eq_gt_iff _ _).mpr (by simp only [withSign]; linarith)).symm
      · exact congrArg some hmag

theorem Has.lt_iff {x y : Float} {p q : ℚ} (hx : Has x p) (hy : Has y q) : x < y ↔ p < q := by
  show decide ((x.toModel.unpack.compare y.toModel.unpack == some .lt) = true) = true ↔ _
  rw [hx.holds.compare_eq hy.holds, decide_eq_true_iff, beq_iff_eq, Option.some_inj, cmp_eq_lt_iff]

theorem Has.le_iff {x y : Float} {p q : ℚ} (hx : Has x p) (hy : Has y q) : x ≤ y ↔ p ≤ q := by
  show decide ((x.toModel.unpack.compare y.toModel.unpack).any (·.isLE) = true) = true ↔ _
  rw [hx.holds.compare_eq hy.holds, decide_eq_true_iff, Option.any_some,
    Ordering.isLE_iff_ne_gt, ← not_lt, ← cmp_eq_gt_iff]

theorem Has.larger {x y : Float} {p q : ℚ} (hx : Has x p) (hy : Has y q) :
    Has (larger x y) (max p q) := by
  have hnan : x.isNaN = false := by
    show x.toModel.unpack.isNaN = false
    cases hu : x.toModel.unpack with
    | notANumber => exact (hu ▸ hx.holds : Holds .notANumber p).elim
    | _ => rfl
  unfold Binary64.larger
  simp only [hx.lt_iff hy, hnan, Bool.false_eq_true, if_false]
  split
  · next hlt => rwa [max_eq_right hlt.le]
  · next hle => rwa [max_eq_left (not_lt.mp hle)]

/-- A double is a number, an infinity or neither. -/
theorem has_or (x : Float) :
    (∃ v, Has x v) ∨ (∃ s, x.toModel.unpack = .infinity s) ∨ x.toModel.unpack = .notANumber := by
  cases hu : x.toModel.unpack with
  | zero => exact .inl ⟨0, ⟨hu ▸ rfl⟩⟩
  | finite s m e hm =>
    have hvalue : Holds (.finite s m e hm) (withSign s (m * 2 ^ e)) :=
      ⟨(canonical_unpack hu).1, rfl⟩
    exact .inl ⟨_, ⟨hu ▸ hvalue⟩⟩
  | infinity s => exact .inr (.inl ⟨s, rfl⟩)
  | notANumber => exact .inr (.inr rfl)

/-- A double is not less than a number. Infinity is above all numbers. -/
def AtLeast (x : Float) (q : ℚ) : Prop := (∃ v, Has x v ∧ q ≤ v) ∨ IsTop x

theorem Has.atLeast_of_le {x y : Float} {p : ℚ} (hx : Has x p) (hle : x ≤ y) : AtLeast y p := by
  have hcompare : (x.toModel.unpack.compare y.toModel.unpack).any (·.isLE) = true :=
    of_decide_eq_true hle
  rcases has_or y with ⟨q, hy⟩ | ⟨s, hy⟩ | hy
  · exact .inl ⟨q, hy, (hx.le_iff hy).mp hle⟩
  · cases s with
    | positive => exact .inr hy
    | negative =>
      rw [hy] at hcompare
      have hx := hx.holds
      cases hu : x.toModel.unpack <;> rw [hu] at hx hcompare <;>
        first | exact hx.elim | cases hcompare
  · rw [hy] at hcompare
    cases hu : x.toModel.unpack <;> rw [hu] at hcompare <;> cases hcompare

end MidiRig.Binary64
