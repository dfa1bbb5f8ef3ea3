import MidiRig.Proofs.Number.Modulo

/-!
# Doubles that may be infinity

Infinity is above every number, so what lies below something and not below zero is a number
(`has_of_mem`). A product of numbers that are not negative is a number or overflows to infinity
(`Has.mul_of_nonneg`), and what lies below a divisor is its own remainder, also where the divisor is
infinity (`Has.modulo_of_lt`).
-/

namespace MidiRig.Binary64

open Float.Model Float.Model.UnpackedFloat

variable {x y : Float} {v w : ℚ}

theorem compare_of_lt (h : x < y) : x.toModel.unpack.compare y.toModel.unpack = some .lt := by
  have hcompare : (x.toModel.unpack.compare y.toModel.unpack == some .lt) = true :=
    of_decide_eq_true h
  exact beq_iff_eq.mp hcompare

theorem Has.atLeast_of_lt (hx : Has x v) (h : x < y) : AtLeast y v := by
  have hcompare := compare_of_lt h
  rcases has_or y with ⟨w, hy⟩ | ⟨s, hy⟩ | hy
  · exact .inl ⟨w, hy, ((hx.lt_iff hy).mp h).le⟩
  · cases s with
    | positive => exact .inr hy
    | negative =>
      have hnumber := hx.holds
      cases hu : x.toModel.unpack with
      | infinity | notANumber =>
        rw [hu] at hnumber
        exact hnumber.elim
      | zero | finite =>
        rw [hy, hu] at hcompare
        cases hcompare
  · rw [hy] at hcompare
    cases hu : x.toModel.unpack <;> rw [hu] at hcompare <;> cases hcompare

/-- Nothing is above infinity. -/
theorem IsTop.not_lt (hx : IsTop x) : ¬ x < y := by
  intro h
  have hcompare := compare_of_lt h
  rw [hx] at hcompare
  cases hu : y.toModel.unpack with
  | infinity s =>
    rw [hu] at hcompare
    cases s <;> cases hcompare
  | _ =>
    rw [hu] at hcompare
    cases hcompare

theorem Has.not_isTop (hx : Has x v) : ¬ IsTop x := by
  intro htop
  exact (htop ▸ hx.holds : Holds (.infinity .positive) v).elim

/-- Nor is infinity below a number, or equal to it. -/
theorem IsTop.not_le (hx : IsTop x) (hy : Has y w) : ¬ x ≤ y := by
  intro h
  have hcompare : (x.toModel.unpack.compare y.toModel.unpack).any (·.isLE) = true :=
    of_decide_eq_true h
  rw [hx] at hcompare
  have hy := hy.holds
  cases hu : y.toModel.unpack with
  | infinity | notANumber =>
    rw [hu] at hy
    exact hy.elim
  | zero | finite =>
    rw [hu] at hcompare
    cases hcompare

/-- What lies below something and not below zero is a number. -/
theorem has_of_mem (hlo : 0.0 ≤ x) (hlt : x < y) : ∃ v, Has x v ∧ 0 ≤ v ∧ AtLeast y v := by
  rcases has_zero.atLeast_of_le hlo with ⟨v, hx, hv⟩ | htop
  · exact ⟨v, hx, hv, hx.atLeast_of_lt hlt⟩
  · exact absurd hlt htop.not_lt

/-- So is what lies below a number or at it. -/
theorem has_of_le (hlo : 0.0 ≤ x) (hle : x ≤ y) (hy : Has y w) :
    ∃ v, Has x v ∧ 0 ≤ v ∧ AtLeast y v := by
  rcases has_zero.atLeast_of_le hlo with ⟨v, hx, hv⟩ | htop
  · exact ⟨v, hx, hv, hx.atLeast_of_le hle⟩
  · exact absurd hle (htop.not_le hy)

theorem IsTop.mul_top (hx : IsTop x) (hy : IsTop y) : IsTop (x * y) := by
  show (Float.Model.pack (x.toModel.unpack.mul Format.binary64 y.toModel.unpack)).unpack = _
  rw [hx, hy]
  exact unpack_pack_infinity _

theorem IsTop.top_mul (hx : IsTop x) (hy : Has y w) (hw : 0 < w) : IsTop (y * x) := by
  obtain ⟨n, k, hn, hu⟩ := hy.unpack_of_pos hw
  show (Float.Model.pack (y.toModel.unpack.mul Format.binary64 x.toModel.unpack)).unpack = _
  rw [hx, hu]
  exact unpack_pack_infinity _

theorem unpack_pack_notANumber : (Float.Model.pack .notANumber).unpack = .notANumber := rfl

/-- Zero times infinity is no number. -/
theorem mul_top_of_zero (hx : Has x 0) (hy : IsTop y) :
    (x * y).toModel.unpack = .notANumber ∧ (y * x).toModel.unpack = .notANumber := by
  have hzero : ∃ s, x.toModel.unpack = .zero s := by
    have hx := hx.holds
    cases hu : x.toModel.unpack with
    | zero s => exact ⟨s, rfl⟩
    | finite s m e hm =>
      rw [hu] at hx
      have hmag : (0 : ℚ) < m * 2 ^ e := by positivity
      have habs := abs_withSign s hmag.le
      rw [← hx.2, abs_zero] at habs
      exact absurd habs hmag.ne
    | infinity | notANumber =>
      rw [hu] at hx
      exact hx.elim
  obtain ⟨s, hs⟩ := hzero
  constructor
  · show (Float.Model.pack (x.toModel.unpack.mul Format.binary64 y.toModel.unpack)).unpack = _
    rw [hs, hy]
    exact unpack_pack_notANumber
  · show (Float.Model.pack (y.toModel.unpack.mul Format.binary64 x.toModel.unpack)).unpack = _
    rw [hs, hy]
    exact unpack_pack_notANumber

/-- The product of two numbers of which neither is negative, or infinity where it overflows. -/
theorem Has.mul_of_nonneg (hx : Has x v) (hy : Has y w) (hv : 0 ≤ v) (hw : 0 ≤ w) :
    Has (x * y) (nearest (v * w)) ∨ (IsTop (x * y) ∧ beyond ≤ nearest (v * w)) := by
  have hholds := hx.holds.mul hy.holds
  have hnonneg : 0 ≤ nearest (v * w) := nearest_nonneg (mul_nonneg hv hw)
  rcases lt_or_ge (nearest (v * w)) beyond with hfits | hlarge
  · exact .inl (has_ofModel_pack hholds ((abs_of_nonneg hnonneg).symm ▸ hfits))
  · exact .inr ⟨isTop_ofModel_pack hholds hlarge, hlarge⟩

theorem parts_of_isTop (h : IsTop x) : parts x = .infinite false := by
  obtain ⟨negative, hsign, hparts⟩ := parts_of_infinity h
  cases negative with
  | false => exact hparts
  | true => cases hsign

/-- What lies between zero and the divisor is its own remainder. -/
theorem Has.modulo_of_lt (hx : Has x v) (hv : 0 ≤ v) (hlt : x < y) : Has (modulo x y) v := by
  have hremainder : Has (Binary64.remainder x y) v := by
    rcases hx.atLeast_of_lt hlt with ⟨w, hy, -⟩ | hy
    · have hless : v < w := (hx.lt_iff hy).mp hlt
      obtain ⟨r, hr, -, hsame⟩ := hx.remainder hy (hv.trans_lt hless).ne'
      have habs : |v| < |w| := by rwa [abs_of_nonneg hv, abs_of_pos (hv.trans_lt hless)]
      rwa [hsame habs] at hr
    · obtain ⟨negative, m, e, hparts, -⟩ := hx.parts
      have hsame : Binary64.remainder x y = x := by
        unfold Binary64.remainder
        rw [hparts, parts_of_isTop hy]
      rwa [hsame]
  unfold modulo
  rw [if_neg fun hneg => absurd ((hremainder.lt_iff has_zero).mp hneg) (not_lt.mpr hv)]
  exact hremainder

end MidiRig.Binary64
