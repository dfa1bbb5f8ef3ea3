import MidiRig.Proofs.Number.Equal
import MidiRig.Proofs.Number.Infinite

/-!
# The order of all doubles

Numbers and infinities lie on one line (`Lies`), on which doubles are compared (`Lies.lt_iff`,
`Lies.le_iff`). A NaN lies nowhere, and is neither above nor below anything. A sum is NaN if one of
its parts is (`isNaN_add_of_isNaN`), and otherwise only if both are infinite (`isNaN_add`).
-/

namespace MidiRig.Binary64

open Float.Model Float.Model.UnpackedFloat

/-- Where a double lies on the line of numbers with both infinities. -/
inductive Lies (x : Float) : WithBot (WithTop ℚ) → Prop where
  | number {v : ℚ} (h : Has x v) : Lies x ((v : WithTop ℚ) : WithBot (WithTop ℚ))
  | top (h : x.toModel.unpack = .infinity .positive) :
    Lies x ((⊤ : WithTop ℚ) : WithBot (WithTop ℚ))
  | bottom (h : x.toModel.unpack = .infinity .negative) : Lies x ⊥

variable {x y : Float} {p q : WithBot (WithTop ℚ)}

theorem number_lt_top (v : ℚ) :
    ((v : WithTop ℚ) : WithBot (WithTop ℚ)) < ((⊤ : WithTop ℚ) : WithBot (WithTop ℚ)) :=
  WithBot.coe_lt_coe.mpr (WithTop.coe_lt_top v)

theorem isNaN_eq_false_iff_lies : x.isNaN = false ↔ ∃ p, Lies x p := by
  constructor
  · intro h
    rcases has_or x with ⟨v, hx⟩ | ⟨s, hx⟩ | hx
    · exact ⟨_, .number hx⟩
    · cases s with
      | positive => exact ⟨_, .top hx⟩
      | negative => exact ⟨_, .bottom hx⟩
    · exact absurd hx (isNaN_eq_false_iff.mp h)
  · rintro ⟨p, h⟩
    rw [isNaN_eq_false_iff]
    intro hnan
    cases h with
    | number h => exact (hnan ▸ h.holds : Holds .notANumber _)
    | top h | bottom h => rw [hnan] at h; cases h

theorem compare_top {u : UnpackedFloat} {v : ℚ} (h : Holds u v) :
    u.compare (.infinity .positive) = some .lt ∧
      (UnpackedFloat.infinity .positive).compare u = some .gt := by
  cases u with
  | infinity | notANumber => exact h.elim
  | zero t => exact ⟨rfl, rfl⟩
  | finite t => cases t <;> exact ⟨rfl, rfl⟩

theorem compare_bottom {u : UnpackedFloat} {v : ℚ} (h : Holds u v) :
    u.compare (.infinity .negative) = some .gt ∧
      (UnpackedFloat.infinity .negative).compare u = some .lt := by
  cases u with
  | infinity | notANumber => exact h.elim
  | zero t => exact ⟨rfl, rfl⟩
  | finite t => cases t <;> exact ⟨rfl, rfl⟩

namespace Lies

theorem compare_eq (hx : Lies x p) (hy : Lies y q) :
    x.toModel.unpack.compare y.toModel.unpack = some (cmp p q) := by
  cases hx with
  | number hx =>
    cases hy with
    | number hy =>
      rw [hx.holds.compare_eq hy.holds]
      have hmono : StrictMono fun v : ℚ => ((v : WithTop ℚ) : WithBot (WithTop ℚ)) :=
        WithBot.coe_strictMono.comp WithTop.coe_strictMono
      exact congrArg some (hmono.cmp_map_eq _ _).symm
    | top hy =>
      rw [hy, (compare_top hx.holds).1]
      exact congrArg some ((cmp_eq_lt_iff _ _).mpr (number_lt_top _)).symm
    | bottom hy =>
      rw [hy, (compare_bottom hx.holds).1]
      exact congrArg some ((cmp_eq_gt_iff _ _).mpr (WithBot.bot_lt_coe _)).symm
  | top hx =>
    cases hy with
    | number hy =>
      rw [hx, (compare_top hy.holds).2]
      exact congrArg some ((cmp_eq_gt_iff _ _).mpr (number_lt_top _)).symm
    | top hy =>
      rw [hx, hy]
      exact congrArg some (cmp_self_eq_eq _).symm
    | bottom hy =>
      rw [hx, hy]
      exact congrArg some ((cmp_eq_gt_iff _ _).mpr (WithBot.bot_lt_coe _)).symm
  | bottom hx =>
    cases hy with
    | number hy =>
      rw [hx, (compare_bottom hy.holds).2]
      exact congrArg some ((cmp_eq_lt_iff _ _).mpr (WithBot.bot_lt_coe _)).symm
    | top hy =>
      rw [hx, hy]
      exact congrArg some ((cmp_eq_lt_iff _ _).mpr (WithBot.bot_lt_coe _)).symm
    | bottom hy =>
      rw [hx, hy]
      exact congrArg some (cmp_self_eq_eq _).symm

theorem lt_iff (hx : Lies x p) (hy : Lies y q) : x < y ↔ p < q := by
  show decide ((x.toModel.unpack.compare y.toModel.unpack == some .lt) = true) = true ↔ _
  rw [hx.compare_eq hy, decide_eq_true_iff, beq_iff_eq, Option.some_inj, cmp_eq_lt_iff]

theorem le_iff (hx : Lies x p) (hy : Lies y q) : x ≤ y ↔ p ≤ q := by
  show decide ((x.toModel.unpack.compare y.toModel.unpack).any (·.isLE) = true) = true ↔ _
  rw [hx.compare_eq hy, decide_eq_true_iff, Option.any_some, Ordering.isLE_iff_ne_gt, ← not_lt,
    ← cmp_eq_gt_iff]

end Lies

/-! ## Without saying where -/

theorem isNaN_iff : x.isNaN = true ↔ x.toModel.unpack = .notANumber := by
  rw [← Bool.not_eq_false, isNaN_eq_false_iff, not_not]

theorem compare_notANumber (u : UnpackedFloat) :
    u.compare .notANumber = none ∧ UnpackedFloat.compare .notANumber u = none := by
  cases u <;> exact ⟨rfl, rfl⟩

theorem isNaN_of_compare {o : Ordering}
    (h : x.toModel.unpack.compare y.toModel.unpack = some o) :
    x.isNaN = false ∧ y.isNaN = false := by
  rw [isNaN_eq_false_iff, isNaN_eq_false_iff]
  constructor
  · intro hnan
    rw [hnan, (compare_notANumber _).2] at h
    cases h
  · intro hnan
    rw [hnan, (compare_notANumber _).1] at h
    cases h

theorem isNaN_of_lt (h : x < y) : x.isNaN = false ∧ y.isNaN = false :=
  isNaN_of_compare (compare_of_lt h)

theorem isNaN_of_le (h : x ≤ y) : x.isNaN = false ∧ y.isNaN = false := by
  have hcompare : (x.toModel.unpack.compare y.toModel.unpack).any (·.isLE) = true :=
    of_decide_eq_true h
  cases ho : x.toModel.unpack.compare y.toModel.unpack with
  | none =>
    rw [ho] at hcompare
    cases hcompare
  | some o => exact isNaN_of_compare ho

protected theorem le_of_not_lt (hx : x.isNaN = false) (hy : y.isNaN = false) (h : ¬ x < y) :
    y ≤ x := by
  obtain ⟨p, hx⟩ := isNaN_eq_false_iff_lies.mp hx
  obtain ⟨q, hy⟩ := isNaN_eq_false_iff_lies.mp hy
  rw [hx.lt_iff hy, not_lt] at h
  exact (hy.le_iff hx).mpr h

protected theorem le_refl (hx : x.isNaN = false) : x ≤ x := by
  obtain ⟨p, hx⟩ := isNaN_eq_false_iff_lies.mp hx
  exact (hx.le_iff hx).mpr le_rfl

protected theorem le_of_lt (h : x < y) : x ≤ y := by
  obtain ⟨p, hx⟩ := isNaN_eq_false_iff_lies.mp (isNaN_of_lt h).1
  obtain ⟨q, hy⟩ := isNaN_eq_false_iff_lies.mp (isNaN_of_lt h).2
  exact (hx.le_iff hy).mpr ((hx.lt_iff hy).mp h).le

protected theorem le_trans {z : Float} (h : x ≤ y) (h' : y ≤ z) : x ≤ z := by
  obtain ⟨p, hx⟩ := isNaN_eq_false_iff_lies.mp (isNaN_of_le h).1
  obtain ⟨q, hy⟩ := isNaN_eq_false_iff_lies.mp (isNaN_of_le h).2
  obtain ⟨r, hz⟩ := isNaN_eq_false_iff_lies.mp (isNaN_of_le h').2
  exact (hx.le_iff hz).mpr (((hx.le_iff hy).mp h).trans ((hy.le_iff hz).mp h'))

/-- The smaller of two is not above the first, unless that is NaN. -/
theorem smaller_le (hx : x.isNaN = false) (y : Float) : smaller x y ≤ x := by
  unfold smaller
  rw [hx, if_neg Bool.false_ne_true]
  split
  · next h => exact Binary64.le_of_lt h
  · exact Binary64.le_refl hx

theorem le_larger (hx : x.isNaN = false) (y : Float) : x ≤ larger x y := by
  unfold larger
  rw [hx, if_neg Bool.false_ne_true]
  split
  · next h => exact Binary64.le_of_lt h
  · exact Binary64.le_refl hx

theorem isFinite_of_le {z : Float} (hx : isFinite x = true) (hz : isFinite z = true) (h : x ≤ y)
    (h' : y ≤ z) : isFinite y = true := by
  obtain ⟨p, hx⟩ := isFinite_iff.mp hx
  obtain ⟨r, hz⟩ := isFinite_iff.mp hz
  obtain ⟨q, hy⟩ := isNaN_eq_false_iff_lies.mp (isNaN_of_le h).2
  have hle := ((Lies.number hx).le_iff hy).mp h
  have hle' := (hy.le_iff (.number hz)).mp h'
  cases hy with
  | number hy => exact isFinite_iff.mpr ⟨_, hy⟩
  | top hy => exact absurd hle' (not_le.mpr (number_lt_top r))
  | bottom hy => exact absurd hle (not_le.mpr (WithBot.bot_lt_coe _))

/-! ## Sums -/

theorem isNaN_ofModel_pack {u : UnpackedFloat} {v : ℚ} (h : Holds u v) :
    (Float.ofModel (.pack u)).isNaN = false := by
  rw [isNaN_eq_false_iff]
  show (Float.Model.pack u).unpack ≠ .notANumber
  cases u with
  | infinity | notANumber => exact h.elim
  | zero s =>
    rw [unpack_pack_zero]
    exact nofun
  | finite s m e hm =>
    rcases lt_or_ge 971 e with hlarge | hfits
    · rw [pack_overflow s hm hlarge, unpack_pack_infinity]
      exact nofun
    · rw [unpack_pack_finite s hm h.1 hfits]
      exact nofun

theorem add_infinity {u : UnpackedFloat} {v : ℚ} (h : Holds u v) (s : Sign) :
    u.add Format.binary64 (.infinity s) = .infinity s ∧
      (UnpackedFloat.infinity s).add Format.binary64 u = .infinity s := by
  cases u with
  | infinity | notANumber => exact h.elim
  | zero | finite => exact ⟨rfl, rfl⟩

theorem isNaN_of_infinity {s : Sign} (h : x.toModel.unpack = .infinity s) : x.isNaN = false := by
  rw [isNaN_eq_false_iff, h]
  exact nofun

/-- Two doubles that are not NaN have a sum if one of them is finite. -/
theorem isNaN_add (hx : x.isNaN = false) (hy : y.isNaN = false)
    (h : isFinite x = true ∨ isFinite y = true) : (x + y).isNaN = false := by
  have hsum : (x + y).toModel.unpack =
      (Float.Model.pack (x.toModel.unpack.add Format.binary64 y.toModel.unpack)).unpack := rfl
  rcases has_or x with ⟨v, hx⟩ | ⟨s, hx⟩ | hnan
  · rcases has_or y with ⟨w, hy⟩ | ⟨t, hy⟩ | hnan
    · exact isNaN_ofModel_pack (hx.holds.add hy.holds)
    · refine isNaN_of_infinity (s := t) ?_
      rw [hsum, hy, (add_infinity hx.holds t).1, unpack_pack_infinity]
    · exact absurd hnan (isNaN_eq_false_iff.mp hy)
  · rcases has_or y with ⟨w, hy⟩ | ⟨t, hy⟩ | hnan
    · refine isNaN_of_infinity (s := s) ?_
      rw [hsum, hx, (add_infinity hy.holds s).2, unpack_pack_infinity]
    · exfalso
      rcases h with h | h
      · obtain ⟨v, h⟩ := isFinite_iff.mp h
        exact (hx ▸ h.holds : Holds (.infinity s) v)
      · obtain ⟨v, h⟩ := isFinite_iff.mp h
        exact (hy ▸ h.holds : Holds (.infinity t) v)
    · exact absurd hnan (isNaN_eq_false_iff.mp hy)
  · exact absurd hnan (isNaN_eq_false_iff.mp hx)

theorem add_notANumber (u : UnpackedFloat) :
    u.add Format.binary64 .notANumber = .notANumber ∧
      UnpackedFloat.add Format.binary64 .notANumber u = .notANumber := by
  cases u <;> exact ⟨rfl, rfl⟩

/-- NaN and anything have no sum. -/
theorem isNaN_add_of_isNaN (h : x.isNaN = true ∨ y.isNaN = true) : (x + y).isNaN = true := by
  rw [isNaN_iff, isNaN_iff] at h
  rw [isNaN_iff]
  show (Float.Model.pack (x.toModel.unpack.add Format.binary64 y.toModel.unpack)).unpack = _
  rcases h with h | h
  · rw [h, (add_notANumber _).2, unpack_pack_notANumber]
  · rw [h, (add_notANumber _).1, unpack_pack_notANumber]

theorem mul_notANumber (u : UnpackedFloat) :
    u.mul Format.binary64 .notANumber = .notANumber := by
  cases u <;> rfl

/-- Nor has anything a product with NaN. -/
theorem isNaN_mul_of_isNaN (h : y.isNaN = true) : (x * y).isNaN = true := by
  rw [isNaN_iff] at h ⊢
  show (Float.Model.pack (x.toModel.unpack.mul Format.binary64 y.toModel.unpack)).unpack = _
  rw [h, mul_notANumber, unpack_pack_notANumber]

end MidiRig.Binary64
