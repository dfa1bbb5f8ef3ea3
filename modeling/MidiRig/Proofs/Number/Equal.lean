import MidiRig.Proofs.Number.Modulo

/-!
# Which doubles are the same

A double is known by its parts (`eq_of_parts`), so two doubles with one value are the same unless
they are zeros (`Has.eq_of_ne_zero`). All but those that are no numbers equal themselves
(`beq_self_iff`), and those that equal each other are the same but for the sign of a zero
(`eq_or_zero_of_beq`).
-/

namespace MidiRig.Binary64

open Float.Model Float.Model.UnpackedFloat

variable {x y : Float} {p : ℚ}

/-! ## Bits -/

theorem eq_of_toBits (h : x.toBits.toNat = y.toBits.toNat) : x = y := by
  obtain ⟨⟨b, hb⟩⟩ := x
  obtain ⟨⟨c, hc⟩⟩ := y
  obtain rfl : b = c := UInt64.toNat_inj.mp h
  rfl

/-- Sign, exponent field and fraction field. -/
def Parts.fields : Parts → Bool × ℕ × ℕ
  | .nan => (false, 2047, 1)
  | .infinite negative => (negative, 2047, 0)
  | .finite negative m e =>
    if m < hiddenBit then (negative, 0, m)
    else (negative, (e - minExponent).toNat + 1, m - hiddenBit)

theorem fields_parts (hn : parts x ≠ .nan) :
    (parts x).fields = (x.toBits.toNat / 2 ^ 63 == 1, x.toBits.toNat / 2 ^ 52 % 2 ^ 11,
      x.toBits.toNat % 2 ^ 52) := by
  have hbit : hiddenBit = 2 ^ 52 := rfl
  have hfield : Nat.pow 2 11 = 2 ^ 11 := rfl
  have hsign : Nat.pow 2 63 = 2 ^ 63 := rfl
  have hfraction := Nat.mod_lt x.toBits.toNat (show 0 < 2 ^ 52 by norm_num)
  unfold parts at hn ⊢
  simp only [hbit, hfield, hsign] at hn ⊢
  generalize x.toBits.toNat = b at *
  split at hn
  · next htop =>
    rw [if_pos htop]
    split at hn
    · next hzero => rw [if_pos hzero, Parts.fields, htop, hzero]
    · exact absurd rfl hn
  · next htop =>
    rw [if_neg htop]
    split
    · next hzero => simp only [Parts.fields, hbit, if_pos hfraction, hzero]
    · next hzero =>
      have hlarge : ¬ b % 2 ^ 52 + 2 ^ 52 < 2 ^ 52 := by omega
      simp only [Parts.fields, hbit, if_neg hlarge, Prod.mk.injEq, true_and]
      omega

theorem eq_of_parts (h : parts x = parts y) (hn : parts x ≠ .nan) : x = y := by
  refine eq_of_toBits ?_
  have hfields := congrArg Parts.fields h
  rw [fields_parts hn, fields_parts (h ▸ hn), Prod.mk.injEq, Prod.mk.injEq, Bool.eq_iff_iff,
    beq_iff_eq, beq_iff_eq] at hfields
  have hx : x.toBits.toNat < 2 ^ 64 := UInt64.toNat_lt _
  have hy : y.toBits.toNat < 2 ^ 64 := UInt64.toNat_lt _
  omega

/-! ## Values -/

theorem isNaN_eq_false_iff : x.isNaN = false ↔ x.toModel.unpack ≠ .notANumber := by
  have hnan : x.isNaN = x.toModel.unpack.isNaN := rfl
  rw [hnan]
  cases x.toModel.unpack with
  | notANumber => exact iff_of_false (fun h => Bool.noConfusion h) fun h => h rfl
  | _ => exact ⟨fun _ => nofun, fun _ => rfl⟩

theorem isNaN_eq_false_iff_parts : x.isNaN = false ↔ parts x ≠ .nan := by
  rw [isNaN_eq_false_iff, unpack_eq_parts]
  cases parts x with
  | nan => exact ⟨fun h => absurd rfl h, fun h => absurd rfl h⟩
  | infinite negative => exact ⟨fun _ => nofun, fun _ => nofun⟩
  | finite negative m e =>
    refine ⟨fun _ => nofun, fun _ => ?_⟩
    by_cases hm : m = 0
    · simp [Parts.unpacked, hm]
    · simp [Parts.unpacked, hm]

theorem Has.isNaN (h : Has x p) : x.isNaN = false := by
  rw [isNaN_eq_false_iff]
  intro hnan
  exact (hnan ▸ h.holds : Holds .notANumber p)

theorem Has.beq_iff {q : ℚ} (hx : Has x p) (hy : Has y q) : (x == y) = true ↔ p = q := by
  show (x.toModel.unpack.compare y.toModel.unpack == some .eq) = true ↔ _
  rw [hx.holds.compare_eq hy.holds, beq_iff_eq, Option.some_inj, cmp_eq_eq_iff]

/-- All doubles but those that are no numbers equal themselves. -/
theorem beq_self_iff : (x == x) = true ↔ x.isNaN = false := by
  rcases has_or x with ⟨v, h⟩ | ⟨s, h⟩ | h
  · exact iff_of_true ((h.beq_iff h).mpr rfl) h.isNaN
  · refine iff_of_true ?_ (isNaN_eq_false_iff.mpr fun hnan => by rw [h] at hnan; cases hnan)
    show (x.toModel.unpack.compare x.toModel.unpack == some .eq) = true
    rw [h]
    cases s <;> rfl
  · refine iff_of_false ?_ fun hnan => isNaN_eq_false_iff.mp hnan h
    show ¬ (x.toModel.unpack.compare x.toModel.unpack == some .eq) = true
    rw [h]
    exact Bool.false_ne_true

/-- A canonical form is that of one number. -/
theorem Canonical.unique {m n : ℕ} {e k : ℤ} (hm : Canonical m e) (hn : Canonical n k)
    (h : (m : ℚ) * 2 ^ e = n * 2 ^ k) : m = n ∧ e = k := by
  rcases lt_trichotomy e k with hlt | rfl | hlt
  · exact absurd h (hm.lt_of_lt hn hlt).ne
  · exact ⟨by exact_mod_cast mul_right_cancel₀ (by positivity) h, rfl⟩
  · exact absurd h (hn.lt_of_lt hm hlt).ne'

/-- A number that is not zero is that of one double only. -/
theorem Has.eq_of_ne_zero (hx : Has x p) (hy : Has y p) (hp : p ≠ 0) : x = y := by
  obtain ⟨s, m, e, hpx, hvx⟩ := hx.parts
  obtain ⟨t, n, k, hpy, hvy⟩ := hy.parts
  have hm : (0 : ℚ) ≤ m * 2 ^ e := by positivity
  have hn : (0 : ℚ) ≤ n * 2 ^ k := by positivity
  have hvalue : (m : ℚ) * 2 ^ e = n * 2 ^ k := by
    rw [← abs_withSign (signOf s) hm, ← abs_withSign (signOf t) hn, ← hvx, hvy]
  have hsign : s = t := by
    rw [hvx, hvalue] at hvy
    rw [hvx, hvalue] at hp
    cases s <;> cases t <;> first | rfl | (simp only [signOf, withSign] at hvy hp; grind)
  obtain ⟨rfl, rfl⟩ := (canonical_parts hpx).1.unique (canonical_parts hpy).1 hvalue
  exact eq_of_parts (hpx.trans (hsign ▸ hpy.symm)) (by simp [hpx])

/-- What equals an infinity is that infinity. -/
theorem eq_of_beq_infinity {s : Sign} (hx : x.toModel.unpack = .infinity s)
    (h : (x == y) = true) : x = y := by
  have hcompare : (x.toModel.unpack.compare y.toModel.unpack == some .eq) = true := h
  rw [hx, beq_iff_eq] at hcompare
  cases hy : y.toModel.unpack with
  | infinity t =>
    rw [hy] at hcompare
    obtain ⟨b, rfl, hb⟩ := parts_of_infinity hx
    obtain ⟨c, rfl, hc⟩ := parts_of_infinity hy
    have hsame : b = c := by cases b <;> cases c <;> first | rfl | cases hcompare
    exact eq_of_parts (hb.trans (hsame ▸ hc.symm)) (by rw [hb]; exact nofun)
  | zero | finite | notANumber =>
    rw [hy] at hcompare
    cases s <;> cases hcompare

/-- What equals a number is that number. -/
theorem Has.of_beq (hx : Has x p) (h : (x == y) = true) : Has y p := by
  rcases has_or y with ⟨q, hy⟩ | hy
  · rwa [(hx.beq_iff hy).mp h]
  · have hcompare : (x.toModel.unpack.compare y.toModel.unpack == some .eq) = true := h
    have hnumber := hx.holds
    cases hu : x.toModel.unpack with
    | infinity | notANumber =>
      rw [hu] at hnumber
      exact hnumber.elim
    | zero | finite =>
      rw [hu] at hcompare
      rcases hy with ⟨s, hy⟩ | hy
      · rw [hy] at hcompare
        cases s <;> cases hcompare
      · rw [hy] at hcompare
        cases hcompare

/-- Doubles that equal each other are the same, but for the sign of a zero. -/
theorem eq_or_zero_of_beq (h : (x == y) = true) : x = y ∨ Has x 0 ∧ Has y 0 := by
  rcases has_or x with ⟨v, hx⟩ | ⟨s, hx⟩ | hx
  · have hy := hx.of_beq h
    rcases eq_or_ne v 0 with rfl | hv
    · exact .inr ⟨hx, hy⟩
    · exact .inl (hx.eq_of_ne_zero hy hv)
  · exact .inl (eq_of_beq_infinity hx h)
  · have hcompare : (x.toModel.unpack.compare y.toModel.unpack == some .eq) = true := h
    rw [hx] at hcompare
    cases hcompare

theorem beq_symm (h : (x == y) = true) : (y == x) = true := by
  rcases eq_or_zero_of_beq h with rfl | ⟨hx, hy⟩
  · exact h
  · exact (hy.beq_iff hx).mpr rfl

/-! ## The order that tells all doubles apart -/

/-- The bits of a double but for its sign. -/
def fieldBits (m : ℕ) (e : ℤ) : ℕ :=
  if m < hiddenBit then m else ((e - minExponent).toNat + 1) * hiddenBit + (m - hiddenBit)

theorem orderKey_of_parts {negative : Bool} {m : ℕ} {e : ℤ} (h : parts x = .finite negative m e) :
    orderKey x = if negative then -(fieldBits m e : ℤ) - 1 else (fieldBits m e : ℤ) := by
  have hfields := fields_parts (x := x) (by rw [h]; exact nofun)
  have hbit : hiddenBit = 2 ^ 52 := rfl
  have hpow : Nat.pow 2 63 = 2 ^ 63 := rfl
  have hx : x.toBits.toNat < 2 ^ 64 := UInt64.toNat_lt _
  have hfraction := (canonical_parts h).1.places
  have hparts : (parts x).fields = (negative, if m < hiddenBit then (0, m)
      else ((e - minExponent).toNat + 1, m - hiddenBit)) := by
    rw [h, Parts.fields]
    split <;> rfl
  rw [hparts, Prod.mk.injEq] at hfields
  obtain ⟨hsign, hrest⟩ := hfields
  have hmagnitude : x.toBits.toNat % 2 ^ 63 = fieldBits m e := by
    unfold fieldBits
    rw [hbit] at hrest ⊢
    split at hrest <;> rw [Prod.mk.injEq] at hrest
    · next hm =>
      rw [if_pos hm]
      omega
    · next hm =>
      rw [if_neg hm]
      omega
  unfold orderKey
  simp only [hpow, hmagnitude, ← hsign]
  cases negative with
  | true => rfl
  | false =>
    have hsmall : ¬ x.toBits.toNat / 2 ^ 63 = 1 := by
      intro hone
      rw [hone] at hsign
      cases hsign
    simp only [Bool.false_eq_true, if_false]
    omega

theorem fieldBits_lt {m n : ℕ} {e k : ℤ} (hm : Canonical m e) (hn : Canonical n k)
    (h : (m : ℚ) * 2 ^ e < n * 2 ^ k) : fieldBits m e < fieldBits n k := by
  have hbit : hiddenBit = 2 ^ 52 := rfl
  have hleast : minExponent = -1074 := rfl
  have horder : e < k ∨ e = k ∧ m < n := by
    rcases lt_trichotomy e k with hlt | rfl | hlt
    · exact .inl hlt
    · exact .inr ⟨rfl, by exact_mod_cast lt_of_mul_lt_mul_right h (by positivity)⟩
    · exact absurd (hn.lt_of_lt hm hlt) (not_lt.mpr h.le)
  obtain ⟨hmplaces, hmleast, hmfull⟩ := hm
  obtain ⟨hnplaces, hnleast, hnfull⟩ := hn
  unfold fieldBits
  rw [hbit, hleast]
  rcases horder with hlt | ⟨rfl, hlt⟩
  · rw [if_neg (show ¬ n < 2 ^ 52 by omega)]
    split <;> omega
  · split <;> split <;> omega

/-- Doubles that are not negative are in the order of their values. -/
theorem Has.le_of_orderKey {q : ℚ} (hx : Has x p) (hy : Has y q) (hp : 0 ≤ p) (hq : 0 ≤ q)
    (h : orderKey x ≤ orderKey y) : p ≤ q := by
  obtain ⟨s, m, e, hpx, hvx⟩ := hx.parts
  obtain ⟨t, n, k, hpy, hvy⟩ := hy.parts
  have hpmag : p = m * 2 ^ e := by rw [← abs_of_nonneg hp, hvx, abs_withSign _ (by positivity)]
  have hqmag : q = n * 2 ^ k := by rw [← abs_of_nonneg hq, hvy, abs_withSign _ (by positivity)]
  by_contra hlt
  rw [not_le, hpmag, hqmag] at hlt
  have hbits := fieldBits_lt (canonical_parts hpy).1 (canonical_parts hpx).1 hlt
  have hpositive : s = false := by
    cases s with
    | false => rfl
    | true =>
      have hneg : p = -((m : ℚ) * 2 ^ e) := hvx
      have hnonneg : (0 : ℚ) ≤ n * 2 ^ k := by positivity
      linarith
  rw [orderKey_of_parts hpx, orderKey_of_parts hpy, hpositive] at h
  simp only [Bool.false_eq_true, if_false] at h
  split at h <;> omega

end MidiRig.Binary64
