import MidiRig.Proofs.Number.Text
import MidiRig.Proofs.Toml.Quoted

/-!
# Numbers in documents

A whole number of 64 bits is read from what is written for it (`readNumeral?_toString`), and so is
every double that is a number (`readNumeral?_writeFloat`). Neither is taken for a date, and the
point that whole doubles keep tells the two apart.
-/

namespace MidiRig.Toml

open Binary64 Shortest

/-! ## What follows -/

/-- The rest goes on neither with a digit nor with one of the marks. -/
def Stops (marks : List Char) (rest : List Char) : Prop :=
  ∀ c ∈ rest.head?, c.isDigit = false ∧ c ∉ marks

theorem Stops.mono {marks more rest : List Char} (h : Stops more rest) (hle : marks ⊆ more) :
    Stops marks rest := fun c hc => ⟨(h c hc).1, fun hmem => (h c hc).2 (hle hmem)⟩

theorem Stops.ne {marks rest : List Char} (h : Stops marks rest) {c : Char} (hc : c ∈ marks)
    (cs : List Char) : rest ≠ c :: cs := by
  rintro rfl
  exact (h c rfl).2 hc

/-- What a number goes on with, and the marks of dates, times and bases. -/
def numberMarks : List Char := ['_', '.', 'e', 'E', '-', ':', 'x', 'o', 'b']

/-! ## Digits -/

theorem spanDigits_append {digits rest : List Char} (hdigits : ∀ c ∈ digits, c.isDigit = true)
    (hrest : Stops ['_'] rest) : spanDigits Char.isDigit (digits ++ rest) = (digits, rest) := by
  induction digits with
  | nil =>
    cases rest with
    | nil => rfl
    | cons c cs =>
      rw [List.nil_append, spanDigits]
      · rw [if_neg (Bool.eq_false_iff.mp (hrest c rfl).1)]
      · intro d ds hd
        exact absurd (List.mem_singleton.mpr hd) (hrest c rfl).2
  | cons c cs ih =>
    have hc := hdigits c List.mem_cons_self
    have hne : c ≠ '_' := Decimal.ne_of_isDigit hc (by decide)
    rw [List.cons_append, spanDigits]
    · rw [if_pos hc, ih fun d hd => hdigits d (List.mem_cons_of_mem c hd)]
    · intro d ds hd
      exact absurd hd hne

theorem readDigits?_append {digits rest : List Char} (hne : digits ≠ [])
    (hdigits : ∀ c ∈ digits, c.isDigit = true)
    (hrest : Stops ['_'] rest) :
    readDigits? Char.isDigit (digits ++ rest) = some (digits, rest) := by
  obtain ⟨c, cs, rfl⟩ := List.exists_cons_of_ne_nil hne
  have hc := hdigits c List.mem_cons_self
  unfold readDigits?
  rw [if_pos (by rw [List.cons_append, List.head?_cons, Option.map_some, hc]; rfl),
    spanDigits_append hdigits hrest]

/-- Only the digits of zero begin with a zero. -/
theorem eq_zero_of_toDigits {n : ℕ} {cs : List Char} (h : Nat.toDigits 10 n = '0' :: cs) :
    n = 0 := by
  induction n using Nat.strong_induction_on generalizing cs with
  | _ n ih =>
    rw [Nat.toDigits_eq_if (by norm_num)] at h
    split at h
    · exact Nat.digitChar_eq_zero.mp (List.cons.inj h).1
    · obtain ⟨c, ds, hdigits, -⟩ := Decimal.toDigits_begins (n / 10)
      rw [hdigits, List.cons_append, List.cons.injEq] at h
      have := ih (n / 10) (by omega) (h.1 ▸ hdigits)
      omega

/-- Behind a zero in front there are no more digits. -/
theorem eq_of_toDigits_append {n : ℕ} {rest tail : List Char}
    (h : Nat.toDigits 10 n ++ rest = '0' :: tail) : n = 0 ∧ rest = tail := by
  obtain ⟨c, cs, hdigits, -⟩ := Decimal.toDigits_begins n
  rw [hdigits, List.cons_append, List.cons.injEq] at h
  have hzero : n = 0 := eq_zero_of_toDigits (h.1 ▸ hdigits)
  rw [hzero, Nat.toDigits_zero, List.cons.injEq] at hdigits
  rw [← hdigits.2] at h
  exact ⟨hzero, h.2⟩

theorem spanSign_of_isDigit {c : Char} (h : c.isDigit = true) (cs : List Char) :
    spanSign (c :: cs) = ([], c :: cs) := by
  have hminus : c ≠ '-' := Decimal.ne_of_isDigit h (by decide)
  have hplus : c ≠ '+' := Decimal.ne_of_isDigit h (by decide)
  simp [spanSign, hminus, hplus]

theorem spanSign_signText (negative : Bool) (n : ℕ) (rest : List Char) :
    spanSign (signText negative ++ (Nat.toDigits 10 n ++ rest)) =
      (signText negative, Nat.toDigits 10 n ++ rest) := by
  cases negative with
  | true => rfl
  | false =>
    obtain ⟨c, cs, hdigits, hc⟩ := Decimal.toDigits_begins n
    rw [hdigits]
    exact spanSign_of_isDigit hc _

/-- A sign and digits are read as they are. -/
theorem readWhole?_toDigits (negative : Bool) (n : ℕ) {rest : List Char}
    (hrest : Stops ['_'] rest) :
    readWhole? (signText negative ++ (Nat.toDigits 10 n ++ rest)) =
      some (signText negative ++ Nat.toDigits 10 n, rest) := by
  unfold readWhole?
  rw [spanSign_signText]
  dsimp only
  split
  · next tail heq =>
    obtain ⟨rfl, rfl⟩ := eq_of_toDigits_append heq
    rw [Nat.toDigits_zero]
  · rw [readDigits?_append Nat.toDigits_ne_nil (fun _ => Decimal.isDigit_of_mem_toDigits) hrest]
    rfl

/-! ## Neither dates nor times -/

theorem readField?_of_ne {c : Char} (hc : c.isDigit = false) (digits lo hi : ℕ)
    (cs : List Char) : readField? (digits + 1) lo hi (c :: cs) = none := by
  unfold readField?
  rw [if_neg]
  rintro ⟨-, hall, -⟩
  rw [List.take_succ_cons, List.all_cons, hc] at hall
  exact Bool.false_ne_true hall

/-- Behind some of the digits of a number there is no mark of a date or time. -/
theorem expect?_of_readField? {digits rest tail : List Char} {d : Char} {count lo hi n : ℕ}
    (hdigits : ∀ c ∈ digits, c.isDigit = true) (hd : d.isDigit = false)
    (hrest : Stops [d] rest)
    (h : readField? count lo hi (digits ++ rest) = some (n, tail)) : expect? d tail = none := by
  simp only [readField?] at h
  split at h
  · next hfield =>
    obtain ⟨hlength, hall, -⟩ := hfield
    have hcount : count ≤ digits.length := by
      by_contra hlong
      obtain ⟨k, rfl⟩ : ∃ k, count = digits.length + (k + 1) :=
        ⟨count - digits.length - 1, by omega⟩
      rw [List.take_length_add_append] at hlength hall
      cases rest with
      | nil => simp at hlength
      | cons c cs =>
        rw [List.take_succ_cons, List.all_append, List.all_cons, Bool.and_eq_true,
          Bool.and_eq_true] at hall
        exact absurd hall.2.1 (Bool.eq_false_iff.mp (hrest c rfl).1)
    cases h
    rw [List.drop_append_of_le_length hcount]
    cases hleft : digits.drop count with
    | nil =>
      cases rest with
      | nil => rfl
      | cons c cs =>
        exact if_neg fun heq => (hrest c rfl).2 (List.mem_singleton.mpr (beq_iff_eq.mp heq).symm)
    | cons c cs =>
      have hc := hdigits c (List.mem_of_mem_drop (hleft ▸ List.mem_cons_self))
      exact if_neg fun heq => Decimal.ne_of_isDigit hc hd (beq_iff_eq.mp heq).symm
  · cases h

theorem readMoment?_digits {digits rest : List Char} (hdigits : ∀ c ∈ digits, c.isDigit = true)
    (hrest : Stops ['-', ':'] rest) : readMoment? (digits ++ rest) = none := by
  have hdate : skipDate? (digits ++ rest) = none := by
    unfold skipDate?
    cases h : readField? 4 0 9999 (digits ++ rest) with
    | none => rfl
    | some field =>
      have hnone := expect?_of_readField? (d := '-') hdigits (by decide)
        (hrest.mono (by decide)) h
      simp [hnone]
  have htime : skipTime? (digits ++ rest) = none := by
    unfold skipTime?
    cases h : readField? 2 0 23 (digits ++ rest) with
    | none => rfl
    | some field =>
      have hnone := expect?_of_readField? (d := ':') hdigits (by decide)
        (hrest.mono (by decide)) h
      simp [hnone]
  rw [readMoment?, hdate, htime]
  rfl

theorem readMoment?_of_ne {c : Char} (hc : c.isDigit = false) (cs : List Char) :
    readMoment? (c :: cs) = none := by
  unfold readMoment? skipDate? skipTime?
  rw [readField?_of_ne hc, readField?_of_ne hc]
  rfl

/-! ## Whole numbers -/

theorem readFraction?_of_stops {rest : List Char} (hrest : Stops numberMarks rest) :
    readFraction? rest = some ([], rest) := by
  rw [readFraction?]
  exact fun cs hcs => hrest.ne (by decide) cs hcs

theorem readExponent?_of_stops {rest : List Char} (hrest : Stops numberMarks rest) :
    readExponent? rest = some ([], rest) := by
  cases rest with
  | nil => rfl
  | cons c cs =>
    have hc := (hrest c rfl).2
    rw [readExponent?, if_neg]
    rw [Bool.or_eq_true, beq_iff_eq, beq_iff_eq]
    rintro (rfl | rfl) <;> exact hc (by decide)

/-- A number without a point is no double. -/
theorem readPointed?_toDigits (negative : Bool) (n : ℕ) {rest : List Char}
    (hrest : Stops numberMarks rest) :
    readPointed? (signText negative ++ (Nat.toDigits 10 n ++ rest)) = none := by
  unfold readPointed?
  rw [readWhole?_toDigits negative n (hrest.mono (by decide))]
  simp [readFraction?_of_stops hrest, readExponent?_of_stops hrest]

theorem readNamed?_toDigits (negative : Bool) (n : ℕ) (rest : List Char) :
    readNamed? (signText negative ++ (Nat.toDigits 10 n ++ rest)) = none := by
  unfold readNamed?
  rw [spanSign_signText]
  obtain ⟨c, cs, hdigits, hc⟩ := Decimal.toDigits_begins n
  rw [hdigits]
  dsimp only
  split
  · next heq =>
    exact absurd (List.cons.inj heq).1 (Decimal.ne_of_isDigit hc (by decide))
  · next heq =>
    exact absurd (List.cons.inj heq).1 (Decimal.ne_of_isDigit hc (by decide))
  · rfl

theorem readMoment?_number (negative : Bool) (n : ℕ) {rest : List Char}
    (hrest : Stops ['-', ':'] rest) :
    readMoment? (signText negative ++ (Nat.toDigits 10 n ++ rest)) = none := by
  cases negative with
  | true => exact readMoment?_of_ne (by decide) _
  | false =>
    show readMoment? (Nat.toDigits 10 n ++ rest) = none
    exact readMoment?_digits (fun _ => Decimal.isDigit_of_mem_toDigits) hrest

theorem toDigits_append_ne {n : ℕ} {d : Char} {rest : List Char} (hrest : Stops [d] rest)
    (cs : List Char) : Nat.toDigits 10 n ++ rest ≠ '0' :: d :: cs := by
  intro h
  exact hrest.ne List.mem_cons_self cs (eq_of_toDigits_append h).2

/-- A sign and digits have no base mark. -/
theorem readInteger?_toDigits (negative : Bool) (n : ℕ) {rest : List Char}
    (hrest : Stops numberMarks rest) :
    readInteger? (signText negative ++ (Nat.toDigits 10 n ++ rest)) =
      (Decimal.readInt? minInt64 maxInt64 (signText negative ++ Nat.toDigits 10 n)).map
        fun n => (.int n, rest) := by
  have hbase : ∀ d ∈ ['x', 'o', 'b'], ∀ cs,
      signText negative ++ (Nat.toDigits 10 n ++ rest) ≠ '0' :: d :: cs := by
    intro d hd cs
    have hmark : ['x', 'o', 'b'] ⊆ numberMarks := by decide
    cases negative with
    | true => exact fun h => absurd (List.cons.inj h).1 (by decide)
    | false =>
      exact toDigits_append_ne (hrest.mono (List.cons_subset.mpr ⟨hmark hd, nofun⟩)) cs
  rw [readInteger?, readWhole?_toDigits negative n (hrest.mono (by decide))]
  · show (Decimal.readInt? _ _ _).bind (fun n => some (Value.int n, rest)) = _
    exact (Option.map_eq_bind ..).symm
  · exact hbase 'x' (by decide)
  · exact hbase 'o' (by decide)
  · exact hbase 'b' (by decide)

/-- A whole number of 64 bits is read up to its last digit. -/
theorem readNumeral?_toString {n : ℤ} (hlo : minInt64 ≤ n) (hhi : n ≤ maxInt64)
    {rest : List Char} (hrest : Stops numberMarks rest) :
    readNumeral? ((toString n).toList ++ rest) = some (.int n, rest) := by
  have hint := Decimal.readInt?_toString hlo hhi
  rw [toList_toString_eq] at hint ⊢
  have hwritten : Decimal.written n.natAbs [] = Nat.toDigits 10 n.natAbs := List.append_nil _
  rw [hwritten] at hint ⊢
  rw [List.append_assoc, readNumeral?, readMoment?_number _ _ (hrest.mono (by decide)), readFloat?,
    readPointed?_toDigits _ _ hrest, readNamed?_toDigits, readInteger?_toDigits _ _ hrest, hint]
  rfl

/-! ## Doubles -/

theorem beq_infinity {x : Float} (hx : isFinite x = true) : (x == infinity) = false := by
  obtain ⟨v, hv⟩ := isFinite_iff.mp hx
  have hinfinity : infinity.toModel.unpack = .infinity .positive := by
    rw [unpack_eq_parts, show parts infinity = .infinite false from parts_infinity false]
    rfl
  show (x.toModel.unpack.compare infinity.toModel.unpack == some .eq) = false
  rw [hinfinity]
  have hholds := hv.holds
  cases hunpack : x.toModel.unpack with
  | notANumber => rw [hunpack] at hholds; exact hholds.elim
  | infinity s => rw [hunpack] at hholds; exact hholds.elim
  | zero s => rfl
  | finite s m e hm => rfl

/-- A number with a point is a double. -/
theorem readPointed?_written {x : Float} {negative : Bool} {n : ℕ} {fraction tail rest : List Char}
    (h : Written x negative n fraction) (hx : isFinite x = true) (hne : tail ≠ [])
    (hdigits : ∀ c ∈ tail, c.isDigit = true) (hlength : tail.length ≤ 2048)
    (hvalue : Decimal.writtenValue n tail = Decimal.writtenValue n fraction)
    (hrest : Stops numberMarks rest) :
    readPointed? (signText negative ++ Decimal.written n tail ++ rest) = some (x, rest) := by
  have hread := h.readFloat? hdigits hlength hvalue
  have hwritten : Decimal.written n tail = Nat.toDigits 10 n ++ '.' :: tail := by
    rw [Decimal.written, if_neg (by simpa using hne)]
  have hpoint : Stops ['_'] ('.' :: (tail ++ rest)) := fun c hc => by
    cases hc
    decide
  rw [hwritten] at hread ⊢
  have hfraction : readFraction? ('.' :: (tail ++ rest)) = some ('.' :: tail, rest) := by
    rw [readFraction?, readDigits?_append hne hdigits (hrest.mono (by decide))]
    rfl
  rw [List.append_assoc, List.append_assoc, List.cons_append, readPointed?,
    readWhole?_toDigits negative n hpoint]
  simp [hfraction, readExponent?_of_stops hrest, hread, beq_infinity hx]

theorem readNumeral?_written {x : Float} {negative : Bool} {n : ℕ}
    {fraction tail rest : List Char} (h : Written x negative n fraction) (hx : isFinite x = true)
    (hne : tail ≠ []) (hdigits : ∀ c ∈ tail, c.isDigit = true) (hlength : tail.length ≤ 2048)
    (hvalue : Decimal.writtenValue n tail = Decimal.writtenValue n fraction)
    (hrest : Stops numberMarks rest) :
    readNumeral? (signText negative ++ Decimal.written n tail ++ rest) =
      some (.float x, rest) := by
  have hmoment : readMoment? (signText negative ++ Decimal.written n tail ++ rest) = none := by
    rw [Decimal.written, if_neg (by simpa using hne), List.append_assoc, List.append_assoc]
    refine readMoment?_number negative n fun c hc => ?_
    cases hc
    decide
  rw [readNumeral?, hmoment, readFloat?,
    readPointed?_written h hx hne hdigits hlength hvalue hrest]
  rfl

theorem readNumeral?_infinity (negative : Bool) (rest : List Char) :
    readNumeral? (signText negative ++ 'i' :: 'n' :: 'f' :: rest) =
      some (.float (if negative then -infinity else infinity), rest) := by
  have hmoment : readMoment? (signText negative ++ 'i' :: 'n' :: 'f' :: rest) = none := by
    cases negative <;> exact readMoment?_of_ne (by decide) _
  have hpointed : readPointed? (signText negative ++ 'i' :: 'n' :: 'f' :: rest) = none := by
    cases negative <;> rfl
  rw [readNumeral?, hmoment, readFloat?, hpointed]
  cases negative <;> rfl

/-- A whole double is written with a zero behind a point, which changes nothing. -/
theorem writtenValue_zero (n : ℕ) : Decimal.writtenValue n ['0'] = Decimal.writtenValue n [] := by
  have hzero : Decimal.digitsValue ['0'] = 0 := Decimal.digitsValue_zeros 1
  rw [Decimal.writtenValue, Decimal.writtenValue, hzero]
  simp [Decimal.digitsValue]

/-- Every double that is a number is read up to its last character. -/
theorem readNumeral?_writeFloat {x : Float} (hx : x.isNaN = false) {rest : List Char}
    (hrest : Stops numberMarks rest) :
    readNumeral? ((writeFloat x).toList ++ rest) = some (.float x, rest) := by
  unfold writeFloat
  rw [if_neg (Bool.eq_false_iff.mp hx)]
  cases h : parts x with
  | nan => exact absurd h (isNaN_eq_false_iff_parts.mp hx)
  | finite negative m q =>
    have hfinite : isFinite x = true := by unfold isFinite; rw [h]
    obtain ⟨negative, n, fraction, htext, hwritten⟩ := text_spec hfinite
    split
    · next hwhole =>
      have hfraction := hwritten.whole.mpr hwhole
      have hzero : Decimal.written n ['0'] = Decimal.written n [] ++ ['.', '0'] := by
        simp [Decimal.written]
      have hpoint : ".0".toList = ['.', '0'] := rfl
      have hlength : ['0'].length ≤ 2048 := by rw [List.length_singleton]; norm_num
      rw [String.toList_append, htext, hfraction, hpoint, List.append_assoc (signText negative),
        ← hzero]
      have hdigits : ∀ c ∈ ['0'], c.isDigit = true := List.forall_mem_singleton.mpr (by decide)
      rw [hfraction] at hwritten
      exact readNumeral?_written hwritten hfinite (List.cons_ne_nil _ _) hdigits hlength
        (writtenValue_zero n) hrest
    · next hwhole =>
      rw [htext]
      exact readNumeral?_written hwritten hfinite (fun hnil => hwhole (hwritten.whole.mp hnil))
        hwritten.digits hwritten.length rfl hrest
  | infinite negative =>
    have hwhole : isWhole x = false := by unfold isWhole; rw [h]
    rw [if_neg (Bool.eq_false_iff.mp hwhole), toList_text_of_infinite h, List.append_assoc]
    exact eq_infinity h ▸ readNumeral?_infinity negative rest

/-! ## Where a number begins -/

/-- What a number begins with. -/
def beginsNumber (c : Char) : Bool := c.isDigit || c == '-' || c == 'i'

theorem begins_toDigits (negative : Bool) (n : ℕ) (rest : List Char) :
    ∃ c cs, signText negative ++ (Nat.toDigits 10 n ++ rest) = c :: cs ∧
      beginsNumber c = true := by
  cases negative with
  | true => exact ⟨'-', _, rfl, rfl⟩
  | false =>
    obtain ⟨c, cs, hdigits, hc⟩ := Decimal.toDigits_begins n
    rw [hdigits]
    exact ⟨c, _, rfl, by rw [beginsNumber, hc]; rfl⟩

theorem begins_toString (n : ℤ) :
    ∃ c cs, (toString n).toList = c :: cs ∧ beginsNumber c = true := by
  rw [toList_toString_eq]
  exact begins_toDigits _ _ _

theorem begins_writeFloat {x : Float} (hx : x.isNaN = false) :
    ∃ c cs, (writeFloat x).toList = c :: cs ∧ beginsNumber c = true := by
  have htext : ∃ c cs, (text x).toList = c :: cs ∧ beginsNumber c = true := by
    cases h : parts x with
    | nan => exact absurd h (isNaN_eq_false_iff_parts.mp hx)
    | finite negative m q =>
      obtain ⟨negative, n, fraction, htext, -⟩ := text_spec (by unfold isFinite; rw [h])
      rw [htext]
      exact begins_toDigits _ _ _
    | infinite negative =>
      rw [toList_text_of_infinite h]
      cases negative
      · exact ⟨'i', _, rfl, rfl⟩
      · exact ⟨'-', _, rfl, rfl⟩
  unfold writeFloat
  rw [if_neg (Bool.eq_false_iff.mp hx)]
  obtain ⟨c, cs, htext, hc⟩ := htext
  split
  · rw [String.toList_append, htext]
    exact ⟨c, _, rfl, hc⟩
  · exact ⟨c, cs, htext, hc⟩

end MidiRig.Toml
