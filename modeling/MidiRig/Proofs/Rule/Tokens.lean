import Mathlib.Data.List.TakeWhile
import MidiRig.Proofs.Text.Words
import MidiRig.Rule.Range

/-!
# Where a domain ends

A domain is one token or two, and a transform may follow it. Reading a domain takes characters of
tokens only, and what it takes does not depend on whether a transform follows (`Reads`). So a
domain and a transform that were written apart can be read next to each other
(`readResolved?_append`).
-/

namespace MidiRig.Range

open Text

/-- What a number or a note name is written with. -/
def isTokenChar (c : Char) : Bool := isWordChar c || c == '#' || c == '+' || c == '-'

/-- What a transform begins with. -/
def isMark (c : Char) : Bool := c == '*' || c == '='

theorem isTokenChar_of_isDigit {c : Char} (h : c.isDigit = true) : isTokenChar c = true := by
  simp [isTokenChar, isWordChar, Char.isAlphanum, h]

theorem isMark_iff {c : Char} : isMark c = true ↔ c = '*' ∨ c = '=' := by
  simp [isMark]

/-! ## Readers that stop at a mark -/

/-- The rest of a text after characters of tokens. -/
def Splits (cs rest : List Char) : Prop :=
  ∃ taken, cs = taken ++ rest ∧ ∀ c ∈ taken, isTokenChar c = true

theorem Splits.refl (cs : List Char) : Splits cs cs := ⟨[], rfl, by simp⟩

theorem Splits.cons {c : Char} {cs rest : List Char} (hc : isTokenChar c = true)
    (h : Splits cs rest) : Splits (c :: cs) rest := by
  obtain ⟨taken, rfl, hall⟩ := h
  refine ⟨c :: taken, rfl, fun d hd => ?_⟩
  rcases List.mem_cons.mp hd with rfl | hd
  · exact hc
  · exact hall d hd

theorem Splits.trans {as bs cs : List Char} (h : Splits as bs) (h' : Splits bs cs) :
    Splits as cs := by
  obtain ⟨taken, rfl, hall⟩ := h
  obtain ⟨taken', rfl, hall'⟩ := h'
  refine ⟨taken ++ taken', by simp, fun c hc => ?_⟩
  rcases List.mem_append.mp hc with hc | hc
  · exact hall c hc
  · exact hall' c hc

theorem Splits.subset {cs rest : List Char} (h : Splits cs rest) : ∀ c ∈ rest, c ∈ cs := by
  obtain ⟨taken, rfl, -⟩ := h
  exact fun c hc => List.mem_append_right taken hc

theorem Splits.chars {cs rest : List Char} (h : Splits cs rest) :
    ∀ c ∈ cs, isTokenChar c = true ∨ c ∈ rest := by
  obtain ⟨taken, rfl, hall⟩ := h
  exact fun c hc => (List.mem_append.mp hc).imp_left (hall c)

/-- The text from a transform on. -/
def AtMark (tail : List Char) : Prop := ∃ c cs, tail = c :: cs ∧ (c = '*' ∨ c = '=')

/-- With what follows put behind the rest. -/
def behind {α : Type} (tail : List Char) (r : α × List Char) : α × List Char := (r.1, r.2 ++ tail)

/-- A reader takes characters of tokens, and does not look past the begin of a transform. -/
structure Reads {α : Type} (read : List Char → Option (α × List Char)) : Prop where
  splits : ∀ {cs x rest}, read cs = some (x, rest) → Splits cs rest
  append : ∀ cs {tail}, AtMark tail → read (cs ++ tail) = (read cs).map (behind tail)

/-- The same of a reader that always reads something, if only nothing. -/
structure Fronts {α : Type} (read : List Char → α × List Char) : Prop where
  splits : ∀ cs, Splits cs (read cs).2
  append : ∀ cs {tail}, AtMark tail → read (cs ++ tail) = behind tail (read cs)

section Combined

variable {α β : Type} {read : List Char → Option (α × List Char)}

theorem Reads.map (h : Reads read) (f : α → β) :
    Reads fun cs => (read cs).map fun r => (f r.1, r.2) where
  splits hread := by
    obtain ⟨⟨x, rest⟩, hx, heq⟩ := Option.map_eq_some_iff.mp hread
    cases heq
    exact h.splits hx
  append cs _ htail := by
    rw [h.append cs htail]
    cases read cs <;> rfl

theorem Reads.bind (h : Reads read) {next : α → List Char → Option (β × List Char)}
    (hnext : ∀ x, Reads (next x)) : Reads fun cs => (read cs).bind fun r => next r.1 r.2 where
  splits hread := by
    obtain ⟨⟨x, rest⟩, hx, hy⟩ := Option.bind_eq_some_iff.mp hread
    exact (h.splits hx).trans ((hnext x).splits hy)
  append cs _ htail := by
    rw [h.append cs htail]
    cases read cs with
    | none => rfl
    | some r => exact (hnext r.1).append r.2 htail

theorem Fronts.bind {front : List Char → α × List Char} (h : Fronts front)
    {next : α → List Char → Option (β × List Char)} (hnext : ∀ x, Reads (next x)) :
    Reads fun cs => next (front cs).1 (front cs).2 where
  splits hread := (h.splits _).trans ((hnext _).splits hread)
  append cs _ htail := by
    rw [h.append cs htail]
    exact (hnext _).append _ htail

end Combined

theorem fronts_spanDigits : Fronts Decimal.spanDigits where
  splits cs := ⟨cs.takeWhile Char.isDigit, (List.takeWhile_append_dropWhile).symm,
    fun _ hc => isTokenChar_of_isDigit (List.mem_takeWhile_imp hc)⟩
  append cs tail htail := by
    induction cs with
    | nil => obtain ⟨m, ms, rfl, rfl | rfl⟩ := htail <;> rfl
    | cons c cs ih =>
      simp only [Decimal.spanDigits, behind, Prod.mk.injEq] at ih ⊢
      by_cases hc : c.isDigit <;> simp [hc, ih]

theorem fronts_splitSign : Fronts Decimal.splitSign where
  splits cs := by
    unfold Decimal.splitSign
    split
    · exact (Splits.refl _).cons (by decide)
    · exact (Splits.refl _).cons (by decide)
    · exact Splits.refl _
  append cs tail htail := by
    cases cs with
    | nil => obtain ⟨m, ms, rfl, rfl | rfl⟩ := htail <;> rfl
    | cons c cs =>
      by_cases hminus : c = '-'
      · subst hminus; rfl
      · by_cases hplus : c = '+'
        · subst hplus; rfl
        · simp [Decimal.splitSign, behind, hminus, hplus]

theorem fronts_splitAccidental : Fronts NoteName.splitAccidental where
  splits cs := by
    unfold NoteName.splitAccidental
    split
    · exact (Splits.refl _).cons (by decide)
    · exact (Splits.refl _).cons (by decide)
    · exact Splits.refl _
  append cs tail htail := by
    cases cs with
    | nil => obtain ⟨m, ms, rfl, rfl | rfl⟩ := htail <;> rfl
    | cons c cs =>
      by_cases hsharp : c = '#'
      · subst hsharp; rfl
      · by_cases hflat : c = 'b'
        · subst hflat; rfl
        · simp [NoteName.splitAccidental, behind, hsharp, hflat]

theorem reads_splitOctave? : Reads NoteName.splitOctave? where
  splits {cs x rest} h := by
    unfold NoteName.splitOctave? at h
    split at h
    · next d ds =>
      split at h
      · next hd =>
        cases h
        exact ((Splits.refl _).cons (isTokenChar_of_isDigit hd)).cons (by decide)
      · cases h
    · next d ds _ =>
      split at h
      · next hd =>
        cases h
        exact (Splits.refl _).cons (isTokenChar_of_isDigit hd)
      · cases h
    · cases h
  append cs tail htail := by
    match cs with
    | [] => obtain ⟨m, ms, rfl, rfl | rfl⟩ := htail <;> rfl
    | [d] =>
      by_cases hminus : d = '-'
      · subst hminus
        obtain ⟨m, ms, rfl, rfl | rfl⟩ := htail <;> rfl
      · by_cases hd : d.isDigit <;> simp [NoteName.splitOctave?, behind, hminus, hd]
    | d :: c :: cs =>
      by_cases hminus : d = '-'
      · subst hminus
        by_cases hc : c.isDigit <;> simp [NoteName.splitOctave?, behind, hc]
      · by_cases hd : d.isDigit <;> simp [NoteName.splitOctave?, behind, hminus, hd]

theorem isTokenChar_of_letter? {c : Char} {n : Int} (h : NoteName.letter? c = some n) :
    isTokenChar c = true := by
  unfold NoteName.letter? at h
  split at h <;> first | decide | cases h

/-- What follows the letter of a note name. -/
theorem reads_name (semitone : Int) : Reads fun cs =>
    (NoteName.splitOctave? (NoteName.splitAccidental cs).2).map fun r =>
      (NoteName.number semitone (NoteName.splitAccidental cs).1 r.1, r.2) :=
  fronts_splitAccidental.bind fun accidental =>
    reads_splitOctave?.map fun octave => NoteName.number semitone accidental octave

theorem split?_cons (c : Char) (cs : List Char) :
    NoteName.split? (c :: cs) = (NoteName.letter? c).bind fun semitone =>
      (NoteName.splitOctave? (NoteName.splitAccidental cs).2).map fun r =>
        (NoteName.number semitone (NoteName.splitAccidental cs).1 r.1, r.2) := by
  cases hc : NoteName.letter? c with
  | none => simp [NoteName.split?, hc]
  | some semitone =>
    cases ho : NoteName.splitOctave? (NoteName.splitAccidental cs).2 <;>
      simp [NoteName.split?, hc, ho]

theorem reads_split? : Reads NoteName.split? where
  splits {cs x rest} h := by
    cases cs with
    | nil => cases h
    | cons c cs =>
      rw [split?_cons] at h
      obtain ⟨semitone, hc, hrest⟩ := Option.bind_eq_some_iff.mp h
      exact ((reads_name semitone).splits hrest).cons (isTokenChar_of_letter? hc)
  append cs tail htail := by
    cases cs with
    | nil => obtain ⟨m, ms, rfl, rfl | rfl⟩ := htail <;> rfl
    | cons c cs =>
      rw [List.cons_append, split?_cons, split?_cons]
      cases NoteName.letter? c with
      | none => rfl
      | some semitone => exact (reads_name semitone).append cs htail

/-- The number that only has leading digits. -/
def wholeOnly (whole rest : List Char) : Option (Float × List Char) :=
  if whole.isEmpty then none else some (Decimal.scaled (Decimal.digitsValue whole) 0, rest)

/-- What `splitNumber?` does behind the leading digits. -/
def afterDigits (whole : List Char) : List Char → Option (Float × List Char)
  | '.' :: tail =>
    if (Decimal.spanDigits tail).1.isEmpty then wholeOnly whole ('.' :: tail)
    else
      some (Decimal.scaled (Decimal.digitsValue (whole ++ (Decimal.spanDigits tail).1))
        (-((Decimal.spanDigits tail).1.length : Int)), (Decimal.spanDigits tail).2)
  | rest => wholeOnly whole rest

theorem reads_wholeOnly (whole : List Char) : Reads (wholeOnly whole) where
  splits {cs x rest} h := by
    unfold wholeOnly at h
    split at h
    · cases h
    · cases h; exact Splits.refl _
  append cs tail _ := by
    unfold wholeOnly
    split <;> rfl

theorem reads_afterDigits (whole : List Char) : Reads (afterDigits whole) where
  splits {cs x rest} h := by
    unfold afterDigits at h
    split at h
    · next tail =>
      split at h
      · exact (reads_wholeOnly whole).splits h
      · cases h
        exact (fronts_spanDigits.splits tail).cons (by decide)
    · exact (reads_wholeOnly whole).splits h
  append cs tail htail := by
    have hplain := (reads_wholeOnly whole).append cs htail
    cases cs with
    | nil => obtain ⟨m, ms, rfl, rfl | rfl⟩ := htail <;> exact hplain
    | cons c cs =>
      by_cases hpoint : c = '.'
      · subst hpoint
        rw [List.cons_append] at hplain ⊢
        simp only [afterDigits, fronts_spanDigits.append cs htail, behind]
        split
        · exact hplain
        · rfl
      · simpa [afterDigits, hpoint] using hplain

theorem splitNumber?_eq (cs : List Char) :
    splitNumber? cs = afterDigits (Decimal.spanDigits cs).1 (Decimal.spanDigits cs).2 := by
  unfold splitNumber?
  generalize Decimal.spanDigits cs = front
  obtain ⟨whole, rest⟩ := front
  dsimp only
  split
  · rfl
  · next hpoint => rw [afterDigits.eq_2 whole rest hpoint]; rfl

theorem reads_splitNumber? : Reads splitNumber? := by
  rw [show splitNumber? = _ from funext splitNumber?_eq]
  exact fronts_spanDigits.bind reads_afterDigits

theorem reads_splitSigned? : Reads splitSigned? :=
  fronts_splitSign.bind fun negative => reads_splitNumber?.map (negateIf negative)

theorem reads_splitToken? : Reads splitToken? where
  splits {cs x rest} h := by
    unfold splitToken? at h
    dsimp only at h
    split at h
    · next hname =>
      cases h
      exact (fronts_splitSign.splits cs).trans (reads_split?.splits hname)
    · exact reads_splitSigned?.splits h
  append cs tail htail := by
    simp only [splitToken?, fronts_splitSign.append cs htail, behind,
      reads_split?.append _ htail, reads_splitSigned?.append cs htail]
    cases NoteName.split? (Decimal.splitSign cs).2 <;> rfl

/-- What `splitPair?` does behind the first token. -/
def afterFirst (first : Float) (rest : List Char) : Option ((Float × Float) × List Char) :=
  match rest with
  | '-' :: tail => (splitToken? tail).map fun r => ((first, r.1), r.2)
  | _ => some ((first, first), rest)

theorem reads_afterFirst (first : Float) : Reads (afterFirst first) where
  splits {cs x rest} h := by
    unfold afterFirst at h
    split at h
    · exact ((reads_splitToken?.map fun second => (first, second)).splits h).cons (by decide)
    · cases h; exact Splits.refl _
  append cs tail htail := by
    cases cs with
    | nil => obtain ⟨m, ms, rfl, rfl | rfl⟩ := htail <;> rfl
    | cons c cs =>
      by_cases hdash : c = '-'
      · subst hdash
        exact (reads_splitToken?.map fun second => (first, second)).append cs htail
      · simp [afterFirst, behind, hdash]

theorem splitPair?_eq (cs : List Char) :
    splitPair? cs = (splitToken? cs).bind fun r => afterFirst r.1 r.2 := by
  unfold splitPair? afterFirst
  cases splitToken? cs with
  | none => rfl
  | some r =>
    obtain ⟨first, rest⟩ := r
    match rest with
    | [] => rfl
    | c :: tail =>
      by_cases hdash : c = '-'
      · subst hdash
        cases hsecond : splitToken? tail <;> simp [hsecond]
      · simp [hdash]

theorem reads_splitPair? : Reads splitPair? := by
  rw [show splitPair? = _ from funext splitPair?_eq]
  exact reads_splitToken?.bind reads_afterFirst

/-! ## What a readable range consists of -/

theorem read_eq_ok {names : Names} {text : String} {r : Range} :
    read names text = .ok r ↔ readResolved? (resolve names text) = some r := by
  unfold read
  dsimp only
  cases readResolved? (resolve names text) <;> simp

theorem readResolved?_eq_some {cs : List Char} {r : Range} :
    readResolved? cs = some r ↔ ∃ rest, splitPair? cs = some ((r.min, r.max), rest) ∧
      readTransform? rest = some r.transform := by
  unfold readResolved?
  cases hpair : splitPair? cs with
  | none => simp
  | some p =>
    obtain ⟨⟨a, b⟩, rest⟩ := p
    cases htransform : readTransform? rest with
    | none =>
      simp only [Option.bind_eq_bind, Option.bind_some, htransform, Option.bind_none]
      constructor
      · intro h; cases h
      · rintro ⟨_, h, h'⟩
        cases h
        rw [htransform] at h'
        cases h'
    | some t =>
      obtain ⟨min, max, transform⟩ := r
      simp only [Option.bind_eq_bind, Option.bind_some, htransform, Option.pure_def,
        Option.some.injEq, Range.mk.injEq, Prod.mk.injEq]
      constructor
      · rintro ⟨rfl, rfl, rfl⟩
        exact ⟨rest, ⟨⟨rfl, rfl⟩, rfl⟩, htransform⟩
      · rintro ⟨_, ⟨⟨rfl, rfl⟩, rfl⟩, h⟩
        rw [htransform] at h
        exact ⟨rfl, rfl, Option.some.inj h⟩

/-- Behind a domain stands nothing, or a transform. -/
theorem end_or_mark {cs : List Char} {t : Transform} (h : readTransform? cs = some t) :
    (cs = [] ∧ t = .identity) ∨ (AtMark cs ∧ t ≠ .identity) := by
  unfold readTransform? at h
  split at h
  · cases h; exact .inl ⟨rfl, rfl⟩
  · next cs =>
    refine .inr ⟨⟨'*', cs, rfl, .inl rfl⟩, ?_⟩
    rintro rfl
    obtain ⟨⟨mul, rest⟩, -, h⟩ := Option.bind_eq_some_iff.mp h
    obtain ⟨add, -, h⟩ := Option.bind_eq_some_iff.mp h
    cases h
  · next cs =>
    refine .inr ⟨⟨'=', cs, rfl, .inr rfl⟩, ?_⟩
    rintro rfl
    split at h <;> cases h
  · cases h

theorem chars_of_readOffset? {cs : List Char} {x : Float} (h : readOffset? cs = some x) :
    ∀ c ∈ cs, isTokenChar c = true := by
  unfold readOffset? at h
  split at h
  · simp
  · next c cs =>
    split at h
    · split at h
      · next hread => exact fun d hd => by simpa using (reads_splitSigned?.splits hread).chars d hd
      · cases h
    · cases h

theorem chars_of_readTransform? {cs : List Char} {t : Transform} (h : readTransform? cs = some t) :
    ∀ c ∈ cs, isTokenChar c = true ∨ isMark c = true := by
  unfold readTransform? at h
  split at h
  · simp
  · next cs =>
    obtain ⟨⟨mul, rest⟩, hmul, h⟩ := Option.bind_eq_some_iff.mp h
    obtain ⟨add, hadd, -⟩ := Option.bind_eq_some_iff.mp h
    intro c hc
    rcases List.mem_cons.mp hc with rfl | hc
    · exact .inr rfl
    · rcases (reads_splitSigned?.splits hmul).chars c hc with hc | hc
      · exact .inl hc
      · exact .inl (chars_of_readOffset? hadd c hc)
  · next cs =>
    split at h
    · next hpair =>
      intro c hc
      rcases List.mem_cons.mp hc with rfl | hc
      · exact .inr rfl
      · exact .inl (by simpa using (reads_splitPair?.splits hpair).chars c hc)
    · cases h
  · cases h

/-- A readable range is written with tokens and, if it transforms, what begins a transform. -/
theorem chars_of_readResolved? {cs : List Char} {r : Range} (h : readResolved? cs = some r) :
    ∀ c ∈ cs, isTokenChar c = true ∨ isMark c = true := by
  obtain ⟨rest, hpair, htransform⟩ := readResolved?_eq_some.mp h
  intro c hc
  rcases (reads_splitPair?.splits hpair).chars c hc with hc | hc
  · exact .inl hc
  · exact chars_of_readTransform? htransform c hc

theorem isPlain_iff {r : Range} : r.isPlain = true ↔ r.transform = .identity := by
  unfold isPlain
  cases r.transform <;> simp

/-- The text of a plain range is all domain. -/
theorem splitPair?_of_isPlain {cs : List Char} {r : Range} (h : readResolved? cs = some r)
    (hplain : r.isPlain = true) : splitPair? cs = some ((r.min, r.max), []) := by
  obtain ⟨rest, hpair, htransform⟩ := readResolved?_eq_some.mp h
  rcases end_or_mark htransform with ⟨rfl, -⟩ | ⟨-, hne⟩
  · exact hpair
  · exact absurd (isPlain_iff.mp hplain) hne

/-- A transform behind a domain is the transform of that domain. -/
theorem readResolved?_append {cs tail : List Char} {a b : Float} {t : Transform}
    (hpair : splitPair? cs = some ((a, b), [])) (htail : AtMark tail)
    (ht : readTransform? tail = some t) : readResolved? (cs ++ tail) = some ⟨a, b, t⟩ := by
  refine readResolved?_eq_some.mpr ⟨tail, ?_, ht⟩
  rw [reads_splitPair?.append cs htail, hpair]
  rfl

end MidiRig.Range
