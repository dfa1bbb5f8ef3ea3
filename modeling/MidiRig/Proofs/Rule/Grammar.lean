import MidiRig.Proofs.Number.Digits
import MidiRig.Proofs.Rule.Forms
import MidiRig.Proofs.Rule.Tokens

/-!
# The grammar of ranges

A reader spells a kind of trees if it reads the text of each of them in front of what may follow it,
and reads nothing else (`Spells`). So do the readers of numbers, note names, tokens and spans, and
from them it follows that a text is read as a range exactly if it is, blanks apart, the text of a
form, and then as what that form stands for (`Range.read_grammar`).
-/

namespace MidiRig.Range

open Text

/-- A reader reads the text of each tree, if what follows it allows, and nothing else. -/
structure Spells {σ α : Type} (text : σ → List Char) (value : σ → α) (follow : List Char → Prop)
    (read : List Char → Option (α × List Char)) : Prop where
  reads : ∀ (s : σ) {rest : List Char}, follow rest → read (text s ++ rest) = some (value s, rest)
  spelt : ∀ {cs rest : List Char} {x : α}, read cs = some (x, rest) →
    ∃ s, cs = text s ++ rest ∧ value s = x

/-! ## Digits and signs -/

theorem digitValue_digitChar : ∀ d : Digit, Decimal.digitValue (digitChar d) = d.val := by decide

theorem exists_digitChar {c : Char} (h : c.isDigit = true) : ∃ d : Digit, digitChar d = c := by
  have hbounds : 48 ≤ c.toNat ∧ c.toNat ≤ 57 := by
    simpa [Char.isDigit, UInt32.le_iff_toNat_le] using h
  refine ⟨⟨c.toNat - 48, by omega⟩, Char.toNat_inj.mp ?_⟩
  rw [digitChar, Nat.toNat_digitChar_of_lt_ten (by simp only; omega)]
  simp only
  omega

theorem exists_digitsText {cs : List Char} (h : ∀ c ∈ cs, c.isDigit = true) :
    ∃ ds, digitsText ds = cs := by
  induction cs with
  | nil => exact ⟨[], rfl⟩
  | cons c cs ih =>
    obtain ⟨d, rfl⟩ := exists_digitChar (h c List.mem_cons_self)
    obtain ⟨ds, rfl⟩ := ih fun c hc => h c (List.mem_cons_of_mem _ hc)
    exact ⟨d :: ds, rfl⟩

theorem digitsValue_digitsText (ds : List Digit) :
    Decimal.digitsValue (digitsText ds) = ofDigits ds := by
  unfold Decimal.digitsValue digitsText ofDigits
  rw [List.foldl_map]
  simp only [digitValue_digitChar]

theorem spanDigits_digitsText (ds : List Digit) {rest : List Char} (h : NoDigit rest) :
    Decimal.spanDigits (digitsText ds ++ rest) = (digitsText ds, rest) := by
  refine Decimal.spanDigits_append (fun _ => isDigit_of_mem_digitsText) ?_
  cases rest with
  | nil => rfl
  | cons c cs => simp [h c rfl]

theorem exists_spanDigits (cs : List Char) :
    ∃ ds, cs = digitsText ds ++ (Decimal.spanDigits cs).2 ∧
      (Decimal.spanDigits cs).1 = digitsText ds := by
  have hfront : ∀ c ∈ cs.takeWhile Char.isDigit, c.isDigit = true :=
    fun _ hc => List.mem_takeWhile_imp hc
  obtain ⟨ds, hds⟩ := exists_digitsText hfront
  exact ⟨ds, by rw [hds]; exact List.takeWhile_append_dropWhile.symm, hds.symm⟩

theorem splitSign_text (s : Sign) {cs : List Char} (h : Unsigned cs) :
    Decimal.splitSign (s.text ++ cs) = (s.isMinus, cs) := by
  cases s with
  | plus => rfl
  | minus => rfl
  | none =>
    show Decimal.splitSign cs = (false, cs)
    unfold Decimal.splitSign
    split
    · exact absurd rfl (h '-' rfl).2
    · exact absurd rfl (h '+' rfl).1
    · rfl

theorem exists_splitSign (cs : List Char) :
    ∃ s : Sign, cs = s.text ++ (Decimal.splitSign cs).2 ∧
      (Decimal.splitSign cs).1 = s.isMinus := by
  unfold Decimal.splitSign
  split
  · exact ⟨.minus, rfl, rfl⟩
  · exact ⟨.plus, rfl, rfl⟩
  · exact ⟨.none, rfl, rfl⟩

/-! ## Numbers -/

theorem digitsText_append (ds es : List Digit) :
    digitsText (ds ++ es) = digitsText ds ++ digitsText es := List.map_append

theorem ofDigits_append (ds es : List Digit) :
    ofDigits (ds ++ es) = 10 ^ es.length * ofDigits ds + ofDigits es := by
  have h := Decimal.digitsValue_append (digitsText ds) (digitsText es)
  rwa [← digitsText_append, digitsValue_digitsText, digitsValue_digitsText, digitsValue_digitsText,
    digitsText, List.length_map] at h

/-- A numeral stands for the double nearest to the number that it writes. -/
theorem Numeral.isNearest_value (x : Numeral) : Binary64.IsNearest x.value x.exact := by
  cases x with
  | whole d ds =>
    have h := Decimal.isNearest_scaled (ofDigits (d :: ds)) 0
    rwa [zpow_zero, mul_one] at h
  | pointed ws d ds =>
    have h := Decimal.isNearest_scaled (ofDigits (ws ++ d :: ds)) (-((d :: ds).length : ℤ))
    have hexact : (ofDigits (ws ++ d :: ds) : ℚ) * 10 ^ (-((d :: ds).length : ℤ)) =
        ofDigits ws + ofDigits (d :: ds) / 10 ^ (d :: ds).length := by
      rw [ofDigits_append, zpow_neg, zpow_natCast]
      push_cast
      field_simp
    rwa [hexact] at h

theorem wholeOnly_cons (d : Digit) (ds : List Digit) (rest : List Char) :
    wholeOnly (digitsText (d :: ds)) rest = some ((Numeral.whole d ds).value, rest) := by
  unfold wholeOnly
  rw [if_neg (by simp [digitsText]), digitsValue_digitsText, Numeral.value]

theorem wholeOnly_spelt {ds : List Digit} {cs rest : List Char} {x : Float}
    (h : wholeOnly (digitsText ds) cs = some (x, rest)) :
    ∃ s : Numeral, digitsText ds ++ cs = s.text ++ rest ∧ s.value = x := by
  cases ds with
  | nil => cases h
  | cons d ds =>
    rw [wholeOnly_cons] at h
    cases h
    exact ⟨.whole d ds, rfl, rfl⟩

theorem value_pointed (ws : List Digit) (d : Digit) (ds : List Digit) :
    Decimal.scaled (Decimal.digitsValue (digitsText ws ++ digitsText (d :: ds)))
      (-((digitsText (d :: ds)).length : Int)) = (Numeral.pointed ws d ds).value := by
  have hlength : (digitsText (d :: ds)).length = (d :: ds).length := List.length_map _
  rw [← digitsText_append, hlength, digitsValue_digitsText, Numeral.value]

theorem afterDigits_point (ws : List Digit) (d : Digit) (ds : List Digit) {rest : List Char}
    (h : NoDigit rest) : afterDigits (digitsText ws) ('.' :: (digitsText (d :: ds) ++ rest)) =
      some ((Numeral.pointed ws d ds).value, rest) := by
  simp only [afterDigits, spanDigits_digitsText _ h, value_pointed]
  rfl

theorem afterDigits_spelt {ds : List Digit} {cs rest : List Char} {x : Float}
    (h : afterDigits (digitsText ds) cs = some (x, rest)) :
    ∃ s : Numeral, digitsText ds ++ cs = s.text ++ rest ∧ s.value = x := by
  unfold afterDigits at h
  split at h
  · next tail =>
    obtain ⟨es, htail, hes⟩ := exists_spanDigits tail
    split at h
    · exact wholeOnly_spelt h
    · next hsome =>
      obtain ⟨e, es, rfl⟩ : ∃ e es', es = e :: es' :=
        List.exists_cons_of_ne_nil fun hnil => hsome (by rw [hes, hnil]; rfl)
      cases h
      refine ⟨.pointed ds e es, ?_, ?_⟩
      · rw [Numeral.text, List.append_assoc, List.cons_append, ← htail]
      · rw [hes, value_pointed]
  · exact wholeOnly_spelt h

theorem spells_numeral : Spells Numeral.text Numeral.value Closed splitNumber? where
  reads s rest hrest := by
    rw [splitNumber?_eq]
    cases s with
    | whole d ds =>
      rw [Numeral.text, spanDigits_digitsText _ hrest.noDigit]
      refine (afterDigits.eq_2 _ rest ?_).trans (wholeOnly_cons d ds rest)
      rintro tail rfl
      exact (hrest '.' rfl).2 rfl
    | pointed ws d ds =>
      rw [Numeral.text, List.append_assoc, List.cons_append,
        spanDigits_digitsText _ (noDigit_point _)]
      exact afterDigits_point ws d ds hrest.noDigit
  spelt {cs rest x} h := by
    obtain ⟨ds, hcs, hds⟩ := exists_spanDigits cs
    rw [splitNumber?_eq, hds] at h
    rw [hcs]
    exact afterDigits_spelt h

theorem splitSigned?_eq (cs : List Char) :
    splitSigned? cs = (splitNumber? (Decimal.splitSign cs).2).map fun r =>
      (negateIf (Decimal.splitSign cs).1 r.1, r.2) := rfl

theorem spells_signed : Spells Signed.text Signed.value Closed splitSigned? where
  reads s rest hrest := by
    rw [splitSigned?_eq, Signed.text, List.append_assoc,
      splitSign_text _ (s.numeral.unsigned_text rest), spells_numeral.reads s.numeral hrest]
    rfl
  spelt {cs rest x} h := by
    obtain ⟨s, hcs, hs⟩ := exists_splitSign cs
    rw [splitSigned?_eq, hs] at h
    obtain ⟨⟨y, more⟩, hread, heq⟩ := Option.map_eq_some_iff.mp h
    cases heq
    obtain ⟨numeral, htext, rfl⟩ := spells_numeral.spelt hread
    refine ⟨⟨s, numeral⟩, ?_, rfl⟩
    rw [Signed.text, List.append_assoc, ← htext]
    exact hcs

/-! ## Note names -/

theorem letter?_char (l : Letter) : NoteName.letter? l.char = some l.semitone := by cases l <;> rfl

theorem exists_letter {c : Char} {n : Int} (h : NoteName.letter? c = some n) :
    ∃ l : Letter, l.char = c ∧ l.semitone = n := by
  unfold NoteName.letter? at h
  split at h <;> cases h
  · exact ⟨.c, rfl, rfl⟩
  · exact ⟨.d, rfl, rfl⟩
  · exact ⟨.e, rfl, rfl⟩
  · exact ⟨.f, rfl, rfl⟩
  · exact ⟨.g, rfl, rfl⟩
  · exact ⟨.a, rfl, rfl⟩
  · exact ⟨.b, rfl, rfl⟩

theorem splitAccidental_mark (a : Accidental) (below : Bool) (o : Digit) (rest : List Char) :
    NoteName.splitAccidental (a.mark.toList ++ (Name.octaveText below o ++ rest)) =
      (a.shift, Name.octaveText below o ++ rest) := by
  have hsharp := Name.head?_octaveText below o rest (c := '#') (by decide) (by decide)
  have hflat := Name.head?_octaveText below o rest (c := 'b') (by decide) (by decide)
  cases a with
  | sharp => rfl
  | flat => rfl
  | natural =>
    show NoteName.splitAccidental (Name.octaveText below o ++ rest) = _
    generalize Name.octaveText below o ++ rest = cs at *
    unfold NoteName.splitAccidental
    split
    · exact absurd rfl hsharp
    · exact absurd rfl hflat
    · rfl

theorem exists_splitAccidental (cs : List Char) :
    ∃ a : Accidental, cs = a.mark.toList ++ (NoteName.splitAccidental cs).2 ∧
      (NoteName.splitAccidental cs).1 = a.shift := by
  unfold NoteName.splitAccidental
  split
  · exact ⟨.sharp, rfl, rfl⟩
  · exact ⟨.flat, rfl, rfl⟩
  · exact ⟨.natural, rfl, rfl⟩

theorem splitOctave?_text (below : Bool) (o : Digit) (rest : List Char) :
    NoteName.splitOctave? (Name.octaveText below o ++ rest) =
      some (if below then -(o.val : Int) else o.val, rest) := by
  have hdigit := isDigit_digitChar o
  have hne : digitChar o ≠ '-' := digitChar_ne (by decide) o
  cases below with
  | true =>
    simp [NoteName.splitOctave?, Name.octaveText, hdigit, digitValue_digitChar]
  | false =>
    simp [NoteName.splitOctave?, Name.octaveText, hdigit, hne, digitValue_digitChar]

theorem exists_splitOctave? {cs rest : List Char} {n : Int}
    (h : NoteName.splitOctave? cs = some (n, rest)) :
    ∃ (below : Bool) (o : Digit), cs = Name.octaveText below o ++ rest ∧
      (if below then -(o.val : Int) else o.val) = n := by
  unfold NoteName.splitOctave? at h
  split at h
  · split at h
    · next hdigit =>
      obtain ⟨o, rfl⟩ := exists_digitChar hdigit
      cases h
      exact ⟨true, o, rfl, by rw [digitValue_digitChar]; rfl⟩
    · cases h
  · split at h
    · next hdigit =>
      obtain ⟨o, rfl⟩ := exists_digitChar hdigit
      cases h
      exact ⟨false, o, rfl, by rw [digitValue_digitChar]; rfl⟩
    · cases h
  · cases h

theorem spells_name : Spells Name.text Name.number (fun _ => True) NoteName.split? where
  reads s rest _ := by
    show NoteName.split? (s.letter.char :: (s.accidental.mark.toList ++
      Name.octaveText s.below s.octave ++ rest)) = _
    rw [split?_cons, letter?_char, Option.bind_some, List.append_assoc, splitAccidental_mark,
      splitOctave?_text]
    rfl
  spelt {cs rest x} h := by
    cases cs with
    | nil => cases h
    | cons c cs =>
      rw [split?_cons] at h
      obtain ⟨semitone, hletter, h⟩ := Option.bind_eq_some_iff.mp h
      obtain ⟨⟨octave, more⟩, hoctave, heq⟩ := Option.map_eq_some_iff.mp h
      cases heq
      obtain ⟨l, rfl, rfl⟩ := exists_letter hletter
      obtain ⟨a, hcs, ha⟩ := exists_splitAccidental cs
      obtain ⟨below, o, htext, rfl⟩ := exists_splitOctave? hoctave
      refine ⟨⟨l, a, below, o⟩, ?_, ?_⟩
      · rw [Name.text, List.cons_append, List.append_assoc, ← htext, ← hcs]
      · rw [ha]
        rfl

/-! ## Tokens and spans -/

theorem splitToken?_of_name {cs rest : List Char} {n : Int}
    (h : NoteName.split? (Decimal.splitSign cs).2 = some (n, rest)) :
    splitToken? cs =
      some (Float.ofInt (if (Decimal.splitSign cs).1 then -n else n), rest) := by
  simp only [splitToken?, h]

theorem splitToken?_of_nameless {cs : List Char}
    (h : NoteName.split? (Decimal.splitSign cs).2 = none) : splitToken? cs = splitSigned? cs := by
  simp only [splitToken?, h]

theorem spells_token : Spells Token.text Token.value Closed splitToken? where
  reads s rest hrest := by
    cases s with
    | note sign name =>
      have hsplit := splitSign_text sign (name.unsigned_text rest)
      have hname : NoteName.split? (Decimal.splitSign (sign.text ++ (name.text ++ rest))).2 =
          some (name.number, rest) := by
        rw [hsplit]
        exact spells_name.reads name trivial
      rw [Token.text, List.append_assoc, splitToken?_of_name hname, hsplit]
      rfl
    | number x =>
      refine (splitToken?_of_nameless (Option.eq_none_iff_forall_ne_some.mpr ?_)).trans
        (spells_signed.reads x hrest)
      rintro ⟨n, more⟩ hname
      rw [Token.text, Signed.text, List.append_assoc,
        splitSign_text _ (x.numeral.unsigned_text rest)] at hname
      obtain ⟨name, htext, -⟩ := spells_name.spelt hname
      exact name.text_ne x.numeral more rest htext.symm
  spelt {cs rest x} h := by
    cases hname : NoteName.split? (Decimal.splitSign cs).2 with
    | some r =>
      obtain ⟨n, more⟩ := r
      rw [splitToken?_of_name hname] at h
      cases h
      obtain ⟨sign, hcs, hsign⟩ := exists_splitSign cs
      obtain ⟨name, htext, rfl⟩ := spells_name.spelt hname
      refine ⟨.note sign name, ?_, ?_⟩
      · rw [Token.text, List.append_assoc, ← htext]
        exact hcs
      · rw [hsign]
        rfl
    | none =>
      rw [splitToken?_of_nameless hname] at h
      obtain ⟨x, hcs, rfl⟩ := spells_signed.spelt h
      exact ⟨.number x, hcs, rfl⟩

theorem afterFirst_text (a : Token) (b : Option Token) {rest : List Char} (h : Ended rest) :
    afterFirst a.value (Span.secondText b ++ rest) =
      some (((Span.mk a b).low, (Span.mk a b).high), rest) := by
  cases b with
  | some b =>
    show (splitToken? (b.text ++ rest)).map _ = _
    rw [spells_token.reads b h.1]
    rfl
  | none =>
    show afterFirst a.value rest = _
    unfold afterFirst
    split
    · exact absurd rfl h.2
    · rfl

theorem afterFirst_spelt {a : Token} {cs rest : List Char} {p : Float × Float}
    (h : afterFirst a.value cs = some (p, rest)) :
    ∃ b, cs = Span.secondText b ++ rest ∧ ((Span.mk a b).low, (Span.mk a b).high) = p := by
  unfold afterFirst at h
  split at h
  · obtain ⟨⟨y, more⟩, hsecond, heq⟩ := Option.map_eq_some_iff.mp h
    cases heq
    obtain ⟨b, rfl, rfl⟩ := spells_token.spelt hsecond
    exact ⟨some b, rfl, rfl⟩
  · cases h
    exact ⟨none, rfl, rfl⟩

theorem spells_span : Spells Span.text (fun s => (s.low, s.high)) Ended splitPair? where
  reads s rest hrest := by
    rw [splitPair?_eq, Span.text, List.append_assoc,
      spells_token.reads s.first (closed_secondText s.second hrest.1), Option.bind_some]
    exact afterFirst_text s.first s.second hrest
  spelt {cs rest x} h := by
    rw [splitPair?_eq] at h
    obtain ⟨⟨y, more⟩, hfirst, hsecond⟩ := Option.bind_eq_some_iff.mp h
    obtain ⟨a, rfl, rfl⟩ := spells_token.spelt hfirst
    obtain ⟨b, htext, hvalue⟩ := afterFirst_spelt hsecond
    refine ⟨⟨a, b⟩, ?_, hvalue⟩
    rw [Span.text, List.append_assoc, ← htext]

/-! ## Transforms -/

theorem readOffset?_of_sign {c : Char} {cs : List Char} {x : Float} (hsign : c = '+' ∨ c = '-')
    (hread : splitSigned? (c :: cs) = some (x, [])) : readOffset? (c :: cs) = some x := by
  simp only [readOffset?, if_pos hsign, hread]

theorem readOffset?_text (offset : Option (Bool × Numeral)) :
    readOffset? (Tail.offsetText offset) = some (Tail.offsetValue offset) := by
  have hread (s : Sign) (x : Numeral) : splitSigned? (Signed.text ⟨s, x⟩) =
      some (Signed.value ⟨s, x⟩, []) := by
    have h := spells_signed.reads ⟨s, x⟩ closed_nil
    rwa [List.append_nil] at h
  match offset with
  | none => rfl
  | some (true, x) => exact readOffset?_of_sign (.inr rfl) (hread .minus x)
  | some (false, x) => exact readOffset?_of_sign (.inl rfl) (hread .plus x)

theorem exists_offset {cs : List Char} {x : Float} (h : readOffset? cs = some x) :
    ∃ offset, cs = Tail.offsetText offset ∧ Tail.offsetValue offset = x := by
  unfold readOffset? at h
  split at h
  · cases h
    exact ⟨none, rfl, rfl⟩
  · next c cs =>
    split at h
    · next hsign =>
      split at h
      · next y hread =>
        cases h
        obtain ⟨⟨s, numeral⟩, htext, rfl⟩ := spells_signed.spelt hread
        rw [List.append_nil] at htext
        rw [htext]
        cases s with
        | plus => exact ⟨some (false, numeral), rfl, rfl⟩
        | minus => exact ⟨some (true, numeral), rfl, rfl⟩
        | none =>
          have hunsigned := numeral.unsigned_text [] c (by
            rw [List.append_nil, show numeral.text = c :: cs from htext.symm]
            rfl)
          exact absurd hsign (not_or.mpr hunsigned)
      · cases h
    · cases h

theorem readTransform?_onto {cs : List Char} {low high : Float}
    (hread : splitPair? cs = some ((low, high), [])) :
    readTransform? ('=' :: cs) = some (.fromTo low high) := by
  simp only [readTransform?, hread]

theorem readTransform?_text (t : Tail) : readTransform? t.text = some t.transform := by
  cases t with
  | plain => rfl
  | affine factor offset =>
    show (splitSigned? (factor.text ++ Tail.offsetText offset)).bind _ = _
    rw [spells_signed.reads factor (closed_offsetText offset), Option.bind_some]
    show (readOffset? (Tail.offsetText offset)).bind _ = _
    rw [readOffset?_text]
    rfl
  | onto target =>
    have hread := spells_span.reads target ended_nil
    rw [List.append_nil] at hread
    exact readTransform?_onto hread

theorem exists_tail {cs : List Char} {t : Transform} (h : readTransform? cs = some t) :
    ∃ tail : Tail, cs = tail.text ∧ tail.transform = t := by
  unfold readTransform? at h
  split at h
  · cases h
    exact ⟨.plain, rfl, rfl⟩
  · obtain ⟨⟨mul, rest⟩, hfactor, h⟩ := Option.bind_eq_some_iff.mp h
    obtain ⟨add, hoffset, h⟩ := Option.bind_eq_some_iff.mp h
    cases h
    obtain ⟨factor, rfl, rfl⟩ := spells_signed.spelt hfactor
    obtain ⟨offset, rfl, rfl⟩ := exists_offset hoffset
    exact ⟨.affine factor offset, rfl, rfl⟩
  · split at h
    · next hpair =>
      cases h
      obtain ⟨target, rfl, heq⟩ := spells_span.spelt hpair
      cases heq
      exact ⟨.onto target, by rw [List.append_nil]; rfl, rfl⟩
    · cases h
  · cases h

/-! ## Ranges -/

theorem readResolved?_iff {cs : List Char} {r : Range} :
    readResolved? cs = some r ↔ ∃ f : Form, cs = f.text ∧ f.range = r := by
  rw [readResolved?_eq_some]
  constructor
  · rintro ⟨rest, hpair, htransform⟩
    obtain ⟨domain, rfl, heq⟩ := spells_span.spelt hpair
    obtain ⟨tail, rfl, hmap⟩ := exists_tail htransform
    refine ⟨⟨domain, tail⟩, rfl, ?_⟩
    obtain ⟨hlow, hhigh⟩ := Prod.mk.inj heq
    simp only [Form.range, hlow, hhigh, hmap]
  · rintro ⟨f, rfl, rfl⟩
    exact ⟨f.tail.text, spells_span.reads f.domain (ended_text f.tail), readTransform?_text f.tail⟩

/-! ## Blanks -/

/-- A text with blanks put anywhere into it. -/
inductive Spaced : List Char → List Char → Prop where
  | nil : Spaced [] []
  | char {cs ds : List Char} (c : Char) (h : Spaced cs ds) : Spaced (c :: cs) (c :: ds)
  | blank {cs ds : List Char} {c : Char} (hc : isBlank c = true) (h : Spaced cs ds) :
      Spaced cs (c :: ds)

theorem spaced_iff {cs ds : List Char} (h : Unblank cs) : Spaced cs ds ↔ squeeze ds = cs := by
  constructor
  · intro hspaced
    induction hspaced with
    | nil => rfl
    | char c _ ih =>
      have hc : isBlank c = false := h c List.mem_cons_self
      rw [squeeze, List.filter_cons_of_pos (by simp [hc])]
      exact congrArg (c :: ·) (ih fun d hd => h d (List.mem_cons_of_mem c hd))
    | blank hc _ ih =>
      rw [squeeze, List.filter_cons_of_neg (by simp [hc])]
      exact ih h
  · rintro rfl
    clear h
    induction ds with
    | nil => exact .nil
    | cons d ds ih =>
      unfold squeeze at ih ⊢
      rw [List.filter_cons]
      split
      · exact .char d ih
      · next hd => exact .blank (by simpa using hd) ih

theorem isBlank_of_isTokenChar {c : Char} (h : isTokenChar c = true) : isBlank c = false := by
  have hbounds : 33 ≤ c.toNat ∧ c.toNat ≤ 126 := by
    simp only [isTokenChar, isWordChar, Char.isAlphanum, Char.isAlpha, Char.isUpper, Char.isLower,
      Char.isDigit, Bool.or_eq_true, Bool.and_eq_true, decide_eq_true_eq, beq_iff_eq,
      UInt32.le_iff_toNat_le, ge_iff_le] at h
    change (((((((65 ≤ c.toNat ∧ c.toNat ≤ 90) ∨ (97 ≤ c.toNat ∧ c.toNat ≤ 122)) ∨
      (48 ≤ c.toNat ∧ c.toNat ≤ 57)) ∨ c = '_') ∨ c = '.') ∨ c = '#') ∨ c = '+') ∨ c = '-' at h
    rcases h with ((((((h | h) | h) | rfl) | rfl) | rfl) | rfl) | rfl
    all_goals first | omega | decide
  simp only [isBlank, Bool.or_eq_false_iff, Bool.and_eq_false_iff, decide_eq_false_iff_not,
    beq_eq_false_iff_ne]
  omega

theorem unblank_text (f : Form) : Unblank f.text := by
  intro c hc
  rcases chars_of_readResolved? (readResolved?_iff.mpr ⟨f, rfl, rfl⟩) c hc with h | h
  · exact isBlank_of_isTokenChar h
  · rcases isMark_iff.mp h with rfl | rfl <;> decide

theorem resolve_empty (text : String) : resolve .empty text = squeeze text.toList :=
  squeeze_trimChars text.toList

/-- The value of a note is what its name is read as by itself. -/
theorem read?_note (sign : Sign) (name : Name) :
    NoteName.read? (String.ofList (Token.note sign name).text) =
      some (if sign.isMinus then -name.number else name.number) := by
  have hunblank : Unblank (Token.note sign name).text := by
    have h := unblank_text ⟨⟨.note sign name, none⟩, .plain⟩
    simpa [Form.text, Span.text, Span.secondText, Tail.text] using h
  have hname : NoteName.split? (name.text ++ []) = some (name.number, []) :=
    spells_name.reads name trivial
  have hsign := splitSign_text sign (name.unsigned_text [])
  rw [List.append_nil] at hname hsign
  unfold NoteName.read?
  rw [String.toList_ofList, hunblank.trimChars_eq, Token.text, hsign]
  simp only [hname]

/-- A text is read as a range exactly if it is the text of a form, with blanks anywhere: it is that
of one form only, and is read as the range that this form stands for. -/
theorem read_grammar (text : String) :
    (∀ f : Form, Spaced f.text text.toList →
      read .empty text = .ok f.range ∧ ∀ g : Form, Spaced g.text text.toList → g = f) ∧
    ((∀ f : Form, ¬ Spaced f.text text.toList) →
      ∃ error : CompileError, read .empty text = .error error) := by
  have hspaced (f : Form) : Spaced f.text text.toList ↔ resolve .empty text = f.text := by
    rw [spaced_iff (unblank_text f), resolve_empty]
  simp only [hspaced]
  constructor
  · intro f hf
    refine ⟨read_eq_ok.mpr (readResolved?_iff.mpr ⟨f, hf, rfl⟩), fun g hg => ?_⟩
    exact Form.text_injective (hg.symm.trans hf)
  · intro hnone
    cases hread : read .empty text with
    | error error => exact ⟨error, rfl⟩
    | ok r =>
      obtain ⟨f, hf, -⟩ := readResolved?_iff.mp (read_eq_ok.mp hread)
      exact absurd hf (hnone f)

/-- From the lowest note to middle `C`. -/
def lowerNotes : Form :=
  ⟨⟨.note .none ⟨.c, .natural, true, 1⟩, some (.note .none ⟨.c, .natural, false, 4⟩)⟩, .plain⟩

theorem read_grammar_notes :
    Spaced lowerNotes.text " C-1 - C4".toList ∧
      read .empty " C-1 - C4" = .ok ⟨Float.ofInt 0, Float.ofInt 60, .identity⟩ ∧
      ∀ g : Form, Spaced g.text " C-1 - C4".toList → g = lowerNotes := by
  have h : Spaced lowerNotes.text " C-1 - C4".toList :=
    (spaced_iff (unblank_text lowerNotes)).mpr (by decide)
  exact ⟨h, (read_grammar " C-1 - C4").1 lowerNotes h⟩

end MidiRig.Range
