import MidiRig.Document.Toml.Reader
import MidiRig.Document.Toml.Writer
import MidiRig.Proofs.Event.Text

/-!
# Quoted texts and keys

A text in quotes is read again as it was (`readQuoted?_quote`), unless another quote follows, and a
key is read again with or without quotes (`readKey?_writeKey`).
-/

namespace MidiRig.Toml

/-! ## Characters -/

/-- The characters of a basic text. -/
def quoted (cs : List Char) : List Char := cs.flatMap fun c => (quoteChar c).toList

theorem toList_quote (s : String) : (quote s).toList = '"' :: (quoted s.toList ++ ['"']) := by
  have hjoin : (String.join (s.toList.map quoteChar)).toList = quoted s.toList := by
    rw [String.toList_join, List.flatMap_map]
    rfl
  rw [quote, String.toList_append, String.toList_append, hjoin]
  rfl

/-- The two digits that an escape ends in give the character back. -/
theorem scalar?_hexDigits {n : ℕ} (hn : n < 128) :
    scalar? ['0', '0', Event.hexDigit (n / 16), Event.hexDigit (n % 16)] = some (Char.ofNat n) := by
  obtain ⟨hhigh, -⟩ := Event.hexDigit_spec (n / 16) (by omega)
  obtain ⟨hlow, -⟩ := Event.hexDigit_spec (n % 16) (by omega)
  have hzero : Event.hexValue? '0' = some 0 := rfl
  have hvalue : 16 * (n / 16) + n % 16 = n := Nat.div_add_mod n 16
  simp [scalar?, hhigh, hlow, hzero, hvalue]
  omega

/-- A character that is not plain is one of the first 128. -/
theorem toNat_lt_of_not_isPlain {c : Char} (h : isPlain c = false) : c.toNat < 128 := by
  simp only [isPlain, Bool.or_eq_false_iff, Bool.and_eq_false_iff, decide_eq_false_iff_not,
    bne_eq_false_iff_eq] at h
  omega

theorem readBasic?_plain {c : Char} (hplain : isPlain c = true) (hquote : c ≠ '"')
    (hbackslash : c ≠ '\\') (rest : List Char) :
    readBasic? (c :: rest) = push c (readBasic? rest) := by
  rw [readBasic?]
  · rw [if_pos hplain]
  all_goals intros; simp_all

/-- One character is read back from however it is written. -/
theorem readBasic?_quoteChar (c : Char) (rest : List Char) :
    readBasic? ((quoteChar c).toList ++ rest) = push c (readBasic? rest) := by
  unfold quoteChar
  split
  · next h =>
    rw [beq_iff_eq.mp h]
    rfl
  split
  · next h =>
    rw [beq_iff_eq.mp h]
    rfl
  next hquote hbackslash =>
  split
  · next hplain =>
    rw [String.toList_singleton]
    exact readBasic?_plain hplain (fun h => hquote (beq_iff_eq.mpr h))
      (fun h => hbackslash (beq_iff_eq.mpr h)) rest
  · next hcontrol =>
    have hsmall := toNat_lt_of_not_isPlain (Bool.eq_false_iff.mpr hcontrol)
    have hmark : "\\u00".toList = ['\\', 'u', '0', '0'] := rfl
    rw [String.toList_append, hmark, String.toList_ofList]
    simp only [List.cons_append, List.nil_append]
    rw [readBasic?, scalar?_hexDigits hsmall, Char.ofNat_toNat]
    rfl

theorem readBasic?_quoted (cs rest : List Char) :
    readBasic? (quoted cs ++ '"' :: rest) = some (cs, rest) := by
  induction cs with
  | nil => rfl
  | cons c cs ih =>
    show readBasic? (((quoteChar c).toList ++ quoted cs) ++ '"' :: rest) = _
    rw [List.append_assoc, readBasic?_quoteChar, ih]
    rfl

/-! ## Texts -/

/-- Within a basic text no character is written with a quote in front. -/
theorem quoteChar_head (c : Char) : ∃ d ds, (quoteChar c).toList = d :: ds ∧ d ≠ '"' := by
  unfold quoteChar
  split
  · exact ⟨'\\', _, rfl, by decide⟩
  split
  · exact ⟨'\\', _, rfl, by decide⟩
  next hquote hbackslash =>
  split
  · exact ⟨c, [], String.toList_singleton c, fun h => hquote (beq_iff_eq.mpr h)⟩
  · exact ⟨'\\', _, by rw [String.toList_append]; rfl, by decide⟩

/-- Behind an opening quote a text of one line follows, unless two more quotes do. -/
theorem readQuoted?_basic {cs : List Char} (h : ∀ ds, cs ≠ '"' :: '"' :: ds) :
    readQuoted? ('"' :: cs) =
      (readBasic? cs).map fun (text, rest) => (String.ofList text, rest) := by
  rw [readQuoted?]
  exact fun ds hds => h ds hds

/-- A text is read up to its closing quote. Behind an empty text a further quote would begin a
text of several lines. -/
theorem readQuoted?_quote (s : String) {rest : List Char} (hrest : ∀ cs, rest ≠ '"' :: cs) :
    readQuoted? ((quote s).toList ++ rest) = some (s, rest) := by
  have hone : ∀ cs, quoted s.toList ++ '"' :: rest ≠ '"' :: '"' :: cs := by
    intro cs h
    cases hs : s.toList with
    | nil =>
      rw [hs] at h
      exact hrest cs (List.cons.inj h).2
    | cons c tail =>
      obtain ⟨d, ds, hd, hne⟩ := quoteChar_head c
      rw [hs, quoted, List.flatMap_cons, hd] at h
      exact hne (List.cons.inj h).1
  rw [toList_quote, List.cons_append, List.append_assoc, List.singleton_append,
    readQuoted?_basic hone, readBasic?_quoted, Option.map_some]
  exact congrArg (fun text => some (text, rest)) String.ofList_toList

/-! ## Keys -/

/-- What may follow a key: a blank, or the end of a header. -/
def EndsKey (rest : List Char) : Prop := ∃ c cs, rest = c :: cs ∧ (c = ' ' ∨ c = ']')

theorem EndsKey.span {rest : List Char} (hrest : EndsKey rest) {cs : List Char}
    (hcs : ∀ c ∈ cs, isBare c = true) :
    (cs ++ rest).takeWhile isBare = cs ∧ (cs ++ rest).dropWhile isBare = rest := by
  obtain ⟨c, ds, rfl, hc⟩ := hrest
  have hend : isBare c = false := by rcases hc with rfl | rfl <;> rfl
  rw [List.takeWhile_append_of_pos hcs, List.dropWhile_append_of_pos hcs,
    List.takeWhile_cons_of_neg (Bool.eq_false_iff.mp hend),
    List.dropWhile_cons_of_neg (Bool.eq_false_iff.mp hend), List.append_nil]
  exact ⟨rfl, rfl⟩

/-- A key without quotes. -/
theorem readPart?_bare {c : Char} (hc : isBare c = true) (cs : List Char) :
    readPart? (c :: cs) =
      some (String.ofList ((c :: cs).takeWhile isBare), (c :: cs).dropWhile isBare) := by
  have hquote : c ≠ '"' := by rintro rfl; exact absurd hc (by decide)
  have hliteral : c ≠ '\'' := by rintro rfl; exact absurd hc (by decide)
  rw [readPart?]
  · rw [if_neg]
    rw [List.takeWhile_cons_of_pos hc]
    exact Bool.false_ne_true
  · rintro _ ⟨rfl, rfl⟩; exact hquote rfl
  · rintro _ ⟨rfl, rfl⟩; exact hliteral rfl

theorem writeKey_begins (key : String) :
    ∃ c cs, (writeKey key).toList = c :: cs ∧ (isBare c = true ∨ c = '"') := by
  unfold writeKey
  split
  · next hbare =>
    simp only [Bool.and_eq_true, Bool.not_eq_true', List.all_eq_true] at hbare
    cases hkey : key.toList with
    | nil =>
      rw [String.toList_eq_nil_iff.mp hkey] at hbare
      exact absurd hbare.1 (by decide)
    | cons c cs => exact ⟨c, cs, rfl, .inl (hbare.2 c (hkey ▸ List.mem_cons_self))⟩
  · exact ⟨'"', _, toList_quote key, .inr rfl⟩

/-- No key begins with a character of another use. -/
theorem not_mem_of_key {c : Char} (hc : isBare c = true ∨ c = '"') {marks : List Char}
    (hmarks : marks.all (fun d => !(isBare d || d == '"')) = true) : c ∉ marks := by
  intro hmem
  have hnone := List.all_eq_true.mp hmarks c hmem
  rw [Bool.not_eq_true', Bool.or_eq_false_iff, beq_eq_false_iff_ne] at hnone
  rcases hc with hc | hc
  · exact absurd hc (Bool.eq_false_iff.mp hnone.1)
  · exact hnone.2 hc

theorem ne_of_key {c d : Char} (hc : isBare c = true ∨ c = '"')
    (hd : (isBare d || d == '"') = false) : c ≠ d := fun h =>
  not_mem_of_key hc (by rw [List.all_cons, hd]; rfl) (List.mem_singleton.mpr h)

theorem isSpace_eq_false {c : Char} (hblank : c ≠ ' ') (htab : c ≠ '\t') : isSpace c = false := by
  rw [isSpace, Bool.or_eq_false_iff, beq_eq_false_iff_ne, beq_eq_false_iff_ne]
  exact ⟨hblank, htab⟩

/-- Nothing is skipped in front of a character that is no space. -/
theorem skipSpaces_cons {c : Char} (hc : isSpace c = false) (cs : List Char) :
    skipSpaces (c :: cs) = c :: cs :=
  List.dropWhile_cons_of_neg (Bool.eq_false_iff.mp hc)

theorem skipSpaces_key {c : Char} (hc : isBare c = true ∨ c = '"') (cs : List Char) :
    skipSpaces (c :: cs) = c :: cs :=
  skipSpaces_cons (isSpace_eq_false (ne_of_key hc (by decide)) (ne_of_key hc (by decide))) cs

/-- A key is written without a blank in front. -/
theorem skipSpaces_writeKey (key : String) (rest : List Char) :
    skipSpaces ((writeKey key).toList ++ rest) = (writeKey key).toList ++ rest := by
  obtain ⟨c, cs, hkey, hc⟩ := writeKey_begins key
  rw [hkey, List.cons_append, skipSpaces_key hc]

theorem readPart?_writeKey (key : String) {rest : List Char} (hrest : EndsKey rest) :
    readPart? ((writeKey key).toList ++ rest) = some (key, rest) := by
  unfold writeKey
  split
  · next hbare =>
    simp only [Bool.and_eq_true, Bool.not_eq_true', List.all_eq_true] at hbare
    obtain ⟨htake, hdrop⟩ := hrest.span hbare.2
    cases hkey : key.toList with
    | nil =>
      rw [String.toList_eq_nil_iff.mp hkey] at hbare
      exact absurd hbare.1 (by decide)
    | cons c cs =>
      rw [List.cons_append, readPart?_bare (hbare.2 c (hkey ▸ List.mem_cons_self)),
        ← List.cons_append, ← hkey, htake, hdrop, String.ofList_toList]
  · rw [toList_quote, List.cons_append, List.append_assoc, List.singleton_append]
    show (readBasic? (quoted key.toList ++ '"' :: rest)).map _ = _
    rw [readBasic?_quoted, Option.map_some]
    exact congrArg (fun text => some (text, rest)) String.ofList_toList

/-- A key is read as its one part, and the blanks behind it are skipped. -/
theorem readKey?_writeKey (key : String) {rest : List Char} (hrest : EndsKey rest)
    (hpoint : ∀ cs, skipSpaces rest ≠ '.' :: cs) :
    readKey? ((writeKey key).toList ++ rest) = some ([key], skipSpaces rest) := by
  rw [readKey?, depthLimit]
  show readParts? (78 + 1) _ = _
  rw [readParts?, skipSpaces_writeKey, readPart?_writeKey key hrest, Option.bind_eq_bind,
    Option.bind_some]
  dsimp only
  split
  · next heq => exact absurd heq (hpoint _)
  · rfl

end MidiRig.Toml
