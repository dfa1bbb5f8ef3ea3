import Mathlib.Data.List.DropRight
import MidiRig.Text.Blank

/-!
# Texts put together and taken apart

Texts without blanks pass through trimming and squeezing unchanged, words joined by blanks are the
words of the whole, and a text is cut at the separator that was put into it. The pieces of a text
are what it is made of but for the separators.
-/

namespace MidiRig.Text

/-- No character is a blank. -/
def Unblank (cs : List Char) : Prop := ∀ c ∈ cs, isBlank c = false

instance (cs : List Char) : Decidable (Unblank cs) :=
  List.decidableBAll (fun c => isBlank c = false) cs

theorem Unblank.append {cs ds : List Char} (h : Unblank cs) (h' : Unblank ds) :
    Unblank (cs ++ ds) := by
  intro c hc
  rcases List.mem_append.mp hc with hc | hc
  · exact h c hc
  · exact h' c hc

theorem Unblank.cons {c : Char} {cs : List Char} (h : isBlank c = false) (h' : Unblank cs) :
    Unblank (c :: cs) := by
  intro d hd
  rcases List.mem_cons.mp hd with rfl | hd
  · exact h
  · exact h' d hd

theorem Unblank.sublist {cs ds : List Char} (h : Unblank ds) (hsub : cs.Sublist ds) : Unblank cs :=
  fun c hc => h c (hsub.subset hc)

/-! ## Trimming -/

theorem Unblank.dropWhile_eq {cs : List Char} (h : Unblank cs) : cs.dropWhile isBlank = cs := by
  cases cs with
  | nil => rfl
  | cons c cs => simp [h c List.mem_cons_self]

theorem Unblank.trimChars_eq {cs : List Char} (h : Unblank cs) : trimChars cs = cs := by
  have hreverse : Unblank cs.reverse := fun c hc => h c (List.mem_reverse.mp hc)
  rw [trimChars, h.dropWhile_eq, hreverse.dropWhile_eq, List.reverse_reverse]

theorem Unblank.trim_eq {s : String} (h : Unblank s.toList) : trim s = s := by
  rw [trim, h.trimChars_eq, String.ofList_toList]

theorem Unblank.squeeze_eq {cs : List Char} (h : Unblank cs) : squeeze cs = cs :=
  List.filter_eq_self.mpr fun c hc => by simp [h c hc]

theorem mem_dropWhile_blank {c : Char} {cs : List Char} (h : c ∈ cs) (hc : isBlank c = false) :
    c ∈ cs.dropWhile isBlank := by
  induction cs with
  | nil => exact absurd h List.not_mem_nil
  | cons d ds ih =>
    rw [List.dropWhile_cons]
    split
    · next hd =>
      rcases List.mem_cons.mp h with rfl | h
      · rw [hc] at hd
        exact absurd hd Bool.false_ne_true
      · exact ih h
    · exact h

/-- Trimming takes away nothing but blanks. -/
theorem mem_trimChars {c : Char} {cs : List Char} (h : c ∈ cs) (hc : isBlank c = false) :
    c ∈ trimChars cs :=
  List.mem_reverse.mpr
    (mem_dropWhile_blank (List.mem_reverse.mpr (mem_dropWhile_blank h hc)) hc)

theorem trimChars_eq_rdropWhile (cs : List Char) :
    trimChars cs = (cs.dropWhile isBlank).rdropWhile isBlank := rfl

/-- What has been trimmed has no blanks at its ends. -/
theorem trimChars_trimChars (cs : List Char) : trimChars (trimChars cs) = trimChars cs := by
  have hfront : (trimChars cs).dropWhile isBlank = trimChars cs := by
    have hbegins : trimChars cs <+: cs.dropWhile isBlank := List.rdropWhile_prefix isBlank _
    cases htrimmed : trimChars cs with
    | nil => rfl
    | cons c ds =>
      obtain ⟨rest, hrest⟩ := htrimmed ▸ hbegins
      have hne : cs.dropWhile isBlank ≠ [] := hrest ▸ List.cons_ne_nil c _
      have hhead := List.head_dropWhile_not isBlank hne
      simp only [← hrest, List.cons_append, List.head_cons] at hhead
      rw [List.dropWhile_cons_of_neg (by simp [hhead])]
  rw [trimChars_eq_rdropWhile (trimChars cs), hfront, trimChars_eq_rdropWhile]
  exact List.rdropWhile_idempotent isBlank _

theorem trim_trim (s : String) : trim (trim s) = trim s := by
  rw [trim, trim, String.toList_ofList, trimChars_trimChars]

/-- A text that does not begin with a blank is trimmed at its end only. -/
theorem Unblank.trimChars_append {w : List Char} (h : Unblank w) (hne : w ≠ []) (cs : List Char) :
    trimChars (w ++ cs) = w ++ cs.rdropWhile isBlank := by
  have hreverse : Unblank w.reverse := fun c hc => h c (List.mem_reverse.mp hc)
  have hfront : (w ++ cs).dropWhile isBlank = w ++ cs := by
    obtain ⟨c, w, rfl⟩ := List.exists_cons_of_ne_nil hne
    exact List.dropWhile_cons_of_neg (by simp [h c List.mem_cons_self])
  rw [trimChars_eq_rdropWhile, hfront, List.rdropWhile, List.rdropWhile, List.reverse_append,
    List.dropWhile_append, hreverse.dropWhile_eq]
  split
  · next hempty => rw [List.isEmpty_iff.mp hempty, List.reverse_reverse, List.reverse_nil,
      List.append_nil]
  · rw [List.reverse_append, List.reverse_reverse]

theorem squeeze_append (cs ds : List Char) : squeeze (cs ++ ds) = squeeze cs ++ squeeze ds :=
  List.filter_append cs ds

theorem squeeze_dropWhile (cs : List Char) : squeeze (cs.dropWhile isBlank) = squeeze cs := by
  induction cs with
  | nil => rfl
  | cons c cs ih =>
    rw [List.dropWhile_cons]
    split
    · next hc => rw [ih, squeeze, squeeze, List.filter_cons_of_neg (by simp [hc])]
    · rfl

theorem squeeze_rdropWhile (cs : List Char) : squeeze (cs.rdropWhile isBlank) = squeeze cs := by
  have hreverse (ds : List Char) : squeeze ds.reverse = (squeeze ds).reverse := List.filter_reverse
  rw [List.rdropWhile, hreverse, squeeze_dropWhile, hreverse, List.reverse_reverse]

/-- The blanks at both ends are among all blanks. -/
theorem squeeze_trimChars (cs : List Char) : squeeze (trimChars cs) = squeeze cs := by
  rw [trimChars_eq_rdropWhile, squeeze_rdropWhile, squeeze_dropWhile]

/-! ## Words -/

theorem wordsFrom_append {w : List Char} (h : Unblank w) (current rest : List Char) :
    wordsFrom current (w ++ rest) = wordsFrom (w.reverse ++ current) rest := by
  induction w generalizing current with
  | nil => rfl
  | cons c w ih =>
    rw [List.cons_append, wordsFrom, h c List.mem_cons_self, if_neg Bool.false_ne_true,
      ih (h.sublist (List.sublist_cons_self c w))]
    simp

theorem wordsFrom_intercalate {ws : List (List Char)} (h : ∀ w ∈ ws, w ≠ [] ∧ Unblank w) :
    wordsFrom [] ([' '].intercalate ws) = ws := by
  induction ws with
  | nil => rfl
  | cons w ws ih =>
    obtain ⟨hne, hw⟩ := h w List.mem_cons_self
    cases ws with
    | nil =>
      have := wordsFrom_append hw [] []
      simpa [wordsFrom, hne] using this
    | cons v ws =>
      have hrest := ih fun u hu => h u (List.mem_cons_of_mem w hu)
      have hblank : isBlank ' ' = true := by decide
      rw [List.intercalate_cons_cons, List.append_assoc, wordsFrom_append hw, List.append_nil,
        List.singleton_append, wordsFrom, if_pos hblank, hrest]
      simp [hne]

/-- Words with blanks between them are the words of the whole. -/
theorem words_intercalate {ws : List String} (h : ∀ w ∈ ws, w ≠ "" ∧ Unblank w.toList) :
    words (" ".intercalate ws) = ws := by
  have hchars : ∀ w ∈ ws.map String.toList, w ≠ [] ∧ Unblank w := by
    intro w hw
    obtain ⟨s, hs, rfl⟩ := List.mem_map.mp hw
    exact ⟨fun hnil => (h s hs).1 (String.toList_eq_nil_iff.mp hnil), (h s hs).2⟩
  rw [words, String.toList_intercalate]
  show ((wordsFrom [] ([' '].intercalate (ws.map String.toList))).map String.ofList) = ws
  rw [wordsFrom_intercalate hchars, List.map_map]
  simp [Function.comp_def]

/-! ## Separators -/

theorem bne_of_not_mem {separator : Char} {cs : List Char} (h : separator ∉ cs) :
    ∀ c ∈ cs, (c != separator) = true := by
  intro c hc
  simpa using fun heq : c = separator => h (heq ▸ hc)

theorem cutAt_append {separator : Char} {s : String} (h : separator ∉ s.toList) (t : String) :
    cutAt separator (s ++ String.singleton separator ++ t) = (s, some t) := by
  have hall := bne_of_not_mem h
  simp [cutAt, List.dropWhile_append_of_pos hall, List.takeWhile_append_of_pos hall]

theorem pieces_intercalate {separator : Char} {ls : List String} (hne : ls ≠ [])
    (h : ∀ l ∈ ls, separator ∉ l.toList) :
    pieces separator ((String.singleton separator).intercalate ls) = ls := by
  have hchars : ∀ l ∈ ls.map String.toList, separator ∉ l := by
    intro l hl
    obtain ⟨s, hs, rfl⟩ := List.mem_map.mp hl
    exact h s hs
  rw [pieces, String.toList_intercalate, String.toList_singleton,
    List.splitOn_intercalate separator hchars (by simpa using hne), List.map_map]
  simp [Function.comp_def]

theorem flatten_splitOnP (p : Char → Bool) (cs : List Char) :
    (cs.splitOnP p).flatten = cs.filter (! p ·) := by
  induction cs with
  | nil => rfl
  | cons c cs ih =>
    rw [List.splitOnP_cons_eq_if_modifyHead, List.filter_cons]
    obtain ⟨piece, rest, hpieces⟩ := List.exists_cons_of_ne_nil (List.splitOnP_ne_nil p cs)
    rw [hpieces] at ih ⊢
    cases p c <;> simp [← ih]

/-- Put together again, the pieces of a text lack its separators. -/
theorem join_pieces (separator : Char) (s : String) :
    (String.join (pieces separator s)).toList = s.toList.filter (· != separator) := by
  rw [pieces, String.toList_join, List.flatMap_map]
  simp only [String.toList_ofList, List.flatMap_id']
  exact flatten_splitOnP _ _

/-- The first piece of a text reaches up to the first separator. -/
theorem pieces_append {separator : Char} {s : String} (h : separator ∉ s.toList) (t : String) :
    pieces separator (s ++ String.singleton separator ++ t) = s :: pieces separator t := by
  have hnone : ∀ c ∈ s.toList, (c == separator) = false := fun c hc =>
    beq_eq_false_iff_ne.mpr fun heq => h (heq ▸ hc)
  rw [pieces, String.toList_append, String.toList_append, String.toList_singleton,
    List.append_assoc, List.singleton_append]
  unfold List.splitOn
  rw [List.splitOnP_append_cons_of_forall_mem hnone separator (beq_self_eq_true _),
    List.map_cons, String.ofList_toList]
  rfl

theorem mem_intercalate {separator : List Char} {ls : List (List Char)} {c : Char}
    (h : c ∈ separator.intercalate ls) : c ∈ separator ∨ ∃ l ∈ ls, c ∈ l := by
  induction ls with
  | nil => exact absurd h List.not_mem_nil
  | cons l ls ih =>
    cases ls with
    | nil => exact .inr ⟨l, List.mem_cons_self, by simpa using h⟩
    | cons k ks =>
      rw [List.intercalate_cons_cons, List.append_assoc] at h
      rcases List.mem_append.mp h with h | h
      · exact .inr ⟨l, List.mem_cons_self, h⟩
      · rcases List.mem_append.mp h with h | h
        · exact .inl h
        · exact (ih h).imp_right fun ⟨m, hm, hc⟩ => ⟨m, List.mem_cons_of_mem l hm, hc⟩

theorem not_mem_intercalate {separator : String} {ls : List String} {c : Char}
    (hseparator : c ∉ separator.toList) (h : ∀ l ∈ ls, c ∉ l.toList) :
    c ∉ (separator.intercalate ls).toList := by
  rw [String.toList_intercalate]
  intro hc
  rcases mem_intercalate hc with hc | ⟨l, hl, hc⟩
  · exact hseparator hc
  · obtain ⟨s, hs, rfl⟩ := List.mem_map.mp hl
    exact h s hs hc

end MidiRig.Text
