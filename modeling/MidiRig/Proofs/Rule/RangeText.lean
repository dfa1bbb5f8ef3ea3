import MidiRig.Proofs.Rule.Tokens

/-!
# Ranges put together from texts

The range that a rule matches and the one that it gives can be written as one text: the left one
followed by the transform of the right one, or by all of it where it has none. `Range.read_joined`
says that this text reads as what the two ranges combine to. Names are replaced on both sides of
the place where the transform begins independently (`expand_append`), and they bring in no
transform of their own if they stand for single tokens (`chars_of_expand`).
-/

namespace MidiRig.Range

open Text

/-! ## Names -/

namespace Piece

def chars : Piece → List Char
  | word letters => letters
  | other c => [c]

/-- The text that stands for a piece. -/
def meaning (names : Names) : Piece → List Char
  | word letters => ((names.get? (String.ofList letters)).map String.toList).getD letters
  | other c => [c]

end Piece

theorem substitute_eq (names : Names) (cs : List Char) :
    substitute names cs = (cut [] cs).flatMap (Piece.meaning names) := by
  unfold substitute
  congr 1
  funext piece
  cases piece with
  | word letters => simp only [Piece.meaning]; cases names.get? (String.ofList letters) <;> rfl
  | other c => rfl

/-- A character that stands in no word cuts a text in two. -/
theorem cut_append (current as : List Char) {c : Char} (hc : isWordChar c = false)
    (bs : List Char) :
    cut current (as ++ c :: bs) = cut current as ++ .other c :: cut [] bs := by
  have hstart : isWordStart c = false := by
    simp only [isWordChar, Char.isAlphanum, Bool.or_eq_false_iff] at hc
    simp [isWordStart, hc]
  induction as generalizing current with
  | nil => by_cases hcurrent : current = [] <;> simp [cut, hcurrent, hc, hstart]
  | cons a as ih =>
    simp only [List.cons_append, cut]
    split
    · split
      · exact ih [a]
      · simp [ih]
    · split
      · exact ih (a :: current)
      · simp [ih]

theorem chars_of_mem_cut {current cs : List Char} {piece : Piece} (h : piece ∈ cut current cs) :
    ∀ c ∈ piece.chars, c ∈ current ∨ c ∈ cs := by
  induction cs generalizing current with
  | nil =>
    unfold cut at h
    split at h
    · exact absurd h List.not_mem_nil
    · rw [List.mem_singleton.mp h]
      exact fun c hc => .inl (List.mem_reverse.mp hc)
  | cons a as ih =>
    intro c hc
    unfold cut at h
    have hrest : piece ∈ .other a :: cut [] as → c ∈ current ∨ c ∈ a :: as := by
      intro h
      rcases List.mem_cons.mp h with rfl | h
      · exact .inr (List.mem_cons.mpr (.inl (List.mem_singleton.mp hc)))
      · exact .inr (List.mem_cons_of_mem a ((ih h c hc).resolve_left List.not_mem_nil))
    split at h
    · split at h
      · rcases ih h c hc with hc | hc
        · exact .inr (List.mem_cons.mpr (.inl (List.mem_singleton.mp hc)))
        · exact .inr (List.mem_cons_of_mem a hc)
      · exact hrest h
    · split at h
      · rcases ih h c hc with hc | hc
        · rcases List.mem_cons.mp hc with rfl | hc
          · exact .inr List.mem_cons_self
          · exact .inl hc
        · exact .inr (List.mem_cons_of_mem a hc)
      · rcases List.mem_cons.mp h with rfl | h
        · exact .inl (List.mem_reverse.mp hc)
        · exact hrest h

/-- A text without blanks with its names replaced. -/
def expand (names : Names) (cs : List Char) : List Char :=
  squeeze (if names.isEmpty then cs else substitute names cs)

theorem resolve_eq_expand {text : String} (h : Unblank text.toList) (names : Names) :
    resolve names text = expand names text.toList := by
  rw [resolve, expand, h.trimChars_eq]

theorem expand_append (names : Names) (as : List Char) {c : Char} (hword : isWordChar c = false)
    (hblank : isBlank c = false) (bs : List Char) :
    expand names (as ++ c :: bs) = expand names as ++ c :: expand names bs := by
  have hsqueeze : ∀ cs ds : List Char, squeeze (cs ++ c :: ds) = squeeze cs ++ c :: squeeze ds := by
    intro cs ds
    rw [squeeze_append]
    simp [squeeze, hblank]
  unfold expand
  split
  · exact hsqueeze as bs
  · rw [← hsqueeze, substitute_eq, substitute_eq, substitute_eq, cut_append [] as hword,
      List.flatMap_append, List.flatMap_cons]
    rfl

/-- What stands in no word stays. -/
theorem mem_expand {names : Names} {cs : List Char} {c : Char} (h : c ∈ cs)
    (hword : isWordChar c = false) (hblank : isBlank c = false) : c ∈ expand names cs := by
  obtain ⟨as, bs, rfl⟩ := List.append_of_mem h
  rw [expand_append names as hword hblank]
  simp

/-- The text is one number or note name. -/
def IsToken (cs : List Char) : Prop := (splitToken? cs).map Prod.snd = some []

instance (cs : List Char) : Decidable (IsToken cs) :=
  inferInstanceAs (Decidable ((splitToken? cs).map Prod.snd = some []))

/-- The names in a text stand for single tokens. -/
def NamesTokens (names : Names) (cs : List Char) : Prop :=
  ∀ word ∈ wordsOf cs, ∀ value ∈ names.get? word, IsToken (squeeze value.toList)

instance (names : Names) (cs : List Char) : Decidable (NamesTokens names cs) :=
  inferInstanceAs
    (Decidable (∀ word ∈ wordsOf cs, ∀ value ∈ names.get? word, IsToken (squeeze value.toList)))

theorem NamesTokens.front {names : Names} {as bs : List Char} {c : Char}
    (h : NamesTokens names (as ++ c :: bs)) (hword : isWordChar c = false) :
    NamesTokens names as := by
  intro word hmem
  refine h word ?_
  rw [wordsOf, cut_append [] as hword, List.filterMap_append]
  exact List.mem_append_left _ hmem

theorem mem_wordsOf {cs : List Char} {letters : List Char} :
    String.ofList letters ∈ wordsOf cs ↔ .word letters ∈ cut [] cs := by
  unfold wordsOf
  rw [List.mem_filterMap]
  constructor
  · rintro ⟨piece, hpiece, heq⟩
    cases piece with
    | word found => rwa [String.ofList_injective (Option.some.inj heq)] at hpiece
    | other c => cases heq
  · exact fun h => ⟨_, h, rfl⟩

theorem chars_of_isToken {cs : List Char} (h : IsToken cs) : ∀ c ∈ cs, isTokenChar c = true := by
  obtain ⟨⟨x, rest⟩, hx, rfl⟩ := Option.map_eq_some_iff.mp h
  exact fun c hc => by simpa using (reads_splitToken?.splits hx).chars c hc

/-- Names that stand for tokens bring in nothing else. -/
theorem chars_of_expand {names : Names} {cs : List Char} (h : NamesTokens names cs) :
    ∀ c ∈ expand names cs, isTokenChar c = true ∨ c ∈ cs := by
  intro c hc
  obtain ⟨hc, hblank⟩ := List.mem_filter.mp hc
  split at hc
  · exact .inr hc
  · rw [substitute_eq] at hc
    obtain ⟨piece, hpiece, hc⟩ := List.mem_flatMap.mp hc
    have hkept : c ∈ piece.chars → c ∈ cs := fun hc =>
      (chars_of_mem_cut hpiece c hc).resolve_left List.not_mem_nil
    cases piece with
    | other d => exact .inr (hkept hc)
    | word letters =>
      cases hvalue : names.get? (String.ofList letters) with
      | none =>
        rw [Piece.meaning, hvalue] at hc
        exact .inr (hkept hc)
      | some value =>
        rw [Piece.meaning, hvalue] at hc
        have htoken := h _ (mem_wordsOf.mpr hpiece) value hvalue
        exact .inl (chars_of_isToken htoken c (List.mem_filter.mpr ⟨hc, hblank⟩))

/-! ## Joined texts -/

/-- The text of the range that two texts combine to: what transforms in the right one, or all of
it, behind the left one. -/
def joined (left right : String) : String :=
  match right.toList.dropWhile (! isMark ·) with
  | [] => left ++ "=" ++ right
  | part => left ++ String.ofList part

/-- The transform of a text is what it reads as behind any domain. -/
theorem readTransform?_of_mark {names : Names} {domain cs : List Char} {c : Char} {r : Range}
    (hdomain : ∀ d ∈ domain, isMark d = false) (hc : c = '*' ∨ c = '=')
    (hnames : NamesTokens names domain)
    (h : readResolved? (expand names domain ++ c :: expand names cs) = some r) :
    readTransform? (c :: expand names cs) = some r.transform := by
  have htail : AtMark (c :: expand names cs) := ⟨c, _, rfl, hc⟩
  obtain ⟨rest, hpair, htransform⟩ := readResolved?_eq_some.mp h
  rw [reads_splitPair?.append _ htail] at hpair
  obtain ⟨⟨p, left⟩, hfirst, heq⟩ := Option.map_eq_some_iff.mp hpair
  cases heq
  -- what is left of the domain would stand where the transform begins, and is no such character
  cases left with
  | nil => exact htransform
  | cons d ds =>
    have hmem : d ∈ expand names domain :=
      (reads_splitPair?.splits hfirst).subset d List.mem_cons_self
    have hmark : isMark d = true := by
      rcases end_or_mark htransform with ⟨hnil, -⟩ | ⟨⟨m, ms, heq, hm⟩, -⟩
      · cases hnil
      · cases heq; exact isMark_iff.mpr hm
    rcases chars_of_expand hnames d hmem with htoken | hdom
    · rcases isMark_iff.mp hmark with rfl | rfl <;> exact absurd htoken (by decide)
    · rw [hdomain d hdom] at hmark
      exact absurd hmark Bool.false_ne_true

/-- Without a mark there is no transform. -/
theorem isPlain_of_unmarked {names : Names} {cs : List Char} {r : Range}
    (hmarks : ∀ c ∈ cs, isMark c = false) (hnames : NamesTokens names cs)
    (h : readResolved? (expand names cs) = some r) : r.isPlain = true := by
  obtain ⟨rest, hpair, htransform⟩ := readResolved?_eq_some.mp h
  rcases end_or_mark htransform with ⟨-, hidentity⟩ | ⟨⟨m, ms, rfl, hm⟩, -⟩
  · exact isPlain_iff.mpr hidentity
  · have hmem : m ∈ expand names cs :=
      (reads_splitPair?.splits hpair).subset m List.mem_cons_self
    rcases chars_of_expand hnames m hmem with htoken | hcs
    · rcases hm with rfl | rfl <;> exact absurd htoken (by decide)
    · have hmark := hmarks m hcs
      rw [isMark_iff.mpr hm] at hmark
      exact absurd hmark.symm Bool.false_ne_true

section Joined

variable {names : Names} {left right : String} {l r : Range}

theorem read_of_chars {text : String} (cs : List Char) (hchars : text.toList = cs)
    (hunblank : Unblank cs) (h : readResolved? (expand names cs) = some r) :
    read names text = .ok r := by
  rw [read_eq_ok, resolve_eq_expand (hchars ▸ hunblank), hchars, h]

theorem read_joined_of_unmarked (hleft : Unblank left.toList) (hright : Unblank right.toList)
    (hdomain : splitPair? (expand names left.toList) = some ((l.min, l.max), []))
    (hr : readResolved? (expand names right.toList) = some r)
    (hnames : NamesTokens names right.toList)
    (hpart : right.toList.dropWhile (! isMark ·) = []) :
    r.transform = .identity ∧
      read names (joined left right) = .ok { l with transform := .fromTo r.min r.max } := by
  have hmarks : ∀ c ∈ right.toList, isMark c = false := by
    simpa [List.dropWhile_eq_nil_iff] using hpart
  have hplain := isPlain_of_unmarked hmarks hnames hr
  have htransform : readTransform? ('=' :: expand names right.toList) =
      some (.fromTo r.min r.max) := by
    simp [readTransform?, splitPair?_of_isPlain hr hplain]
  refine ⟨isPlain_iff.mp hplain, read_of_chars (left.toList ++ '=' :: right.toList)
    (by simp [joined, hpart]) (hleft.append (hright.cons (by decide))) ?_⟩
  rw [expand_append names _ (by decide) (by decide)]
  exact readResolved?_append hdomain ⟨'=', _, rfl, .inr rfl⟩ htransform

theorem read_joined_of_marked (hleft : Unblank left.toList) (hright : Unblank right.toList)
    (hdomain : splitPair? (expand names left.toList) = some ((l.min, l.max), []))
    (hr : readResolved? (expand names right.toList) = some r)
    (hnames : NamesTokens names right.toList) {c : Char} {cs : List Char}
    (hpart : right.toList.dropWhile (! isMark ·) = c :: cs) :
    r.transform ≠ .identity ∧
      read names (joined left right) = .ok { l with transform := r.transform } := by
  have hsplit : right.toList = right.toList.takeWhile (! isMark ·) ++ c :: cs := by
    rw [← hpart, List.takeWhile_append_dropWhile]
  have hbefore : ∀ d ∈ right.toList.takeWhile (! isMark ·), isMark d = false :=
    fun d hd => by simpa using List.mem_takeWhile_imp hd
  generalize right.toList.takeWhile (! isMark ·) = domain at hsplit hbefore
  have hc : c = '*' ∨ c = '=' := by
    have hfirst := List.head?_dropWhile_not (! isMark ·) right.toList
    rw [hpart] at hfirst
    exact isMark_iff.mp (by simpa using hfirst)
  have hword : isWordChar c = false := by rcases hc with rfl | rfl <;> decide
  have hblank : isBlank c = false := by rcases hc with rfl | rfl <;> decide
  have hunblank : Unblank (c :: cs) := hright.sublist (hpart ▸ List.dropWhile_sublist _)
  rw [hsplit] at hr hnames
  rw [expand_append names domain hword hblank] at hr
  have htransform := readTransform?_of_mark hbefore hc (hnames.front hword) hr
  refine ⟨?_, read_of_chars (left.toList ++ c :: cs) (by simp [joined, hpart])
    (hleft.append hunblank) ?_⟩
  · rcases end_or_mark htransform with ⟨hnil, -⟩ | ⟨-, hne⟩
    · cases hnil
    · exact hne
  · rw [expand_append names _ hword hblank]
    exact readResolved?_append hdomain ⟨c, _, rfl, hc⟩ htransform

/-- The joined text of two ranges reads as what they combine to. -/
theorem read_joined (hleft : Unblank left.toList) (hright : Unblank right.toList)
    (hl : read names left = .ok l) (hplain : l.isPlain = true) (hr : read names right = .ok r)
    (hnames : NamesTokens names right.toList) :
    ∃ j, combine l r = .ok j ∧ read names (joined left right) = .ok j := by
  rw [read_eq_ok, resolve_eq_expand hleft] at hl
  rw [read_eq_ok, resolve_eq_expand hright] at hr
  have hdomain := splitPair?_of_isPlain hl hplain
  refine ⟨_, by rw [combine, if_pos hplain], ?_⟩
  cases hpart : right.toList.dropWhile (! isMark ·) with
  | nil =>
    obtain ⟨htransform, hread⟩ :=
      read_joined_of_unmarked hleft hright hdomain hr hnames hpart
    rw [hread, htransform]
  | cons c cs =>
    obtain ⟨htransform, hread⟩ := read_joined_of_marked hleft hright hdomain hr hnames hpart
    rw [hread]
    cases h : r.transform with
    | identity => exact absurd h htransform
    | _ => rfl

end Joined

/-! ## Texts of single ranges -/

/-- A text with no place for a name is read as it stands. -/
theorem expand_of_wordless {cs : List Char} (hunblank : Unblank cs)
    (h : ∀ c ∈ cs, isWordStart c = false) (names : Names) : expand names cs = cs := by
  have hcut : ∀ ds : List Char, (∀ c ∈ ds, isWordStart c = false) →
      (cut [] ds).flatMap (Piece.meaning names) = ds := by
    intro ds
    induction ds with
    | nil => intro _; rfl
    | cons d ds ih =>
      intro h
      have hrest := ih fun c hc => h c (List.mem_cons_of_mem d hc)
      simp [cut, h d List.mem_cons_self, hrest, Piece.meaning]
  rw [expand, substitute_eq, hcut cs h, ite_self, hunblank.squeeze_eq]

/-- A readable text is not empty, and has no character that is foreign to ranges. -/
theorem not_mem_of_read {names : Names} {text : String} {r : Range}
    (hunblank : Unblank text.toList) (h : read names text = .ok r) {c : Char}
    (htoken : isTokenChar c = false) (hmark : isMark c = false) (hblank : isBlank c = false) :
    c ∉ text.toList := by
  intro hc
  rw [read_eq_ok, resolve_eq_expand hunblank] at h
  have hword : isWordChar c = false := by
    simp only [isTokenChar, Bool.or_eq_false_iff] at htoken
    exact htoken.1.1.1
  rcases chars_of_readResolved? h c (mem_expand hc hword hblank) with h | h
  · exact absurd (h.symm.trans htoken) Bool.noConfusion
  · exact absurd (h.symm.trans hmark) Bool.noConfusion

theorem ne_empty_of_read {names : Names} {text : String} {r : Range}
    (h : read names text = .ok r) : text ≠ "" := by
  rintro rfl
  have hnil : resolve names "" = [] := by
    rw [resolve_eq_expand (by intro c hc; simp at hc)]
    exact expand_of_wordless (by intro c hc; simp at hc) (by simp) names
  rw [read_eq_ok, hnil] at h
  cases h

end MidiRig.Range
