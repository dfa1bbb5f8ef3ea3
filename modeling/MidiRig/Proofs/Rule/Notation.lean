import MidiRig.Proofs.Rule.Options
import MidiRig.Proofs.Rule.RangeText
import MidiRig.Rule.Text

/-!
# The two notations of rules

A rule can be written in one line or in parts. `Line` is a rule in one line before it is put
together: `Line.text` is the line, and `Line.spec` has the same content in parts. For every
well-formed line the two compile to the same rule, or neither compiles (`Rule.notations_agree`).

The line is split again where it was put together (`splitSides_sides`, `readSide_side`), each field
gets the same route from two ranges as from one (`compileField_eq`), and the options make the same
draft (`Draft.foldlM_filter`).
-/

namespace MidiRig

open Text

/-! ## Lines -/

/-- The ranges that are written for one field. -/
structure FieldText where
  left : Option String
  right : Option String

/-- A rule in one line, before it is put together. -/
structure Line where
  source : Kind
  target : Kind
  channel : FieldText
  number : FieldText
  value : FieldText
  /-- Keys and values. -/
  options : List (String × String)

namespace Line

/-- One side: nothing stands for a range that is left out. -/
def side (kind : Kind) (fields : List (Option String)) : String :=
  kind.name ++ ":" ++ "/".intercalate (fields.map fun field => field.getD "")

def leftSide (l : Line) : String := side l.source [l.channel.left, l.number.left, l.value.left]

def rightSide (l : Line) : String :=
  side l.target [l.channel.right, l.number.right, l.value.right]

def token (option : String × String) : String := option.1 ++ "=" ++ option.2

def text (l : Line) : String :=
  " ".intercalate ((l.leftSide ++ "=" ++ l.rightSide) :: l.options.map token)

end Line

/-! ### Domains as texts -/

def channelText? (kind : Kind) : Option String := if kind.hasChannel then some "1-16" else none

def numberText? (kind : Kind) : Option String := if kind.hasNumber then some "0-127" else none

def valueText? (kind : Kind) : Option String :=
  if kind.hasChannel then some (if kind = .bend then "0-16383" else "0-127") else none

/-- The range of a field in one text: the left one, joined with the right one if there is one; the
domain stands in for a left one that is missing. -/
def FieldText.entry? (f : FieldText) (domain : Option String) : Option Entry :=
  match f.left <|> (f.right.bind fun _ => domain), f.right with
  | some left, some right => some (.text (Range.joined left right))
  | some left, none => some (.text left)
  | none, some right => some (.text right)
  | none, none => none

/-- The same rule in parts. -/
def Line.spec (l : Line) : RuleSpec where
  type := l.source.name ++ "=" ++ l.target.name
  channel := l.channel.entry? (channelText? l.source)
  number := l.number.entry? (numberText? l.source)
  value := l.value.entry? (valueText? l.source)
  log := numberOf l.options "log"
  lowByte := (numberOf l.options "lsb").map Binary64.toInt32
  increment := numberOf l.options "inc"
  counter := l.options.lookup "counter"
  setting := l.options.lookup "fluidsetting"
  play := l.options.lookup "play"
  tempo := l.options.lookup "tempo"
  record := l.options.lookup "record"
  swing := l.options.lookup "swing"
  groove := l.options.lookup "groove"
  tap := l.options.lookup "tap"
  arpeggio := l.options.lookup "arpeggio"
  loop := l.options.lookup "loop"
  port := l.options.lookup "fx"

/-! ### Well-formed lines -/

/-- Ranges without blanks that can be read. The left one is plain if there is a right one, whose
names stand for single tokens. -/
structure FieldText.WellFormed (names : Names) (f : FieldText) : Prop where
  left : ∀ t, f.left = some t → Unblank t.toList ∧
    ∃ r, Range.read names t = .ok r ∧ (f.right.isSome → r.isPlain = true)
  right : ∀ t, f.right = some t → Unblank t.toList ∧ Range.NamesTokens names t.toList ∧
    ∃ r, Range.read names t = .ok r

structure Line.WellFormed (names : Names) (l : Line) : Prop where
  channel : l.channel.WellFormed names
  number : l.number.WellFormed names
  value : l.value.WellFormed names
  options : OptionsWellFormed l.options

/-! ## Kinds -/

theorem Kind.ofName?_name (kind : Kind) : Kind.ofName? kind.name = some kind := by
  cases kind <;> decide

theorem Kind.unblank_name (kind : Kind) : Unblank kind.name.toList := by
  cases kind <;> decide

theorem Kind.not_mem_name (kind : Kind) : '=' ∉ kind.name.toList ∧ ':' ∉ kind.name.toList := by
  cases kind <;> decide

/-- No kind is named with an equals sign. -/
theorem Kind.ofName?_eq_none {cs : List Char} (h : '=' ∈ cs) :
    Kind.ofName? (String.ofList cs) = none := by
  rw [Kind.ofName?, List.find?_eq_none]
  intro kind _ heq
  have hmem : '=' ∈ kind.name.toList := by
    rw [of_decide_eq_true heq, Text.trim, String.toList_ofList, String.toList_ofList]
    exact mem_trimChars h (by decide)
  exact kind.not_mem_name.1 hmem

/-! ## Sides -/

namespace Rule

/-- What is left out reads as left out, and the rest as it stands. -/
theorem written_getD {field : Option String}
    (h : ∀ t, field = some t → Unblank t.toList ∧ t ≠ "") : written (field.getD "") = field := by
  cases field with
  | none => rfl
  | some t =>
    obtain ⟨hunblank, hne⟩ := h t rfl
    simp [written, hunblank.trim_eq, hne]

theorem readSide_side {kind : Kind} {c n v : Option String}
    (h : ∀ field ∈ [c, n, v], ∀ t, field = some t → Unblank t.toList ∧ t ≠ "" ∧ '/' ∉ t.toList) :
    readSide (Line.side kind [c, n, v]) = .ok ⟨kind, c, n, v⟩ := by
  have hwritten : ∀ field ∈ [c, n, v], written (field.getD "") = field :=
    fun field hf => written_getD fun t ht => ⟨(h field hf t ht).1, (h field hf t ht).2.1⟩
  have hpieces : Text.pieces '/' ("/".intercalate ([c, n, v].map fun field => field.getD "")) =
      [c, n, v].map fun field => field.getD "" := by
    refine pieces_intercalate (by simp) fun l hl => ?_
    obtain ⟨field, hf, rfl⟩ := List.mem_map.mp hl
    cases field with
    | none => simp
    | some t => exact (h _ hf t rfl).2.2
  have hcut : Text.cutAt ':' (Line.side kind [c, n, v]) =
      (kind.name, some ("/".intercalate ([c, n, v].map fun field => field.getD ""))) :=
    cutAt_append kind.not_mem_name.2 _
  have hc := hwritten c (by simp)
  have hn := hwritten n (by simp)
  have hv := hwritten v (by simp)
  simp only [readSide, hcut, kind.ofName?_name, Option.map_some, Option.getD_some, hpieces]
  simp [hc, hn, hv]
  rfl

theorem opensSide_side (kind : Kind) (fields : List (Option String)) :
    opensSide (Line.side kind fields).toList = true := by
  have htake : (Line.side kind fields).toList.takeWhile (· != ':') = kind.name.toList := by
    simp [Line.side, List.takeWhile_append_of_pos (bne_of_not_mem kind.not_mem_name.2)]
  rw [opensSide, htake, String.ofList_toList, kind.ofName?_name]
  rfl

/-- An equals sign that stands before the one in front of a kind does not split. -/
theorem opensSide_eq_false {cs rest : List Char} (h : ':' ∉ cs) :
    opensSide (cs ++ '=' :: rest) = false := by
  have htake : '=' ∈ (cs ++ '=' :: rest).takeWhile (· != ':') := by
    rw [List.takeWhile_append_of_pos (bne_of_not_mem h)]
    simp
  rw [opensSide, Kind.ofName?_eq_none htake]
  rfl

theorem splitSides_append {cs : List Char} (h : '=' ∉ cs) (before rest : List Char) :
    splitSides before (cs ++ rest) = splitSides (cs.reverse ++ before) rest := by
  induction cs generalizing before with
  | nil => rfl
  | cons c cs ih =>
    obtain ⟨hc, hcs⟩ := List.ne_and_not_mem_of_not_mem_cons h
    rw [List.cons_append, splitSides, if_neg (by simp [Ne.symm hc]), ih hcs]
    simp

theorem splitSides_fields {cs : List Char} (h : ':' ∉ cs) {rest : List Char}
    (hrest : opensSide rest = true) (before : List Char) :
    splitSides before (cs ++ '=' :: rest) = (before.reverse ++ cs, some rest) := by
  induction cs generalizing before with
  | nil => simp [splitSides, hrest]
  | cons c cs ih =>
    obtain ⟨-, hcs⟩ := List.ne_and_not_mem_of_not_mem_cons h
    rw [List.cons_append, splitSides, if_neg (by simp [opensSide_eq_false hcs]), ih hcs]
    simp

/-- A line is split where it was put together. -/
theorem splitSides_sides {kind target : Kind} {fields fields' : List (Option String)}
    (h : ∀ field ∈ fields, ∀ t, field = some t → ':' ∉ t.toList) :
    splitSides [] (Line.side kind fields ++ "=" ++ Line.side target fields').toList =
      ((Line.side kind fields).toList, some (Line.side target fields').toList) := by
  have hfields : ':' ∉ ("/".intercalate (fields.map fun field => field.getD "")).toList := by
    refine not_mem_intercalate (by decide) fun t ht => ?_
    obtain ⟨field, hf, rfl⟩ := List.mem_map.mp ht
    cases field with
    | none => simp
    | some t => exact h _ hf t rfl
  have hkind : '=' ∉ kind.name.toList ++ [':'] := by
    simp [kind.not_mem_name.1]
  have hchars : (Line.side kind fields ++ "=" ++ Line.side target fields').toList =
      (kind.name.toList ++ [':']) ++
        (("/".intercalate (fields.map fun field => field.getD "")).toList ++
          '=' :: (Line.side target fields').toList) := by
    simp [Line.side]
  rw [hchars, splitSides_append hkind, splitSides_fields hfields (opensSide_side target fields')]
  simp [Line.side]

end Rule

/-! ## Fields -/

/-- A text that stands for a domain. -/
def Spells (text? : Option String) (domain : Option Range) : Prop :=
  (text? = none ∧ domain = none) ∨
    ∃ t d, text? = some t ∧ domain = some d ∧ Unblank t.toList ∧ d.isPlain = true ∧
      ∀ names, Range.read names t = .ok d

namespace Rule

theorem readEntry_text {names : Names} {text : String} {r : Range}
    (h : Range.read names text = .ok r) :
    RuleSpec.readEntry names (some (.text text)) = .ok (some r.toRoute) := by
  simp only [RuleSpec.readEntry, Entry.toText, h]
  rfl

theorem readField_some {names : Names} {text : String} {r : Range}
    (h : Range.read names text = .ok r) : readField names (some text) = .ok (some r) := by
  rw [readField, h]
  rfl

theorem readField_none (names : Names) : readField names none = .ok none := rfl

theorem compileField_of {names : Names} {left right : Option String} {l r : Option Range}
    (hl : readField names left = .ok l) (hr : readField names right = .ok r) (text : String)
    (domain : Option Range) :
    compileField names text domain left right = joinField text domain l r := by
  rw [compileField, hl, hr]
  rfl

theorem joinField_some {l r j : Range} (h : Range.combine l r = .ok j) (text : String)
    (domain : Option Range) :
    joinField text domain (some l) (some r) = .ok (some j.toRoute) ∧
      joinField text (some l) none (some r) = .ok (some j.toRoute) := by
  rw [joinField, joinField, h]
  exact ⟨rfl, rfl⟩

/-- Both notations give a field the same route. -/
theorem compileField_eq {names : Names} {f : FieldText} (h : f.WellFormed names) (text : String)
    {text? : Option String} {domain : Option Range} (hdomain : Spells text? domain) :
    ∃ route, compileField names text domain f.left f.right = .ok route ∧
      RuleSpec.readEntry names (f.entry? text?) = .ok route := by
  obtain ⟨left, right⟩ := f
  obtain ⟨hleft, hright⟩ := h
  cases left with
  | none =>
    cases right with
    | none => exact ⟨none, rfl, rfl⟩
    | some right =>
      obtain ⟨hunblank, hnames, r, hr⟩ := hright right rfl
      rcases hdomain with ⟨rfl, rfl⟩ | ⟨t, d, rfl, rfl, ht, hplain, hd⟩
      · exact ⟨some r.toRoute,
          (compileField_of (readField_none names) (readField_some hr) text none).trans rfl,
          readEntry_text hr⟩
      · obtain ⟨j, hj, hread⟩ := Range.read_joined ht hunblank (hd names) hplain hr hnames
        exact ⟨some j.toRoute,
          (compileField_of (readField_none names) (readField_some hr) text (some d)).trans
            (joinField_some hj text none).2, readEntry_text hread⟩
  | some left =>
    obtain ⟨hunblank, l, hl, hplain⟩ := hleft left rfl
    cases right with
    | none =>
      exact ⟨some l.toRoute,
        (compileField_of (readField_some hl) (readField_none names) text domain).trans rfl,
        readEntry_text hl⟩
    | some right =>
      obtain ⟨hunblank', hnames, r, hr⟩ := hright right rfl
      obtain ⟨j, hj, hread⟩ := Range.read_joined hunblank hunblank' hl (hplain rfl) hr hnames
      exact ⟨some j.toRoute,
        (compileField_of (readField_some hl) (readField_some hr) text domain).trans
          (joinField_some hj text domain).1, readEntry_text hread⟩

theorem read_wordless {text : String} {d : Range} (hunblank : Unblank text.toList)
    (hword : ∀ c ∈ text.toList, Range.isWordStart c = false)
    (hpair : Range.splitPair? text.toList = some ((d.min, d.max), []))
    (hplain : d.transform = .identity) (names : Names) : Range.read names text = .ok d := by
  rw [Range.read_eq_ok, Range.resolve_eq_expand hunblank, Range.expand_of_wordless hunblank hword]
  exact Range.readResolved?_eq_some.mpr ⟨[], hpair, by rw [hplain]; rfl⟩

/-- The texts that stand for domains do so whatever the names are. -/
theorem spells_some {text : String} {a b : Float} (hunblank : Unblank text.toList)
    (hword : text.toList.any Range.isWordStart = false)
    (hpair : Range.splitPair? text.toList = some ((a, b), [])) :
    Spells (some text) (some (Range.identity a b)) :=
  .inr ⟨text, Range.identity a b, rfl, rfl, hunblank, rfl,
    read_wordless hunblank (by simpa using hword) hpair rfl⟩

theorem spells_channel (kind : Kind) :
    Spells (channelText? kind) (Draft.channelDomain? kind) := by
  unfold channelText? Draft.channelDomain?
  split
  · exact spells_some (by decide) (by decide) (by decide +kernel)
  · exact .inl ⟨rfl, rfl⟩

theorem spells_number (kind : Kind) : Spells (numberText? kind) (Draft.numberDomain? kind) := by
  unfold numberText? Draft.numberDomain?
  split
  · exact spells_some (by decide) (by decide) (by decide +kernel)
  · exact .inl ⟨rfl, rfl⟩

theorem spells_value (kind : Kind) : Spells (valueText? kind) (Draft.valueDomain? kind) := by
  unfold valueText? Draft.valueDomain?
  split
  · by_cases hbend : kind = .bend
    · subst hbend
      exact spells_some (by decide) (by decide) (by decide +kernel)
    · have hmax : kind.maxValue = 127.0 := by
        cases kind with
        | bend => exact absurd rfl hbend
        | _ => rfl
      rw [if_neg hbend, hmax]
      exact spells_some (by decide) (by decide) (by decide +kernel)
  · exact .inl ⟨rfl, rfl⟩

end Rule

/-! ## Lines -/

/-- What is written for a field has no blank and nothing that separates fields. -/
structure Fieldlike (text : String) : Prop where
  unblank : Unblank text.toList
  ne_empty : text ≠ ""
  no_slash : '/' ∉ text.toList
  no_colon : ':' ∉ text.toList

theorem fieldlike_of_read {names : Names} {text : String} {r : Range}
    (hunblank : Unblank text.toList) (h : Range.read names text = .ok r) : Fieldlike text where
  unblank := hunblank
  ne_empty := Range.ne_empty_of_read h
  no_slash := Range.not_mem_of_read hunblank h (by decide) (by decide) (by decide)
  no_colon := Range.not_mem_of_read hunblank h (by decide) (by decide) (by decide)

namespace FieldText.WellFormed

variable {names : Names} {f : FieldText} {t : String}

theorem fieldlike_left (h : f.WellFormed names) (ht : f.left = some t) : Fieldlike t := by
  obtain ⟨hunblank, r, hr, -⟩ := h.left t ht
  exact fieldlike_of_read hunblank hr

theorem fieldlike_right (h : f.WellFormed names) (ht : f.right = some t) : Fieldlike t := by
  obtain ⟨hunblank, -, r, hr⟩ := h.right t ht
  exact fieldlike_of_read hunblank hr

end FieldText.WellFormed

namespace Line

variable {names : Names} {l : Line}

theorem WellFormed.fieldlike_left (h : l.WellFormed names) :
    ∀ field ∈ [l.channel.left, l.number.left, l.value.left], ∀ t, field = some t →
      Fieldlike t := by
  intro field hf t ht
  simp only [List.mem_cons, List.not_mem_nil, or_false] at hf
  rcases hf with rfl | rfl | rfl
  · exact h.channel.fieldlike_left ht
  · exact h.number.fieldlike_left ht
  · exact h.value.fieldlike_left ht

theorem WellFormed.fieldlike_right (h : l.WellFormed names) :
    ∀ field ∈ [l.channel.right, l.number.right, l.value.right], ∀ t, field = some t →
      Fieldlike t := by
  intro field hf t ht
  simp only [List.mem_cons, List.not_mem_nil, or_false] at hf
  rcases hf with rfl | rfl | rfl
  · exact h.channel.fieldlike_right ht
  · exact h.number.fieldlike_right ht
  · exact h.value.fieldlike_right ht

theorem unblank_side (kind : Kind) {fields : List (Option String)}
    (h : ∀ field ∈ fields, ∀ t, field = some t → Fieldlike t) :
    Unblank (side kind fields).toList := by
  have hfields : Unblank ("/".intercalate (fields.map fun field => field.getD "")).toList := by
    intro c hc
    rw [String.toList_intercalate] at hc
    rcases mem_intercalate hc with hc | ⟨cs, hcs, hc⟩
    · rw [List.mem_singleton.mp hc]
      decide
    · obtain ⟨text, htext, rfl⟩ := List.mem_map.mp hcs
      obtain ⟨field, hf, rfl⟩ := List.mem_map.mp htext
      cases field with
      | none => exact absurd hc (by simp)
      | some t => exact (h _ hf t rfl).unblank c hc
  have hchars : (side kind fields).toList = kind.name.toList ++
      ':' :: ("/".intercalate (fields.map fun field => field.getD "")).toList := by
    simp [side]
  rw [hchars]
  exact kind.unblank_name.append (hfields.cons (by decide))

theorem words_text (h : l.WellFormed names) :
    words l.text = (l.leftSide ++ "=" ++ l.rightSide) :: l.options.map token := by
  refine words_intercalate fun word hword => ?_
  rcases List.mem_cons.mp hword with rfl | hword
  · have hchars : (l.leftSide ++ "=" ++ l.rightSide).toList =
        l.leftSide.toList ++ '=' :: l.rightSide.toList := by simp
    refine ⟨fun hempty => ?_, ?_⟩
    · rw [hempty] at hchars
      simp at hchars
    · rw [hchars]
      exact (unblank_side _ h.fieldlike_left).append
        ((unblank_side _ h.fieldlike_right).cons (by decide))
  · obtain ⟨o, ho, rfl⟩ := List.mem_map.mp hword
    have hchars : (token o).toList = o.1.toList ++ '=' :: o.2.toList := by simp [token]
    refine ⟨fun hempty => ?_, ?_⟩
    · rw [hempty] at hchars
      simp at hchars
    · rw [hchars]
      exact (h.options.unblank_key o ho).append ((h.options.unblank o ho).cons (by decide))

/-- The effects of the rule in parts are the line's options that are effects, in their order. -/
theorem effectOptions_spec (h : OptionsWellFormed l.options) :
    l.spec.effectOptions = l.options.filter (·.1 ∉ numberKeys) := by
  have hlookup : l.spec.effectOptions =
      effectKeys.filterMap fun key => (l.options.lookup key).map fun value => (key, value) := rfl
  have hother : ∀ key ∈ effectKeys,
      ((l.options.lookup key).map fun value => (key, value)) =
        ((l.options.filter (·.1 ∉ numberKeys)).lookup key).map fun value => (key, value) := by
    intro key hkey
    have hkeys : ∀ key ∈ effectKeys, decide (key ∉ numberKeys) = true := by decide
    have hsame := @lookup_filter l.options key (fun key => decide (key ∉ numberKeys))
      (hkeys key hkey)
    rw [← hsame]
  have hsorted : ((l.options.filter (·.1 ∉ numberKeys)).map Prod.fst).Sublist effectKeys := by
    have := h.inOrder
    rwa [List.filter_map] at this
  rw [hlookup, List.filterMap_congr hother, filterMap_lookup (by decide) hsorted]

end Line

/-- The draft with the routes of the fields and the options. -/
def Line.filled (l : Line) (channel number value : Option Route) : Except Reason Draft :=
  l.options.foldlM (fun d o => d.setOption o.1 o.2)
    { Draft.start l.source l.target with channel, number, value }

theorem ok_bind {ε α β : Type} (a : α) (f : α → Except ε β) :
    ((.ok a : Except ε α) >>= f) = f a := rfl

namespace RuleSpec

theorem blame_ok {α : Type} (text : String) (a : α) : blame text (.ok a) = .ok a := rfl

theorem toOption_blame {α : Type} (text : String) (x : Except Reason α) :
    (blame text x).toOption = x.toOption := by
  cases x <;> rfl

end RuleSpec

namespace Rule

theorem readOption_token (d : Draft) {option : String × String} (h : '=' ∉ option.1.toList) :
    readOption d (Line.token option) = d.setOption option.1 option.2 := by
  have hcut : Text.cutAt '=' (Line.token option) = (option.1, some option.2) :=
    cutAt_append h option.2
  rw [readOption, hcut]

theorem readKinds_name (source target : Kind) :
    RuleSpec.readKinds (source.name ++ "=" ++ target.name) = .ok (source, target) := by
  have hcut : Text.cutAt '=' (source.name ++ "=" ++ target.name) =
      (source.name, some target.name) := cutAt_append source.not_mem_name.1 _
  rw [RuleSpec.readKinds, hcut]
  simp only [RuleSpec.readKind, Kind.ofName?_name]
  rfl

section Compile

variable {names : Names} {l : Line}

theorem readSide_left (h : l.WellFormed names) : readSide l.leftSide =
    .ok ⟨l.source, l.channel.left, l.number.left, l.value.left⟩ :=
  readSide_side fun field hf t ht =>
    have hlike := h.fieldlike_left field hf t ht
    ⟨hlike.unblank, hlike.ne_empty, hlike.no_slash⟩

theorem readSide_right (h : l.WellFormed names) : readSide l.rightSide =
    .ok ⟨l.target, l.channel.right, l.number.right, l.value.right⟩ :=
  readSide_side fun field hf t ht =>
    have hlike := h.fieldlike_right field hf t ht
    ⟨hlike.unblank, hlike.ne_empty, hlike.no_slash⟩

theorem foldlM_token (h : OptionsWellFormed l.options) (d : Draft) :
    (l.options.map Line.token).foldlM readOption d =
      l.options.foldlM (fun d o => d.setOption o.1 o.2) d := by
  have hread : ∀ o ∈ l.options, ∀ d, readOption d (Line.token o) = d.setOption o.1 o.2 :=
    fun o ho d => readOption_token d (h.not_mem_key o ho)
  rw [List.foldlM_map]
  generalize l.options = options at hread
  induction options generalizing d with
  | nil => rw [List.foldlM_nil, List.foldlM_nil]
  | cons o options ih =>
    rw [List.foldlM_cons, List.foldlM_cons, hread o List.mem_cons_self]
    refine bind_congr fun d => ih d fun p hp => hread p (List.mem_cons_of_mem o hp)

variable {channel number value : Option Route}

theorem ofText_eq (h : l.WellFormed names)
    (hchannel : compileField names l.text (Draft.channelDomain? l.source) l.channel.left
      l.channel.right = .ok channel)
    (hnumber : compileField names l.text (Draft.numberDomain? l.source) l.number.left
      l.number.right = .ok number)
    (hvalue : compileField names l.text (Draft.valueDomain? l.source) l.value.left
      l.value.right = .ok value) :
    ofText names l.text =
      RuleSpec.blame l.text (l.filled channel number value >>= Draft.finish) := by
  have hsplit : splitSides [] (l.leftSide ++ "=" ++ l.rightSide).toList =
      (l.leftSide.toList, some l.rightSide.toList) :=
    splitSides_sides fun field hf t ht => (h.fieldlike_left field hf t ht).no_colon
  have hright : (some l.rightSide.toList).mapM (fun cs => readSide (String.ofList cs)) =
      .ok (some ⟨l.target, l.channel.right, l.number.right, l.value.right⟩) := by
    simp only [Option.mapM_some, String.ofList_toList, readSide_right h]
    rfl
  simp only [ofText, Line.words_text h, hsplit, hright, String.ofList_toList, readSide_left h,
    foldlM_token h.options, RuleSpec.blame_ok, ok_bind, Option.bind_some, hchannel, hnumber,
    hvalue]
  rfl

theorem compile_eq (h : l.WellFormed names)
    (hchannel : RuleSpec.readEntry names l.spec.channel = .ok channel)
    (hnumber : RuleSpec.readEntry names l.spec.number = .ok number)
    (hvalue : RuleSpec.readEntry names l.spec.value = .ok value) :
    l.spec.compile names =
      RuleSpec.blame l.spec.type (l.filled channel number value >>= Draft.finish) := by
  rw [Line.filled, ← Draft.foldlM_filter _ h.options, ← Line.effectOptions_spec h.options]
  have hkinds : RuleSpec.readKinds l.spec.type = .ok (l.source, l.target) :=
    readKinds_name l.source l.target
  have hnumbers :
      ({ Draft.start l.source l.target with channel, number, value } : Draft).numbered l.options =
        { Draft.start l.source l.target with
          channel, number, value, log := l.spec.log, lowByte := l.spec.lowByte,
          increment := l.spec.increment } := by
    simp [Draft.numbered, Draft.start, Line.spec]
  simp only [RuleSpec.compile, hkinds, hchannel, hnumber, hvalue, RuleSpec.blame_ok,
    ok_bind, hnumbers]

end Compile

/-- A well-formed line and the same rule in parts give the same rule, or both give none. -/
theorem notations_agree {names : Names} {l : Line} (h : l.WellFormed names) :
    (ofText names l.text).toOption = (l.spec.compile names).toOption := by
  obtain ⟨channel, hchannel, hchannel'⟩ :=
    compileField_eq h.channel l.text (spells_channel l.source)
  obtain ⟨number, hnumber, hnumber'⟩ := compileField_eq h.number l.text (spells_number l.source)
  obtain ⟨value, hvalue, hvalue'⟩ := compileField_eq h.value l.text (spells_value l.source)
  rw [ofText_eq h hchannel hnumber hvalue, compile_eq h hchannel' hnumber' hvalue',
    RuleSpec.toOption_blame, RuleSpec.toOption_blame]

/-- Names for the line below. -/
def drumNames : Names := (Dict.empty.insert "drums" "10").insert "low" "C2"

/-- A line with names, a missing left range, and right ranges with and without a transform. -/
def drumLine : Line where
  source := .control
  target := .note
  channel := ⟨some "drums", none⟩
  number := ⟨none, some "low-C4"⟩
  value := ⟨some "1-127", some "0-9*0.5+10"⟩
  options := [("lsb", "32"), ("counter", "steps"), ("inc", "2"), ("loop", "beat")]

theorem notations_agree_drums : drumLine.WellFormed drumNames ∧
    (ofText drumNames drumLine.text).toOption =
      (drumLine.spec.compile drumNames).toOption := by
  have hfields : drumLine.WellFormed drumNames := {
    channel := {
      left := by rintro _ ⟨⟩; exact ⟨by decide, _, rfl, fun _ => rfl⟩
      right := by rintro _ ⟨⟩ }
    number := {
      left := by rintro _ ⟨⟩
      right := by rintro _ ⟨⟩; exact ⟨by decide, by decide, _, rfl⟩ }
    value := {
      left := by rintro _ ⟨⟩; exact ⟨by decide, _, rfl, fun _ => rfl⟩
      right := by rintro _ ⟨⟩; exact ⟨by decide, by decide, _, rfl⟩ }
    options := {
      once := by decide
      inOrder := by decide
      unblank := by decide
      numbers := by
        intro o ho hkey
        simp only [drumLine, List.mem_cons, List.not_mem_nil, or_false] at ho
        rcases ho with rfl | rfl | rfl | rfl
        · exact ⟨32.0, by decide +kernel, fun _ => by decide +kernel⟩
        · exact absurd hkey (by decide)
        · exact ⟨_, rfl, fun h => absurd h (by decide)⟩
        · exact absurd hkey (by decide) } }
  exact ⟨hfields, notations_agree hfields⟩

end Rule

end MidiRig
