import MidiRig.Proofs.Document.Kept
import MidiRig.Proofs.Toml.Scalar

/-!
# Values in one line

What is written for a value is read as that value, less the fields that have none
(`readsBack`). The characters that may follow a value matter, since a number ends only there,
and so does the first one of its text, which nothing may skip: both are kept together in `Reads`.
Lists and tables are then read item by item, over the texts that were joined.
-/

namespace MidiRig.Toml

open Binary64

/-! ## Around a value -/

/-- What may follow a value: the end of its line, or what goes on with a list or a table. -/
def Ends (rest : List Char) : Prop := ∀ c ∈ rest.head?, c ∈ ['\n', ',', ' ', ']']

theorem Ends.stops {rest : List Char} (h : Ends rest) : Stops numberMarks rest := fun c hc => by
  have hmem := h c hc
  revert hmem
  simp only [List.mem_cons, List.not_mem_nil, or_false]
  rintro (rfl | rfl | rfl | rfl) <;> decide

theorem Ends.ne_quote {rest : List Char} (h : Ends rest) (cs : List Char) : rest ≠ '"' :: cs := by
  rintro rfl
  exact absurd (h '"' rfl) (by decide)

theorem ends_cons {c : Char} (hc : c ∈ ['\n', ',', ' ', ']']) (cs : List Char) :
    Ends (c :: cs) := fun d hd => by
  cases hd
  exact hc

/-- The text is read as the value, whatever follows it, and nothing in front of it is skipped. -/
structure Reads (read : ValueReader) (text : List Char) (v : Value) : Prop where
  begins : ∃ c cs, text = c :: cs ∧ c ∉ [' ', '\t', '\n', '\r', '#', ']']
  reads : ∀ rest, Ends rest → read (text ++ rest) = some (v, rest)

theorem isSpace_of_not_mem {c : Char} {marks : List Char} (hc : c ∉ marks)
    (hmarks : [' ', '\t'] ⊆ marks) : isSpace c = false :=
  isSpace_eq_false (ne_of_mem_of_not_mem (hmarks List.mem_cons_self) hc).symm
    (ne_of_mem_of_not_mem (hmarks (List.mem_cons_of_mem _ List.mem_cons_self)) hc).symm

theorem skipFiller_begins {c : Char} (hc : c ∉ [' ', '\t', '\n', '\r', '#', ']'])
    (cs : List Char) : skipFiller false (c :: cs) = some (c :: cs) := by
  have hne : ∀ d ∈ [' ', '\t', '\n', '\r', '#', ']'], c ≠ d := fun d hd =>
    (ne_of_mem_of_not_mem hd hc).symm
  have hspace : isSpace c = false := isSpace_of_not_mem hc (by decide)
  have hcomment : (c == '#') = false := beq_eq_false_iff_ne.mpr (hne '#' (by decide))
  rw [skipFiller, hspace, hcomment]
  · rfl
  · exact hne '\n' (by decide)
  · exact fun ds h => absurd h (hne '\r' (by decide))

/-! ## Lists -/

section Lists

variable {read : ValueReader}

theorem readItems?_blank (fuel : ℕ) (cs : List Char) :
    readItems? read fuel (' ' :: cs) = readItems? read fuel cs := by
  cases fuel <;> rfl

/-- One item, and then the comma or bracket behind it. -/
theorem readItems?_item {text rest : List Char} {v : Value} (h : Reads read text v)
    (hrest : Ends rest) (fuel : ℕ) :
    readItems? read (fuel + 1) (text ++ rest) = (skipFiller false rest).bind fun
      | ',' :: rest => (readItems? read fuel rest).bind fun (items, rest) =>
          some (v :: items, rest)
      | ']' :: rest => some ([v], rest)
      | _ => none := by
  have hread := h.reads rest hrest
  obtain ⟨c, cs, rfl, hc⟩ := h.begins
  have hbracket : c ≠ ']' := (ne_of_mem_of_not_mem (by decide) hc).symm
  rw [List.cons_append] at hread ⊢
  rw [readItems?, skipFiller_begins hc, Option.bind_eq_bind, Option.bind_some]
  split
  · next heq => exact absurd (List.cons.inj heq).1 hbracket
  · rw [hread]
    rfl

/-- There are at least as many characters as texts, if no text is empty. -/
theorem length_le_intercalate {α : Type} {R : List Char → α → Prop}
    (hR : ∀ text a, R text a → text ≠ []) {texts : List (List Char)} {as : List α}
    (h : List.Forall₂ R texts as) : texts.length ≤ ([',', ' '].intercalate texts).length := by
  induction h with
  | nil => exact Nat.zero_le _
  | @cons text a texts as h hs ih =>
    have htext := List.length_pos_iff.mpr (hR text a h)
    cases hs with
    | nil =>
      rw [List.intercalate_singleton]
      exact htext
    | cons h' hs' =>
      rw [List.intercalate_cons_cons, List.length_append, List.length_append, List.length_cons]
      omega

theorem Reads.ne_nil {text : List Char} {v : Value} (h : Reads read text v) : text ≠ [] := by
  obtain ⟨c, cs, rfl, -⟩ := h.begins
  exact List.cons_ne_nil c cs

theorem readItems?_intercalate {texts : List (List Char)} {items : List Value}
    (h : List.Forall₂ (Reads read) texts items) (hne : texts ≠ []) {fuel : ℕ}
    (hfuel : texts.length ≤ fuel) (rest : List Char) :
    readItems? read fuel ([',', ' '].intercalate texts ++ ']' :: rest) = some (items, rest) := by
  induction h generalizing fuel with
  | nil => exact absurd rfl hne
  | @cons text v texts items h hs ih =>
    obtain ⟨fuel, rfl⟩ : ∃ k, fuel = k + 1 := ⟨fuel - 1, by simp at hfuel; omega⟩
    cases hs with
    | nil =>
      rw [List.intercalate_singleton]
      rw [readItems?_item h (ends_cons (by decide) rest)]
      rfl
    | cons h' hs' =>
      have hrest := ih (List.cons_ne_nil _ _) (Nat.le_of_succ_le_succ hfuel)
      rw [List.intercalate_cons_cons, List.append_assoc, List.append_assoc, List.cons_append,
        List.cons_append, List.nil_append, readItems?_item h (ends_cons (by decide) _)]
      show (readItems? read fuel (' ' :: _)).bind _ = _
      rw [readItems?_blank, hrest]
      rfl

theorem readList?_intercalate {texts : List (List Char)} {items : List Value}
    (h : List.Forall₂ (Reads read) texts items) (rest : List Char) :
    readList? read ([',', ' '].intercalate texts ++ ']' :: rest) = some (.list items, rest) := by
  have hitems : readItems? read (([',', ' '].intercalate texts ++ ']' :: rest).length + 1)
      ([',', ' '].intercalate texts ++ ']' :: rest) = some (items, rest) := by
    rcases eq_or_ne texts [] with rfl | hne
    · cases h
      rfl
    · refine readItems?_intercalate h hne ?_ rest
      have hlength := length_le_intercalate (fun _ _ => Reads.ne_nil) h
      rw [List.length_append]
      omega
  rw [readList?, hitems]
  rfl

end Lists

/-! ## Tables in braces -/

/-- The text is that of a field of this name and value. -/
def ReadsField (read : ValueReader) (text : List Char) (entry : String × Value) : Prop :=
  ∃ value, text = (writeKey entry.1).toList ++ (' ' :: '=' :: ' ' :: value) ∧
    Reads read value entry.2

/-- Values under their names, as fields of a table under construction. -/
def leaves (entries : List (String × Value)) : Fields :=
  entries.map fun entry => (entry.1, .value entry.2)

theorem keys_leaves (entries : List (String × Value)) :
    (leaves entries).map (·.1) = entries.map (·.1) := by
  rw [leaves, List.map_map]
  rfl

theorem valuesOf_append (fields more : Fields) :
    valuesOf (fields ++ more) = valuesOf fields ++ valuesOf more := by
  induction fields with
  | nil => rfl
  | cons field fields ih =>
    rw [List.cons_append, valuesOf, valuesOf, ih]
    rfl

theorem valuesOf_leaves (entries : List (String × Value)) :
    valuesOf (leaves entries) = entries := by
  induction entries with
  | nil => rfl
  | cons entry entries ih =>
    rw [leaves, List.map_cons, valuesOf]
    exact congrArg₂ List.cons rfl ih

/-- Fields of other names are passed over. -/
theorem alter?_append {key : String} {earlier : Fields} (h : key ∉ earlier.map (·.1))
    (change : Option Node → Option Node) (fields : Fields) :
    Fields.alter? key change (earlier ++ fields) =
      (Fields.alter? key change fields).map fun fields => earlier ++ fields := by
  induction earlier with
  | nil => exact Option.map_id'.symm
  | cons field earlier ih =>
    rw [List.map_cons, List.mem_cons, not_or] at h
    have hne : (field.1 == key) = false := beq_eq_false_iff_ne.mpr (Ne.symm h.1)
    rw [List.cons_append, Fields.alter?, hne, if_neg Bool.false_ne_true, ih h.2, Option.map_map]
    rfl

/-- A new field comes behind the others. -/
theorem alter?_new {key : String} {fields : Fields} (h : key ∉ fields.map (·.1))
    (change : Option Node → Option Node) :
    Fields.alter? key change fields = (change none).map fun node => fields ++ [(key, node)] := by
  have hlast := alter?_append h change []
  rw [List.append_nil] at hlast
  rw [hlast, Fields.alter?, Option.map_map]
  rfl

theorem writeAt?_new {key : String} {fields : Fields} (h : key ∉ fields.map (·.1)) (v : Value) :
    Fields.writeAt? v [key] fields = some (fields ++ leaves [(key, v)]) := alter?_new h _

section Tables

variable {read : ValueReader}

theorem readKey?_equals (key : String) (cs : List Char) :
    readKey? ((writeKey key).toList ++ ' ' :: '=' :: cs) = some ([key], '=' :: cs) :=
  readKey?_writeKey key ⟨' ', _, rfl, .inl rfl⟩ fun _ h => absurd (List.cons.inj h).1 (by decide)

/-- A key, an equals sign between blanks, and a value. -/
theorem readPair?_field {text rest : List Char} {key : String} {v : Value}
    (h : ReadsField read text (key, v)) (hrest : Ends rest) :
    readPair? read (text ++ rest) = some (([key], v), rest) := by
  obtain ⟨value, rfl, h⟩ := h
  have hread := h.reads rest hrest
  obtain ⟨c, cs, rfl, hc⟩ := h.begins
  rw [List.append_assoc, readPair?]
  simp only [List.cons_append, readKey?_equals]
  show (read (skipSpaces (' ' :: c :: (cs ++ rest)))).bind _ = _
  have hskip : skipSpaces (' ' :: c :: (cs ++ rest)) = c :: (cs ++ rest) :=
    skipSpaces_cons (isSpace_of_not_mem hc (by decide)) (cs ++ rest)
  rw [hskip, ← List.cons_append, hread]
  rfl

theorem readFields?_blank (fuel : ℕ) (fields : Fields) (cs : List Char) :
    readFields? read fuel fields (' ' :: cs) = readFields? read fuel fields cs := by
  cases fuel <;> rfl

/-- One field, and then the comma or brace behind it. -/
theorem readFields?_field {text rest : List Char} {key : String} {v : Value}
    (h : ReadsField read text (key, v)) (hrest : Ends rest) {fields : Fields}
    (hnew : key ∉ fields.map (·.1)) (fuel : ℕ) :
    readFields? read (fuel + 1) fields (text ++ rest) =
      match skipSpaces rest with
      | ',' :: rest => readFields? read fuel (fields ++ leaves [(key, v)]) rest
      | '\x7d' :: rest => some (fields ++ leaves [(key, v)], rest)
      | _ => none := by
  rw [readFields?, readPair?_field h hrest]
  show (Fields.writeAt? v [key] fields).bind _ = _
  rw [writeAt?_new hnew]
  rfl

theorem readFields?_intercalate {texts : List (List Char)} {entries : List (String × Value)}
    (h : List.Forall₂ (ReadsField read) texts entries) (hne : texts ≠ []) {fields : Fields}
    (hkeys : (fields.map (·.1) ++ entries.map (·.1)).Nodup) {fuel : ℕ}
    (hfuel : texts.length ≤ fuel) (rest : List Char) :
    readFields? read fuel fields ([',', ' '].intercalate texts ++ ' ' :: '\x7d' :: rest) =
      some (fields ++ leaves entries, rest) := by
  induction h generalizing fuel fields with
  | nil => exact absurd rfl hne
  | @cons text entry texts entries h hs ih =>
    obtain ⟨key, v⟩ := entry
    obtain ⟨fuel, rfl⟩ : ∃ k, fuel = k + 1 := ⟨fuel - 1, by simp at hfuel; omega⟩
    have hnew : key ∉ fields.map (·.1) := fun hmem =>
      List.disjoint_of_nodup_append hkeys hmem List.mem_cons_self
    cases hs with
    | nil =>
      rw [List.intercalate_singleton, readFields?_field h (ends_cons (by decide) _) hnew]
      rfl
    | @cons _ entry' _ entries' h' hs' =>
      have hkeys' : ((fields ++ leaves [(key, v)]).map (·.1) ++
          (entry' :: entries').map (·.1)).Nodup := by
        rw [List.map_append, List.append_assoc]
        exact hkeys
      have hrest := ih (List.cons_ne_nil _ _) hkeys' (Nat.le_of_succ_le_succ hfuel)
      rw [List.intercalate_cons_cons, List.append_assoc, List.append_assoc, List.cons_append,
        List.cons_append, List.nil_append, readFields?_field h (ends_cons (by decide) _) hnew]
      show readFields? read fuel _ (' ' :: _) = _
      rw [readFields?_blank, hrest, List.append_assoc]
      rfl

theorem ReadsField.ne_nil {text : List Char} {entry : String × Value}
    (h : ReadsField read text entry) : text ≠ [] := by
  obtain ⟨value, rfl, -⟩ := h
  exact List.append_ne_nil_of_right_ne_nil _ (List.cons_ne_nil _ _)

theorem intercalate_begins {texts : List (List Char)} {entries : List (String × Value)}
    (h : List.Forall₂ (ReadsField read) texts entries) (hne : texts ≠ []) :
    ∃ c cs, [',', ' '].intercalate texts = c :: cs ∧ (isBare c = true ∨ c = '"') := by
  cases h with
  | nil => exact absurd rfl hne
  | @cons _ entry _ _ h hs =>
    obtain ⟨value, rfl, -⟩ := h
    obtain ⟨c, cs, hkey, hc⟩ := writeKey_begins entry.1
    cases hs with
    | nil =>
      rw [List.intercalate_singleton, hkey]
      exact ⟨c, _, rfl, hc⟩
    | cons h' hs' =>
      rw [List.intercalate_cons_cons, hkey]
      exact ⟨c, _, rfl, hc⟩

theorem readBraces?_intercalate {texts : List (List Char)} {entries : List (String × Value)}
    (h : List.Forall₂ (ReadsField read) texts entries) (hkeys : (entries.map (·.1)).Nodup)
    (rest : List Char) :
    readBraces? read (' ' :: ([',', ' '].intercalate texts ++ ' ' :: '\x7d' :: rest)) =
      some (.table entries, rest) := by
  rcases eq_or_ne texts [] with rfl | hne
  · cases h
    rfl
  obtain ⟨c, cs, hbegin, hc⟩ := intercalate_begins h hne
  have hskip : skipSpaces (' ' :: ([',', ' '].intercalate texts ++ ' ' :: '\x7d' :: rest)) =
      [',', ' '].intercalate texts ++ ' ' :: '\x7d' :: rest := by
    show skipSpaces ([',', ' '].intercalate texts ++ ' ' :: '\x7d' :: rest) = _
    rw [hbegin, List.cons_append, skipSpaces_key hc]
  have hlength : texts.length ≤
      ([',', ' '].intercalate texts ++ ' ' :: '\x7d' :: rest).length := by
    have := length_le_intercalate (fun _ _ => ReadsField.ne_nil) h
    rw [List.length_append]
    omega
  have hfields := @readFields?_intercalate read _ _ h hne [] hkeys _ hlength rest
  rw [readBraces?, hskip]
  split
  · next heq =>
    rw [hbegin] at heq
    exact absurd (List.cons.inj heq).1 (ne_of_key hc (by decide))
  · rw [hfields, List.nil_append]
    show some (Value.table (valuesOf (leaves entries)), rest) = _
    rw [valuesOf_leaves]

end Tables

/-! ## What is written -/

mutual

/-- What is left of a value in a document: all of it but the fields without a value. -/
def kept? : Value → Option Value
  | .null => none
  | .list items => some (.list (keptItems items))
  | .table entries => some (.table (keptEntries entries))
  | v => some v

def keptItems : List Value → List Value
  | [] => []
  | v :: rest => (kept? v).toList ++ keptItems rest

def keptEntries : List (String × Value) → List (String × Value)
  | [] => []
  | (key, v) :: rest => ((kept? v).map fun w => (key, w)).toList ++ keptEntries rest

end

theorem keys_keptEntries (entries : List (String × Value)) :
    ((keptEntries entries).map (·.1)).Sublist (entries.map (·.1)) := by
  induction entries with
  | nil => exact .slnil
  | cons entry rest ih =>
    rw [keptEntries, List.map_append, List.map_cons]
    cases kept? entry.2 with
    | none => exact ih.cons entry.1
    | some w => exact ih.cons_cons entry.1

theorem keptItems_kept {items : List Value} (h : ∀ v ∈ items, ∃ w, kept? v = some w ∧ Kept v w) :
    KeptItems items (keptItems items) := by
  induction items with
  | nil => exact .nil
  | cons v rest ih =>
    obtain ⟨w, hw, hkept⟩ := h v List.mem_cons_self
    rw [keptItems, hw]
    exact .cons hkept (ih fun u hu => h u (List.mem_cons_of_mem v hu))

theorem keptEntries_kept {entries : List (String × Value)}
    (h : ∀ entry ∈ entries, entry.2 ≠ .null → ∃ w, kept? entry.2 = some w ∧ Kept entry.2 w) :
    KeptEntries entries (keptEntries entries) := by
  induction entries with
  | nil => exact .nil
  | cons entry rest ih =>
    have hrest := ih fun e he => h e (List.mem_cons_of_mem entry he)
    obtain ⟨key, v⟩ := entry
    by_cases hv : v = .null
    · subst hv
      exact .absent hrest
    · obtain ⟨w, hw, hkept⟩ := h (key, v) List.mem_cons_self hv
      rw [keptEntries, hw]
      exact .cons hkept hrest

theorem exists_kept {k : ℕ} {v : Value} (h : Storable k v) :
    ∃ w, kept? v = some w ∧ Kept v w := by
  induction h with
  | bool _ b => exact ⟨_, rfl, .bool b⟩
  | int _ _ _ => exact ⟨_, rfl, .int _⟩
  | float _ _ => exact ⟨_, rfl, .float _⟩
  | text _ s => exact ⟨_, rfl, .text s⟩
  | list _ ih => exact ⟨_, rfl, .list (keptItems_kept ih)⟩
  | table _ _ ih => exact ⟨_, rfl, .table (keptEntries_kept ih) (.refl _)⟩

/-! ## What is written is read -/

/-- The text of a value, if it has one, is read as what is kept of it. -/
abbrev ReadsBack (read : ValueReader) (v : Value) : Prop :=
  Option.Rel (fun text w => Reads read text.toList w) (writeValue? v) (kept? v)

section

variable {read : ValueReader}

theorem reads_items {items : List Value} (h : ∀ v ∈ items, ReadsBack read v) :
    List.Forall₂ (Reads read) ((writeItems items).map String.toList) (keptItems items) := by
  induction items with
  | nil => exact .nil
  | cons v rest ih =>
    have hrest := ih fun w hw => h w (List.mem_cons_of_mem v hw)
    have hv := h v List.mem_cons_self
    rw [writeItems, keptItems]
    unfold ReadsBack at hv
    generalize writeValue? v = text, kept? v = w at hv ⊢
    cases hv with
    | none => exact hrest
    | some hv => exact .cons hv hrest

theorem toList_writeField (key text : String) :
    (writeField key text).toList =
      (writeKey key).toList ++ ' ' :: '=' :: ' ' :: text.toList := by
  have hequals : " = ".toList = [' ', '=', ' '] := rfl
  rw [writeField, String.toList_append, String.toList_append, hequals, List.append_assoc]
  rfl

/-- What has no value has no text either. -/
theorem readsBack_field {v : Value} (h : v ≠ .null → ReadsBack read v) : ReadsBack read v := by
  by_cases hv : v = .null
  · subst hv
    exact .none
  · exact h hv

theorem reads_entries {entries : List (String × Value)}
    (h : ∀ entry ∈ entries, entry.2 ≠ .null → ReadsBack read entry.2) :
    List.Forall₂ (ReadsField read) ((writeEntries entries).map String.toList)
      (keptEntries entries) := by
  induction entries with
  | nil => exact .nil
  | cons entry rest ih =>
    have hrest := ih fun w hw => h w (List.mem_cons_of_mem entry hw)
    have hentry := readsBack_field (h entry List.mem_cons_self)
    obtain ⟨key, v⟩ := entry
    rw [writeEntries, keptEntries]
    unfold ReadsBack at hentry
    dsimp only at hentry
    generalize writeValue? v = text, kept? v = w at hentry ⊢
    cases hentry with
    | none => exact hrest
    | some hv => exact .cons ⟨_, toList_writeField key _, hv⟩ hrest

end

theorem readValue?_scalar {c : Char} (hlist : c ≠ '[') (htable : c ≠ '\x7b') (k : ℕ)
    (cs : List Char) : readValue? k (c :: cs) = readScalar? (c :: cs) := by
  cases k with
  | zero => rfl
  | succ k =>
    rw [readValue?]
    · exact fun ds h => hlist (List.cons.inj h).1
    · exact fun ds h => htable (List.cons.inj h).1

theorem reads_bool (k : ℕ) (b : Bool) :
    Reads (readValue? k) (if b then "true" else "false").toList (.bool b) := by
  cases b with
  | true =>
    refine ⟨⟨'t', _, rfl, by decide⟩, fun rest _ => ?_⟩
    exact readValue?_scalar (by decide) (by decide) k _
  | false =>
    refine ⟨⟨'f', _, rfl, by decide⟩, fun rest _ => ?_⟩
    exact readValue?_scalar (by decide) (by decide) k _

theorem beginsNumber_ne {c d : Char} (hc : beginsNumber c = true) (hd : beginsNumber d = false) :
    c ≠ d := by
  rintro rfl
  exact absurd hc (Bool.eq_false_iff.mp hd)

theorem readScalar?_number {c : Char} (hc : beginsNumber c = true) (cs : List Char) :
    readScalar? (c :: cs) = readNumeral? (c :: cs) := by
  rw [readScalar?]
  · rw [if_neg]
    rw [Bool.or_eq_true, beq_iff_eq, beq_iff_eq]
    rintro (h | h) <;> exact beginsNumber_ne hc (by decide) h
  · exact fun ds h => absurd h (beginsNumber_ne hc (by decide))
  · exact fun ds h => absurd h (beginsNumber_ne hc (by decide))

theorem reads_number {text : List Char} {v : Value} (k : ℕ)
    (hbegins : ∃ c cs, text = c :: cs ∧ beginsNumber c = true)
    (hread : ∀ rest, Stops numberMarks rest → readNumeral? (text ++ rest) = some (v, rest)) :
    Reads (readValue? k) text v := by
  obtain ⟨c, cs, rfl, hc⟩ := hbegins
  refine ⟨⟨c, cs, rfl, fun hmem => ?_⟩, fun rest hrest => ?_⟩
  · have hnone : [' ', '\t', '\n', '\r', '#', ']'].all (fun d => !beginsNumber d) = true := rfl
    have := List.all_eq_true.mp hnone c hmem
    rw [hc] at this
    exact Bool.false_ne_true this
  · rw [List.cons_append, readValue?_scalar (beginsNumber_ne hc (by decide))
      (beginsNumber_ne hc (by decide)), readScalar?_number hc]
    exact hread rest hrest.stops

theorem reads_int {n : ℤ} (k : ℕ) (hlo : minInt64 ≤ n) (hhi : n ≤ maxInt64) :
    Reads (readValue? k) (toString n).toList (.int n) :=
  reads_number k (begins_toString n) fun _ hrest => readNumeral?_toString hlo hhi hrest

theorem reads_float {x : Float} (k : ℕ) (hx : x.isNaN = false) :
    Reads (readValue? k) (writeFloat x).toList (.float x) :=
  reads_number k (begins_writeFloat hx) fun _ hrest => readNumeral?_writeFloat hx hrest

theorem reads_text (k : ℕ) (s : String) : Reads (readValue? k) (quote s).toList (.text s) := by
  refine ⟨⟨'"', _, toList_quote s, by decide⟩, fun rest hrest => ?_⟩
  have hread := readQuoted?_quote s hrest.ne_quote
  rw [toList_quote, List.cons_append] at hread ⊢
  rw [readValue?_scalar (by decide) (by decide)]
  show (readQuoted? _).map _ = _
  rw [hread]
  rfl

theorem toList_list (items : List Value) :
    ("[" ++ ", ".intercalate (writeItems items) ++ "]").toList =
      '[' :: ([',', ' '].intercalate ((writeItems items).map String.toList) ++ [']']) := by
  rw [String.toList_append, String.toList_append, String.toList_intercalate]
  rfl

theorem toList_table (entries : List (String × Value)) :
    ("\x7b " ++ ", ".intercalate (writeEntries entries) ++ " \x7d").toList =
      '\x7b' :: ' ' :: ([',', ' '].intercalate ((writeEntries entries).map String.toList) ++
        [' ', '\x7d']) := by
  rw [String.toList_append, String.toList_append, String.toList_intercalate]
  rfl

/-- Every storable value is read back from its text. -/
theorem readsBack {k : ℕ} {v : Value} (h : Storable k v) : ReadsBack (readValue? k) v := by
  induction h with
  | bool k b => exact .some (reads_bool k b)
  | int k hlo hhi => exact .some (reads_int k hlo hhi)
  | float k hx => exact .some (reads_float k hx)
  | text k s => exact .some (reads_text k s)
  | @list k items _ ih =>
    refine .some ⟨⟨'[', _, toList_list items, by decide⟩, fun rest _ => ?_⟩
    rw [toList_list, List.cons_append, List.append_assoc]
    exact readList?_intercalate (reads_items ih) rest
  | @table k entries _ hkeys ih =>
    refine .some ⟨⟨'\x7b', _, toList_table entries, by decide⟩, fun rest _ => ?_⟩
    rw [toList_table, List.cons_append, List.cons_append, List.append_assoc]
    exact readBraces?_intercalate (reads_entries ih) (hkeys.sublist (keys_keptEntries entries)) rest

end MidiRig.Toml
