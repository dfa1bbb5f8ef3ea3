import MidiRig.Proofs.Toml.Bounds
import MidiRig.Proofs.Toml.Value

/-!
# Documents

The document that is written for a table is read as that table, with its tables behind its other
fields (`read?_write`). Reading goes on line by line: `Draft.Advances` says that some lines take
one draft to another, whatever follows them, and the lines of a section are put together from the
header and one line for each field.
-/

namespace MidiRig.Toml

namespace Draft

/-! ## Lines -/

/-- Reading these lines takes one draft to the other; what follows is read from there. -/
structure Advances (d : Draft) (cs : List Char) (d' : Draft) : Prop where
  begins : cs.head? ≠ some '\uFEFF'
  reads : ∀ rest fuel, (cs ++ rest).length ≤ fuel →
    ∃ fuel', rest.length ≤ fuel' ∧ d.readLines? fuel (cs ++ rest) = d'.readLines? fuel' rest

theorem Advances.refl (d : Draft) : Advances d [] d :=
  ⟨nofun, fun _ fuel h => ⟨fuel, h, rfl⟩⟩

theorem Advances.trans {d d' d'' : Draft} {cs ds : List Char} (h : Advances d cs d')
    (h' : Advances d' ds d'') : Advances d (cs ++ ds) d'' := by
  refine ⟨?_, fun rest fuel hfuel => ?_⟩
  · cases cs with
    | nil => exact h'.begins
    | cons c cs => exact h.begins
  · rw [List.append_assoc] at hfuel ⊢
    obtain ⟨fuel', hfuel', hread⟩ := h.reads (ds ++ rest) fuel hfuel
    obtain ⟨fuel'', hfuel'', hread'⟩ := h'.reads rest fuel' hfuel'
    exact ⟨fuel'', hfuel'', hread.trans hread'⟩

theorem Advances.empty (d : Draft) : Advances d ['\n'] d := by
  refine ⟨by decide, fun rest fuel hfuel => ?_⟩
  obtain ⟨fuel, rfl⟩ : ∃ k, fuel = k + 1 := ⟨fuel - 1, by simp at hfuel; omega⟩
  exact ⟨fuel, Nat.le_of_succ_le_succ hfuel, rfl⟩

theorem endLine?_begins {c : Char} (hc : c ∉ [' ', '\t', '\n', '\r', '#', '\uFEFF'])
    (cs : List Char) : endLine? false (c :: cs) = none := by
  have hne : ∀ d ∈ [' ', '\t', '\n', '\r', '#', '\uFEFF'], c ≠ d := fun d hd =>
    (ne_of_mem_of_not_mem hd hc).symm
  have hspace : isSpace c = false := isSpace_of_not_mem hc (by decide)
  have hcomment : (c == '#') = false := beq_eq_false_iff_ne.mpr (hne '#' (by decide))
  rw [endLine?, hspace, hcomment]
  · rfl
  · exact hne '\n' (by decide)
  · exact fun ds h => absurd h (hne '\r' (by decide))

/-- A line that says something, and its end. -/
theorem Advances.line {d d' : Draft} {c : Char} {cs : List Char}
    (hc : c ∉ [' ', '\t', '\n', '\r', '#', '\uFEFF'])
    (h : ∀ rest, d.readLine? (c :: cs ++ '\n' :: rest) = some (d', '\n' :: rest)) :
    Advances d (c :: cs ++ ['\n']) d' := by
  refine ⟨?_, fun rest fuel hfuel => ?_⟩
  · rw [List.cons_append, List.head?_cons, ne_eq, Option.some_inj]
    exact (ne_of_mem_of_not_mem (by decide) hc).symm
  · obtain ⟨fuel, rfl⟩ : ∃ k, fuel = k + 1 := ⟨fuel - 1, by simp at hfuel; omega⟩
    refine ⟨fuel, by simp at hfuel; omega, ?_⟩
    have hline := h rest
    have hskip : skipSpaces (c :: cs ++ '\n' :: rest) = c :: cs ++ '\n' :: rest :=
      skipSpaces_cons (isSpace_of_not_mem hc (by decide)) _
    rw [List.append_assoc, List.singleton_append]
    rw [List.cons_append] at hline hskip ⊢
    rw [readLines?, endLine?_begins hc, hskip]
    · show (d.readLine? _).bind _ = _
      rw [hline]
      rfl
    · exact List.cons_ne_nil _ _

/-! ## Fields -/

theorem ends_line (rest : List Char) : Ends ('\n' :: rest) := ends_cons (by decide) rest

theorem readLine?_field {d d' : Draft} {text rest : List Char} {key : String} {v : Value}
    (h : ReadsField (readValue? (depthLimit - 1)) text (key, v))
    (hwrite : d.write? [key] v = some d') :
    d.readLine? (text ++ '\n' :: rest) = some (d', '\n' :: rest) := by
  have hpair := readPair?_field h (ends_line rest)
  obtain ⟨value, rfl, -⟩ := h
  obtain ⟨c, cs, hkey, hc⟩ := writeKey_begins key
  have hheader : c ≠ '[' := ne_of_key hc (by decide)
  rw [hkey, List.cons_append, List.cons_append] at hpair ⊢
  rw [readLine?, hpair]
  · show (d.write? [key] v).bind _ = _
    rw [hwrite]
    rfl
  · exact fun _ h => absurd (List.cons.inj h).1 hheader
  · exact fun _ h => absurd (List.cons.inj h).1 hheader

theorem Advances.field {d d' : Draft} {text : List Char} {key : String} {v : Value}
    (h : ReadsField (readValue? (depthLimit - 1)) text (key, v))
    (hwrite : d.write? [key] v = some d') : Advances d (text ++ ['\n']) d' := by
  have hline := fun rest => @readLine?_field d d' text rest key v h hwrite
  obtain ⟨value, rfl, -⟩ := h
  obtain ⟨c, cs, hkey, hc⟩ := writeKey_begins key
  rw [hkey] at hline ⊢
  exact .line (not_mem_of_key hc (by decide)) hline

/-- A place that fields can be written to. -/
def Takes (place : List (String × Value) → Draft) : Prop :=
  ∀ before key v, key ∉ before.map (·.1) →
    (place before).write? [key] v = some (place (before ++ [(key, v)]))

theorem Takes.advances {place : List (String × Value) → Draft} (hplace : Takes place)
    {texts : List (List Char)} {entries : List (String × Value)}
    (h : List.Forall₂ (ReadsField (readValue? (depthLimit - 1))) texts entries)
    {before : List (String × Value)} (hkeys : (before.map (·.1) ++ entries.map (·.1)).Nodup) :
    Advances (place before) (texts.flatMap (· ++ ['\n'])) (place (before ++ entries)) := by
  induction h generalizing before with
  | nil =>
    rw [List.append_nil]
    exact .refl _
  | @cons text entry texts entries h _ ih =>
    obtain ⟨key, v⟩ := entry
    have hnew : key ∉ before.map (·.1) := fun hmem =>
      List.disjoint_of_nodup_append hkeys hmem List.mem_cons_self
    have hkeys' : ((before ++ [(key, v)]).map (·.1) ++ entries.map (·.1)).Nodup := by
      rw [List.map_append, List.append_assoc]
      exact hkeys
    have hrest := ih hkeys'
    rw [List.append_assoc] at hrest
    exact (Advances.field h (hplace before key v hnew)).trans hrest

/-! ## Sections -/

theorem takes_start : Takes fun before => ⟨leaves before, []⟩ := by
  intro before key v hnew
  have hkeys : key ∉ (leaves before).map (·.1) := by rwa [keys_leaves]
  show ((leaves before).writeAt? v [key]).bind _ = _
  rw [writeAt?_new hkeys, leaves, leaves, ← List.map_append]
  rfl

/-- The table under the last header. -/
def under (earlier : Fields) (key : String) (entries : List (String × Value)) : Draft :=
  ⟨earlier ++ [(key, .table .header (leaves entries))], [key]⟩

theorem alter?_last {key : String} {earlier : Fields} (h : key ∉ earlier.map (·.1)) (node : Node)
    (change : Option Node → Option Node) :
    Fields.alter? key change (earlier ++ [(key, node)]) =
      (change (some node)).map fun node => earlier ++ [(key, node)] := by
  rw [alter?_append h, Fields.alter?, beq_self_eq_true, if_pos rfl, Option.map_map]
  rfl

theorem takes_under {earlier : Fields} {key : String} (h : key ∉ earlier.map (·.1)) :
    Takes (under earlier key) := by
  intro before name v hnew
  have hkeys : name ∉ (leaves before).map (·.1) := by rwa [keys_leaves]
  show (Fields.atPath? (fun inner => inner.writeAt? v [name]) [key] _).bind _ = _
  rw [Fields.atPath?, under, alter?_last h]
  show ((((leaves before).writeAt? v [name]).map _).map _).bind _ = _
  rw [writeAt?_new hkeys, leaves, leaves, ← List.map_append]
  rfl

/-- The header of a new table. -/
theorem Advances.header (d : Draft) {key : String} (h : key ∉ d.fields.map (·.1)) :
    Advances d ('[' :: ((writeKey key).toList ++ [']']) ++ ['\n']) (under d.fields key []) := by
  refine .line (by decide) fun rest => ?_
  have hkey : readKey? ((writeKey key).toList ++ ']' :: '\n' :: rest) =
      some ([key], ']' :: '\n' :: rest) :=
    readKey?_writeKey key ⟨']', _, rfl, .inr rfl⟩ fun _ h =>
      absurd (List.cons.inj h).1 (by decide)
  have henter : d.enter? Fields.begin? [key] = some (under d.fields key []) := by
    show (Fields.begin? key d.fields).bind _ = _
    rw [Fields.begin?, alter?_new h]
    rfl
  obtain ⟨c, cs, hbegin, hc⟩ := writeKey_begins key
  rw [hbegin, List.cons_append] at hkey
  rw [List.cons_append, List.append_assoc, hbegin, List.cons_append]
  show d.readLine? ('[' :: c :: (cs ++ ']' :: '\n' :: rest)) = _
  rw [readLine?, hkey]
  · show (d.enter? Fields.begin? [key]).bind _ = _
    rw [henter]
    rfl
  · exact fun _ h => absurd (List.cons.inj h).1 (ne_of_key hc (by decide))

theorem Advances.section {d : Draft} {key : String} (hnew : key ∉ d.fields.map (·.1))
    {texts : List (List Char)} {entries : List (String × Value)}
    (h : List.Forall₂ (ReadsField (readValue? (depthLimit - 1))) texts entries)
    (hkeys : (entries.map (·.1)).Nodup) :
    Advances d
      ('[' :: ((writeKey key).toList ++ [']']) ++ ['\n'] ++ texts.flatMap (· ++ ['\n']))
      (under d.fields key entries) :=
  (Advances.header d hnew).trans
    (@Takes.advances _ (takes_under hnew) _ _ h [] (by rwa [List.map_nil, List.nil_append]))

/-- The tables of a document, from its headers and their fields. -/
def sections (tables : List (String × List (String × Value))) : Fields :=
  tables.map fun table => (table.1, .table .header (leaves (keptEntries table.2)))

/-- The text of a section. -/
def sectionText (table : String × List (String × Value)) : List Char :=
  ((writeSection table.1 table.2).map String.toList).flatMap (· ++ ['\n'])

theorem Advances.table {d : Draft} {key : String} (hnew : key ∉ d.fields.map (·.1))
    {entries : List (String × Value)} (h : Storable depthLimit (.table entries)) :
    Advances d (sectionText (key, entries)) (under d.fields key (keptEntries entries)) := by
  cases h with
  | table hentries hkeys =>
    have hreads := reads_entries fun entry hentry hv => readsBack (hentries entry hentry hv)
    have hsection := Advances.section hnew hreads (hkeys.sublist (keys_keptEntries entries))
    have hheader : ("[" ++ writeKey key ++ "]").toList =
        '[' :: ((writeKey key).toList ++ [']']) := by
      rw [String.toList_append, String.toList_append]
      rfl
    rw [sectionText, writeSection, List.map_cons, List.flatMap_cons, hheader]
    exact hsection

theorem advances_sections {tables : List (String × List (String × Value))}
    (h : ∀ table ∈ tables, Storable depthLimit (.table table.2)) {d : Draft}
    (hkeys : (d.fields.map (·.1) ++ tables.map (·.1)).Nodup) :
    ∃ header, Advances d (['\n'].intercalate (tables.map sectionText))
      ⟨d.fields ++ sections tables, header⟩ := by
  induction tables generalizing d with
  | nil =>
    refine ⟨d.header, ?_⟩
    have hnone : d.fields ++ sections [] = d.fields := List.append_nil _
    rw [hnone]
    exact .refl d
  | cons table tables ih =>
    have hnew : table.1 ∉ d.fields.map (·.1) := fun hmem =>
      List.disjoint_of_nodup_append hkeys hmem List.mem_cons_self
    have hfirst := Advances.table hnew (h table List.mem_cons_self)
    have hkeys' : ((under d.fields table.1 (keptEntries table.2)).fields.map (·.1) ++
        tables.map (·.1)).Nodup := by
      rw [under, List.map_append, List.append_assoc]
      exact hkeys
    obtain ⟨header, hrest⟩ := ih (fun t ht => h t (List.mem_cons_of_mem table ht)) hkeys'
    have hfields : (under d.fields table.1 (keptEntries table.2)).fields ++ sections tables =
        d.fields ++ sections (table :: tables) := by
      rw [under, List.append_assoc]
      rfl
    rw [hfields] at hrest
    cases tables with
    | nil =>
      refine ⟨[table.1], ?_⟩
      rw [List.map_singleton, List.intercalate_singleton]
      exact hfirst
    | cons next tables =>
      refine ⟨header, ?_⟩
      rw [List.map_cons, List.map_cons, List.intercalate_cons_cons, List.append_assoc]
      exact hfirst.trans ((Advances.empty _).trans hrest)

end Draft

/-! ## The whole document -/

def isTable : Value → Bool
  | .table _ => true
  | _ => false

/-- The fields of a document in their order there: those that are tables come last. -/
def arranged (entries : List (String × Value)) : List (String × Value) :=
  entries.filter (fun entry => !isTable entry.2) ++ entries.filter fun entry => isTable entry.2

theorem arranged_perm (entries : List (String × Value)) : (arranged entries).Perm entries :=
  List.perm_append_comm.trans (List.filter_append_perm (fun entry => isTable entry.2) entries)

/-- A section as a field. -/
def asField (table : String × List (String × Value)) : String × Value := (table.1, .table table.2)

theorem split_eq (entries : List (String × Value)) :
    ∃ tables : List (String × List (String × Value)),
      tables.map asField = entries.filter (fun entry => isTable entry.2) ∧
      split entries = (entries.filter (fun entry => !isTable entry.2),
        tables.map fun table => writeSection table.1 table.2) := by
  induction entries with
  | nil => exact ⟨[], rfl, rfl⟩
  | cons entry entries ih =>
    obtain ⟨tables, htables, hsplit⟩ := ih
    obtain ⟨key, v⟩ := entry
    cases v with
    | table inner =>
      refine ⟨(key, inner) :: tables, ?_, ?_⟩
      · rw [List.map_cons, htables, List.filter_cons_of_pos rfl]
        rfl
      · rw [split, hsplit, List.filter_cons_of_neg (by exact Bool.false_ne_true)]
        rfl
    | _ =>
      refine ⟨tables, ?_, ?_⟩
      · rw [htables, List.filter_cons_of_neg (by exact Bool.false_ne_true)]
      · rw [split, hsplit, List.filter_cons_of_pos rfl]
        exact nofun

theorem keptEntries_eq_flatMap (entries : List (String × Value)) :
    keptEntries entries =
      entries.flatMap fun entry => ((kept? entry.2).map fun w => (entry.1, w)).toList := by
  induction entries with
  | nil => rfl
  | cons entry entries ih => rw [keptEntries, List.flatMap_cons, ih]

theorem keptEntries_append (entries more : List (String × Value)) :
    keptEntries (entries ++ more) = keptEntries entries ++ keptEntries more := by
  simp only [keptEntries_eq_flatMap, List.flatMap_append]

theorem keptEntries_tables (tables : List (String × List (String × Value))) :
    keptEntries (tables.map asField) = valuesOf (Draft.sections tables) := by
  induction tables with
  | nil => rfl
  | cons table tables ih =>
    have hsections : Draft.sections (table :: tables) =
        (table.1, .table .header (leaves (keptEntries table.2))) :: Draft.sections tables := rfl
    rw [List.map_cons, asField, keptEntries, ih, kept?, hsections, valuesOf, Node.toValue,
      valuesOf_leaves]
    rfl

/-- The lines of a part of a document. -/
def partText (lines : List String) : List Char := (lines.map String.toList).flatMap (· ++ ['\n'])

theorem toList_write (entries : List (String × Value)) :
    (write entries).toList = ['\n'].intercalate
      (((writeEntries (split entries).1 :: (split entries).2).filter fun part =>
        !part.isEmpty).map partText) := by
  have hpart : ∀ part : List String,
      (String.join (part.map fun line => line ++ "\n")).toList = partText part := by
    intro part
    simp [partText, String.toList_join, List.flatMap_map]
  rw [write, String.toList_intercalate, List.map_map]
  simp [Function.comp_def, hpart]

theorem filter_sections (tables : List (String × List (String × Value))) :
    (tables.map fun table => writeSection table.1 table.2).filter (fun part => !part.isEmpty) =
      tables.map fun table => writeSection table.1 table.2 := by
  refine List.filter_eq_self.mpr fun part hpart => ?_
  obtain ⟨table, -, rfl⟩ := List.mem_map.mp hpart
  rfl

/-- The lines of a document, if those of its first part and of its sections are read. -/
theorem advances_parts {entries fields : List (String × Value)}
    {tables : List (String × List (String × Value))} {d d' : Draft}
    (hsplit : split entries = (fields, tables.map fun table => writeSection table.1 table.2))
    (hfields : Draft.start.Advances (partText (writeEntries fields)) d)
    (hsections : d.Advances (['\n'].intercalate (tables.map Draft.sectionText)) d') :
    Draft.start.Advances (write entries).toList d' := by
  have hparts : (tables.map fun table => writeSection table.1 table.2).map partText =
      tables.map Draft.sectionText := List.map_map
  rw [toList_write, hsplit, List.filter_cons, filter_sections]
  dsimp only
  split
  · rw [List.map_cons, hparts]
    cases tables with
    | nil =>
      have hwhole := hfields.trans hsections
      rw [List.map_nil, List.intercalate_nil, List.append_nil] at hwhole
      rw [List.map_nil, List.intercalate_singleton]
      exact hwhole
    | cons table tables =>
      rw [List.map_cons, List.intercalate_cons_cons, ← List.map_cons, List.append_assoc]
      exact hfields.trans ((Draft.Advances.empty d).trans hsections)
  · -- without fields there is no first part, and no empty line behind it
    next hempty =>
    have hnone : writeEntries fields = [] := by simpa using hempty
    rw [hnone] at hfields
    rw [hparts]
    exact hfields.trans hsections

/-- The lines of a document build up its fields first, and then its tables. -/
theorem advances_write {entries : List (String × Value)}
    (h : Storable depthLimit (.table entries)) :
    ∃ d, Draft.start.Advances (write entries).toList d ∧
      valuesOf d.fields = keptEntries (arranged entries) := by
  obtain ⟨tables, htables, hsplit⟩ := split_eq entries
  have harranged : arranged entries =
      entries.filter (fun entry => !isTable entry.2) ++ tables.map asField := by
    rw [htables, arranged]
  generalize entries.filter (fun entry => !isTable entry.2) = fields at hsplit harranged
  cases h with
  | table hentries hkeys =>
    have hmem : ∀ entry ∈ arranged entries, entry.2 ≠ .null → Storable (depthLimit - 1) entry.2 :=
      fun entry hentry => hentries entry ((arranged_perm entries).mem_iff.mp hentry)
    have hnodup : ((arranged entries).map (·.1)).Nodup :=
      ((arranged_perm entries).map _).nodup_iff.mpr hkeys
    rw [harranged] at hmem hnodup
    have hreads := reads_entries fun entry hentry hv =>
      readsBack (hmem entry (List.mem_append_left _ hentry) hv)
    have hstorable : ∀ table ∈ tables, Storable depthLimit (.table table.2) := fun table htable =>
      (hmem _ (List.mem_append_right _ (List.mem_map_of_mem htable)) nofun).mono (Nat.le_succ _)
    have hkept : ((keptEntries fields).map (·.1) ++ tables.map (·.1)).Nodup := by
      rw [List.map_append, List.map_map] at hnodup
      exact hnodup.sublist ((keys_keptEntries fields).append (List.Sublist.refl _))
    have hfields : Draft.start.Advances (partText (writeEntries fields))
        ⟨leaves (keptEntries fields), []⟩ :=
      @Draft.Takes.advances _ Draft.takes_start _ _ hreads [] hkept.of_append_left
    obtain ⟨header, hsections⟩ := @Draft.advances_sections tables hstorable
      ⟨leaves (keptEntries fields), []⟩ (by rw [keys_leaves]; exact hkept)
    refine ⟨_, advances_parts hsplit hfields hsections, ?_⟩
    rw [valuesOf_append, valuesOf_leaves, harranged, keptEntries_append, keptEntries_tables]

/-- What is written for a table is read as what is kept of it, its tables last. -/
theorem read?_write {entries : List (String × Value)} (h : Storable depthLimit (.table entries)) :
    read? (write entries) = kept? (.table (arranged entries)) := by
  obtain ⟨d, hadvances, hfields⟩ := advances_write h
  obtain ⟨fuel, -, hread⟩ := hadvances.reads [] (write entries).toList.length
    (by rw [List.append_nil])
  have hend : d.readLines? fuel [] = some d := by cases fuel <;> rfl
  rw [List.append_nil, hend] at hread
  have hmark : ∀ rest, (write entries).toList ≠ '\uFEFF' :: rest := by
    intro rest heq
    exact hadvances.begins (by rw [heq]; rfl)
  unfold read?
  dsimp only
  split
  · next heq => exact absurd heq (hmark _)
  · rw [hread, kept?, ← hfields]
    rfl

/-- What is written is read as what is kept of it, and nothing is read that is not bounded. -/
theorem faithful_format : format.Faithful depthLimit where
  writes _ := ⟨_, rfl⟩
  bounded := bounded_read?
  reads := by
    intro entries s hstorable hwrite
    cases hwrite
    refine ⟨_, read?_write hstorable, ?_⟩
    cases hstorable with
    | table hentries _ =>
      have hkept := keptEntries_kept fun entry hentry hv => exists_kept (hentries entry hentry hv)
      have hperm := (arranged_perm entries).symm
      refine .table hkept ?_
      rw [keptEntries_eq_flatMap, keptEntries_eq_flatMap]
      exact hperm.flatMap_right _

end MidiRig.Toml
