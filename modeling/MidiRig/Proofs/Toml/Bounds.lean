import MidiRig.Proofs.Document.Kept
import MidiRig.Proofs.Number.Digits

/-!
# Whole numbers of a document

Whatever is read from a document, its whole numbers fit in 64 bits with a sign (`bounded_read?`).
Each reader gives bounded values if the readers that it calls do, and each way to change the tables
under construction keeps them so.
-/

namespace MidiRig.Toml

open Binary64

/-! ## Bounded fields -/

/-- Fields that are bounded as a table. -/
abbrev BoundedFields (fields : Fields) : Prop := Bounded (.table (valuesOf fields))

theorem boundedFields_nil : BoundedFields [] := .table (List.forall_mem_nil _)

theorem boundedFields_cons {key : String} {node : Node} {fields : Fields} :
    BoundedFields ((key, node) :: fields) ↔ Bounded node.toValue ∧ BoundedFields fields := by
  constructor
  · rintro ⟨⟩
    next h =>
    rw [valuesOf, List.forall_mem_cons] at h
    exact ⟨h.1, .table h.2⟩
  · rintro ⟨hnode, ⟨⟩⟩
    next h =>
    refine .table ?_
    rw [valuesOf, List.forall_mem_cons]
    exact ⟨hnode, h⟩

theorem boundedFields_inner {origin : Origin} {inner : Fields} :
    Bounded (Node.table origin inner).toValue ↔ BoundedFields inner := by
  rw [Node.toValue]

theorem boundedFields_last {earlier : List Value} {inner : Fields} :
    Bounded (Node.tables earlier inner).toValue ↔
      (∀ v ∈ earlier, Bounded v) ∧ BoundedFields inner := by
  rw [Node.toValue]
  constructor
  · rintro ⟨⟩
    next h =>
    obtain ⟨hearlier, hinner⟩ := List.forall_mem_append.mp h
    exact ⟨hearlier, hinner _ (List.mem_singleton_self _)⟩
  · rintro ⟨hearlier, hinner⟩
    exact .list (List.forall_mem_append.mpr ⟨hearlier, List.forall_mem_singleton.mpr hinner⟩)

/-! ## Tables under construction -/

/-- A change that keeps fields bounded. -/
def Keeps (change : Fields → Option Fields) : Prop :=
  ∀ fields fields', change fields = some fields' → BoundedFields fields → BoundedFields fields'

/-- A field stays bounded if its change gives bounded nodes. -/
theorem keeps_alter? {key : String} {change : Option Node → Option Node}
    (hnew : ∀ node, change none = some node → Bounded node.toValue)
    (hold : ∀ node node', change (some node) = some node' → Bounded node.toValue →
      Bounded node'.toValue) : Keeps (Fields.alter? key change) := by
  intro fields
  induction fields with
  | nil =>
    intro fields' h _
    obtain ⟨node, hnode, rfl⟩ := Option.map_eq_some_iff.mp h
    exact boundedFields_cons.mpr ⟨hnew node hnode, boundedFields_nil⟩
  | cons field fields ih =>
    obtain ⟨name, node⟩ := field
    intro fields' h hfields
    obtain ⟨hnode, hrest⟩ := boundedFields_cons.mp hfields
    rw [Fields.alter?] at h
    split at h
    · obtain ⟨node', hnode', rfl⟩ := Option.map_eq_some_iff.mp h
      exact boundedFields_cons.mpr ⟨hold node node' hnode' hnode, hrest⟩
    · obtain ⟨rest, hrest', rfl⟩ := Option.map_eq_some_iff.mp h
      exact boundedFields_cons.mpr ⟨hnode, ih rest hrest' hrest⟩

/-- A changed table is bounded within the node that it is put into. -/
theorem Keeps.bounded_map {change : Fields → Option Fields} (h : Keeps change) {inner : Fields}
    (hinner : BoundedFields inner) {make : Fields → Node}
    (hmake : ∀ fields, BoundedFields fields → Bounded (make fields).toValue) {node : Node}
    (hnode : (change inner).map make = some node) : Bounded node.toValue := by
  obtain ⟨fields, hfields, rfl⟩ := Option.map_eq_some_iff.mp hnode
  exact hmake fields (h inner fields hfields hinner)

theorem keeps_atPath? {change : Fields → Option Fields} (h : Keeps change) (path : List String) :
    Keeps (Fields.atPath? change path) := by
  induction path with
  | nil => exact h
  | cons key path ih =>
    refine keeps_alter? (fun node hnode => ?_) fun node node' hnode' hnode => ?_
    · exact ih.bounded_map boundedFields_nil (fun _ => boundedFields_inner.mpr) hnode
    · cases node with
      | value v => cases hnode'
      | table origin inner =>
        exact ih.bounded_map (boundedFields_inner.mp hnode)
          (fun _ => boundedFields_inner.mpr) hnode'
      | tables earlier inner =>
        obtain ⟨hearlier, hinner⟩ := boundedFields_last.mp hnode
        exact ih.bounded_map hinner (fun _ h => boundedFields_last.mpr ⟨hearlier, h⟩) hnode'

theorem keeps_begin? (key : String) : Keeps (Fields.begin? key) := by
  refine keeps_alter? (fun node hnode => ?_) fun node node' hnode' hnode => ?_
  · cases hnode
    exact boundedFields_inner.mpr boundedFields_nil
  · split at hnode'
    · next heq => cases heq
    · next inner heq =>
      cases heq
      cases hnode'
      exact boundedFields_inner.mpr (boundedFields_inner.mp hnode)
    · cases hnode'

theorem keeps_beginItem? (key : String) : Keeps (Fields.beginItem? key) := by
  refine keeps_alter? (fun node hnode => ?_) fun node node' hnode' hnode => ?_
  · cases hnode
    exact boundedFields_last.mpr ⟨List.forall_mem_nil _, boundedFields_nil⟩
  · split at hnode'
    · next heq => cases heq
    · next earlier inner heq =>
      cases heq
      cases hnode'
      obtain ⟨hearlier, hinner⟩ := boundedFields_last.mp hnode
      exact boundedFields_last.mpr ⟨List.forall_mem_append.mpr
        ⟨hearlier, List.forall_mem_singleton.mpr hinner⟩, boundedFields_nil⟩
    · cases hnode'

theorem keeps_writeAt? {v : Value} (hv : Bounded v) (path : List String) :
    Keeps (Fields.writeAt? v path) := by
  induction path with
  | nil => exact fun _ _ h => nomatch h
  | cons key path ih =>
    cases path with
    | nil =>
      refine keeps_alter? (fun node hnode => ?_) fun node node' hnode' _ => ?_
      · cases hnode
        exact hv
      · cases hnode'
    | cons next path =>
      refine keeps_alter? (fun node hnode => ?_) fun node node' hnode' hnode => ?_
      · exact ih.bounded_map boundedFields_nil (fun _ => boundedFields_inner.mpr) hnode
      · cases node with
        | value v => cases hnode'
        | table origin inner =>
          have hinner := boundedFields_inner.mp hnode
          cases origin with
          | header => cases hnode'
          | dotted => exact ih.bounded_map hinner (fun _ => boundedFields_inner.mpr) hnode'
          | path =>
            dsimp only at hnode'
            split at hnode'
            · cases hnode'
            · exact ih.bounded_map hinner (fun _ => boundedFields_inner.mpr) hnode'
        | tables earlier inner =>
          obtain ⟨hearlier, hinner⟩ := boundedFields_last.mp hnode
          dsimp only at hnode'
          split at hnode'
          · cases hnode'
          · exact ih.bounded_map hinner (fun _ h => boundedFields_last.mpr ⟨hearlier, h⟩) hnode'

/-! ## Values -/

/-- A reader that gives bounded values. -/
def Gives (read : ValueReader) : Prop :=
  ∀ cs v rest, read cs = some (v, rest) → Bounded v

theorem gives_readInteger? : Gives readInteger? := by
  have hbase : ∀ base cs v rest, readInBase? base cs = some (v, rest) → Bounded v := by
    intro base cs v rest h
    obtain ⟨⟨digits, tail⟩, -, h⟩ := Option.bind_eq_some_iff.mp h
    dsimp only at h
    split at h
    · next hle =>
      cases h
      exact .int (by simp [minInt64]) hle
    · cases h
  intro cs v rest h
  unfold readInteger? at h
  split at h
  · exact hbase _ _ _ _ h
  · exact hbase _ _ _ _ h
  · exact hbase _ _ _ _ h
  · obtain ⟨⟨digits, tail⟩, -, h⟩ := Option.bind_eq_some_iff.mp h
    obtain ⟨n, hn, h⟩ := Option.bind_eq_some_iff.mp h
    cases h
    obtain ⟨hlo, hhi⟩ := Decimal.bounds_of_readInt? hn
    exact .int hlo hhi

theorem gives_readNumeral? : Gives readNumeral? := by
  intro cs v rest h
  unfold readNumeral? at h
  rcases (Option.orElse_eq_some _ _ _).mp h with h | ⟨-, h⟩
  · obtain ⟨_, -, heq⟩ := Option.map_eq_some_iff.mp h
    cases heq
    exact .moment _
  rcases (Option.orElse_eq_some _ _ _).mp h with h | ⟨-, h⟩
  · obtain ⟨⟨x, _⟩, -, heq⟩ := Option.map_eq_some_iff.mp h
    cases heq
    exact .float x
  · exact gives_readInteger? cs v rest h

theorem gives_readScalar? : Gives readScalar? := by
  intro cs v rest h
  unfold readScalar? at h
  split at h
  · cases h
    exact .bool true
  · cases h
    exact .bool false
  · split at h
    · obtain ⟨⟨s, _⟩, -, heq⟩ := Option.map_eq_some_iff.mp h
      cases heq
      exact .text s
    · exact gives_readNumeral? _ v rest h
  · cases h

section

variable {read : ValueReader} (hread : Gives read)

include hread

theorem bounded_readItems? {fuel : ℕ} {cs rest : List Char} {items : List Value}
    (h : readItems? read fuel cs = some (items, rest)) : ∀ v ∈ items, Bounded v := by
  induction fuel generalizing cs items with
  | zero => cases h
  | succ fuel ih =>
    obtain ⟨cs', -, h⟩ := Option.bind_eq_some_iff.mp h
    dsimp only at h
    split at h
    · cases h
      exact List.forall_mem_nil _
    · obtain ⟨⟨item, tail⟩, hitem, h⟩ := Option.bind_eq_some_iff.mp h
      have hfirst := hread _ item tail hitem
      obtain ⟨tail', -, h⟩ := Option.bind_eq_some_iff.mp h
      dsimp only at h
      split at h
      · obtain ⟨⟨more, _⟩, hmore, h⟩ := Option.bind_eq_some_iff.mp h
        cases h
        exact List.forall_mem_cons.mpr ⟨hfirst, ih hmore⟩
      · cases h
        exact List.forall_mem_singleton.mpr hfirst
      · cases h

theorem bounded_readPair? {cs rest : List Char} {key : List String} {v : Value}
    (h : readPair? read cs = some ((key, v), rest)) : Bounded v := by
  obtain ⟨⟨key', tail⟩, -, h⟩ := Option.bind_eq_some_iff.mp h
  obtain ⟨tail', -, h⟩ := Option.bind_eq_some_iff.mp h
  obtain ⟨⟨w, _⟩, hw, h⟩ := Option.bind_eq_some_iff.mp h
  cases h
  exact hread _ v rest hw

theorem keeps_readFields? {fuel : ℕ} {cs rest : List Char} {fields fields' : Fields}
    (h : readFields? read fuel fields cs = some (fields', rest)) (hfields : BoundedFields fields) :
    BoundedFields fields' := by
  induction fuel generalizing cs fields with
  | zero => cases h
  | succ fuel ih =>
    obtain ⟨⟨⟨key, v⟩, tail⟩, hpair, h⟩ := Option.bind_eq_some_iff.mp h
    obtain ⟨next, hnext, h⟩ := Option.bind_eq_some_iff.mp h
    have hbounded := keeps_writeAt? (bounded_readPair? hread hpair) key fields next hnext hfields
    split at h
    · exact ih h hbounded
    · cases h
      exact hbounded
    · cases h

theorem gives_readList? : Gives (readList? read) := by
  intro cs v rest h
  obtain ⟨⟨items, _⟩, hitems, heq⟩ := Option.map_eq_some_iff.mp h
  cases heq
  exact .list (bounded_readItems? hread hitems)

theorem gives_readBraces? : Gives (readBraces? read) := by
  intro cs v rest h
  unfold readBraces? at h
  split at h
  · cases h
    exact boundedFields_nil
  · obtain ⟨⟨fields, _⟩, hfields, heq⟩ := Option.map_eq_some_iff.mp h
    cases heq
    exact keeps_readFields? hread hfields boundedFields_nil

end

theorem gives_readValue? (depth : ℕ) : Gives (readValue? depth) := by
  induction depth with
  | zero => exact gives_readScalar?
  | succ depth ih =>
    intro cs v rest h
    rw [readValue?.eq_def] at h
    dsimp only at h
    split at h
    · exact gives_readList? ih _ v rest h
    · exact gives_readBraces? ih _ v rest h
    · exact gives_readScalar? _ v rest h

/-! ## Documents -/

namespace Draft

theorem bounded_enter? {d d' : Draft} {begin? : String → Fields → Option Fields}
    {key : List String} (hbegin : ∀ name, Keeps (begin? name)) (h : d.enter? begin? key = some d')
    (hd : BoundedFields d.fields) : BoundedFields d'.fields := by
  obtain ⟨last, -, h⟩ := Option.bind_eq_some_iff.mp h
  obtain ⟨fields, hfields, h⟩ := Option.bind_eq_some_iff.mp h
  cases h
  exact keeps_atPath? (hbegin last) key.dropLast d.fields fields hfields hd

theorem bounded_write? {d d' : Draft} {key : List String} {v : Value} (hv : Bounded v)
    (h : d.write? key v = some d') (hd : BoundedFields d.fields) : BoundedFields d'.fields := by
  obtain ⟨fields, hfields, h⟩ := Option.bind_eq_some_iff.mp h
  cases h
  exact keeps_atPath? (keeps_writeAt? hv key) d.header d.fields fields hfields hd

theorem bounded_readLine? {d d' : Draft} {cs rest : List Char}
    (h : d.readLine? cs = some (d', rest)) (hd : BoundedFields d.fields) :
    BoundedFields d'.fields := by
  unfold readLine? at h
  split at h
  · obtain ⟨⟨key, tail⟩, -, h⟩ := Option.bind_eq_some_iff.mp h
    obtain ⟨_, -, h⟩ := Option.bind_eq_some_iff.mp h
    obtain ⟨_, -, h⟩ := Option.bind_eq_some_iff.mp h
    obtain ⟨next, hnext, h⟩ := Option.bind_eq_some_iff.mp h
    cases h
    exact bounded_enter? keeps_beginItem? hnext hd
  · obtain ⟨⟨key, tail⟩, -, h⟩ := Option.bind_eq_some_iff.mp h
    obtain ⟨next, hnext, h⟩ := Option.bind_eq_some_iff.mp h
    obtain ⟨_, -, h⟩ := Option.bind_eq_some_iff.mp h
    cases h
    exact bounded_enter? keeps_begin? hnext hd
  · obtain ⟨⟨⟨key, v⟩, tail⟩, hpair, h⟩ := Option.bind_eq_some_iff.mp h
    obtain ⟨next, hnext, h⟩ := Option.bind_eq_some_iff.mp h
    cases h
    exact bounded_write? (bounded_readPair? (gives_readValue? _) hpair) hnext hd

theorem bounded_readLines? {d d' : Draft} {fuel : ℕ} {cs : List Char}
    (h : d.readLines? fuel cs = some d') (hd : BoundedFields d.fields) :
    BoundedFields d'.fields := by
  induction fuel generalizing d cs with
  | zero =>
    cases cs with
    | nil =>
      cases h
      exact hd
    | cons c cs => cases h
  | succ fuel ih =>
    cases cs with
    | nil =>
      cases h
      exact hd
    | cons c cs =>
      rw [readLines?] at h
      · split at h
        · exact ih h hd
        · obtain ⟨⟨next, tail⟩, hnext, h⟩ := Option.bind_eq_some_iff.mp h
          obtain ⟨tail', -, h⟩ := Option.bind_eq_some_iff.mp h
          exact ih h (bounded_readLine? hnext hd)
      · exact List.cons_ne_nil c cs

end Draft

/-- Whatever is read has whole numbers of 64 bits only. -/
theorem bounded_read? {s : String} {v : Value} (h : read? s = some v) : Bounded v := by
  obtain ⟨d, hd, rfl⟩ := Option.map_eq_some_iff.mp h
  exact Draft.bounded_readLines? hd boundedFields_nil

end MidiRig.Toml
