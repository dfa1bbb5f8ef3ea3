import Mathlib.Data.Int.Notation
import Mathlib.Data.List.Nodup
import MidiRig.Document.Format

/-!
# Documents that are kept

What a format has to do for the documents that are stored in it (`Format.Faithful`). A document can
be stored if all of it has a text: whole numbers of 64 bits, doubles that are numbers, tables with
each key once, and no lists with gaps (`Storable`). What is read again has the same scalars and
lists, and tables with the same fields, in any order and without those that have no value (`Kept`).
The fields of a table that was kept are then found by their names.
-/

namespace MidiRig

open Binary64

/-! ## Values that can be stored -/

/-- Values with a text of their own, in which lists and tables are nested at most so deep. A field
of a table may be without a value. -/
inductive Storable : ℕ → Value → Prop
  | bool (k : ℕ) (b : Bool) : Storable k (.bool b)
  | int {n : ℤ} (k : ℕ) (hlo : minInt64 ≤ n) (hhi : n ≤ maxInt64) : Storable k (.int n)
  | float {x : Float} (k : ℕ) (hx : x.isNaN = false) : Storable k (.float x)
  | text (k : ℕ) (s : String) : Storable k (.text s)
  | list {k : ℕ} {items : List Value} (hitems : ∀ v ∈ items, Storable k v) :
    Storable (k + 1) (.list items)
  | table {k : ℕ} {entries : List (String × Value)}
    (hentries : ∀ entry ∈ entries, entry.2 ≠ .null → Storable k entry.2)
    (hkeys : (entries.map (·.1)).Nodup) : Storable (k + 1) (.table entries)

theorem Storable.ne_null {k : ℕ} {v : Value} (h : Storable k v) : v ≠ .null := by
  rintro rfl
  cases h

theorem Storable.mono {k l : ℕ} {v : Value} (h : Storable k v) (hle : k ≤ l) : Storable l v := by
  induction h generalizing l with
  | bool _ b => exact .bool l b
  | int _ hlo hhi => exact .int l hlo hhi
  | float _ hx => exact .float l hx
  | text _ s => exact .text l s
  | list _ ih =>
    obtain ⟨l, rfl⟩ : ∃ n, l = n + 1 := ⟨l - 1, by omega⟩
    exact .list fun v hv => ih v hv (Nat.le_of_succ_le_succ hle)
  | table _ hkeys ih =>
    obtain ⟨l, rfl⟩ : ∃ n, l = n + 1 := ⟨l - 1, by omega⟩
    exact .table (fun entry hentry hv => ih entry hentry hv (Nat.le_of_succ_le_succ hle)) hkeys

/-- The whole numbers in the value fit in 64 bits. -/
inductive Bounded : Value → Prop
  | null : Bounded .null
  | bool (b : Bool) : Bounded (.bool b)
  | int {n : ℤ} (hlo : minInt64 ≤ n) (hhi : n ≤ maxInt64) : Bounded (.int n)
  | float (x : Float) : Bounded (.float x)
  | text (s : String) : Bounded (.text s)
  | moment (s : String) : Bounded (.moment s)
  | list {items : List Value} (hitems : ∀ v ∈ items, Bounded v) : Bounded (.list items)
  | table {entries : List (String × Value)} (hentries : ∀ entry ∈ entries, Bounded entry.2) :
    Bounded (.table entries)

/-! ## What is kept of a value -/

mutual

/-- The second value is what is kept of the first. -/
inductive Kept : Value → Value → Prop
  | bool (b : Bool) : Kept (.bool b) (.bool b)
  | int (n : ℤ) : Kept (.int n) (.int n)
  | float (x : Float) : Kept (.float x) (.float x)
  | text (s : String) : Kept (.text s) (.text s)
  | list {items kept : List Value} (hitems : KeptItems items kept) : Kept (.list items) (.list kept)
  | table {entries kept fields : List (String × Value)} (hentries : KeptEntries entries kept)
    (hperm : kept.Perm fields) : Kept (.table entries) (.table fields)

/-- Items one by one. -/
inductive KeptItems : List Value → List Value → Prop
  | nil : KeptItems [] []
  | cons {v w : Value} {items kept : List Value} (hv : Kept v w) (hitems : KeptItems items kept) :
    KeptItems (v :: items) (w :: kept)

/-- Entries one by one, those without a value left out. -/
inductive KeptEntries : List (String × Value) → List (String × Value) → Prop
  | nil : KeptEntries [] []
  | absent {key : String} {entries kept : List (String × Value)}
    (hentries : KeptEntries entries kept) : KeptEntries ((key, .null) :: entries) kept
  | cons {key : String} {v w : Value} {entries kept : List (String × Value)} (hv : Kept v w)
    (hentries : KeptEntries entries kept) :
    KeptEntries ((key, v) :: entries) ((key, w) :: kept)

end

/-- What is relied on of a format: it writes all documents that can be stored and are nested at
most so deep, what it writes is read as what is kept of them, and whole numbers that it reads have
64 bits. -/
structure Format.Faithful (f : Format) (depth : ℕ) : Prop where
  writes : ∀ {entries}, Storable depth (.table entries) → ∃ s, f.write? entries = some s
  reads : ∀ {entries s}, Storable depth (.table entries) → f.write? entries = some s →
    ∃ v, f.read? s = some v ∧ Kept (.table entries) v
  bounded : ∀ {s v}, f.read? s = some v → Bounded v

theorem Format.Faithful.mono {f : Format} {k l : ℕ} (hf : f.Faithful l) (hle : k ≤ l) :
    f.Faithful k where
  writes h := hf.writes (h.mono hle)
  reads h := hf.reads (h.mono hle)
  bounded := hf.bounded

/-- A document that can be stored is written, and what is kept of it is read again. -/
theorem Format.Faithful.exists_read {f : Format} {k : ℕ} (hf : f.Faithful k)
    {entries : List (String × Value)} (h : Storable k (.table entries)) :
    ∃ s v, f.write? entries = some s ∧ f.read? s = some v ∧ Kept (.table entries) v := by
  obtain ⟨s, hs⟩ := hf.writes h
  obtain ⟨v, hv, hkept⟩ := hf.reads h hs
  exact ⟨s, v, hs, hv, hkept⟩

theorem Kept.ne_null {v w : Value} (h : Kept v w) : v ≠ .null ∧ w ≠ .null := by
  cases h <;> exact ⟨nofun, nofun⟩

/-! ## The fields of a table -/

namespace KeptEntries

variable {entries kept : List (String × Value)}

theorem keys (h : KeptEntries entries kept) :
    (kept.map (·.1)).Sublist (entries.map (·.1)) := by
  induction entries generalizing kept with
  | nil =>
    cases h
    exact .slnil
  | cons entry entries ih =>
    cases h with
    | absent h => exact (ih h).cons _
    | cons _ h => exact (ih h).cons_cons _

theorem exists_kept (h : KeptEntries entries kept) {name : String} {v : Value}
    (hmem : (name, v) ∈ entries) (hv : v ≠ .null) : ∃ w, (name, w) ∈ kept ∧ Kept v w := by
  induction entries generalizing kept with
  | nil => cases hmem
  | cons entry entries ih =>
    cases h with
    | absent h =>
      rcases List.mem_cons.mp hmem with heq | hmem
      · exact absurd (congrArg Prod.snd heq) hv
      · exact ih h hmem
    | @cons key u w _ kept hu h =>
      rcases List.mem_cons.mp hmem with heq | hmem
      · cases heq
        exact ⟨w, List.mem_cons_self, hu⟩
      · obtain ⟨w, hw, hkept⟩ := ih h hmem
        exact ⟨w, List.mem_cons_of_mem _ hw, hkept⟩

theorem exists_entry (h : KeptEntries entries kept) {name : String} {w : Value}
    (hmem : (name, w) ∈ kept) : ∃ v, (name, v) ∈ entries ∧ Kept v w := by
  induction entries generalizing kept with
  | nil =>
    cases h
    cases hmem
  | cons entry entries ih =>
    have hrest : ∀ {kept}, KeptEntries entries kept → (name, w) ∈ kept →
        ∃ v, (name, v) ∈ entry :: entries ∧ Kept v w := fun h hmem => by
      obtain ⟨v, hv, hkept⟩ := ih h hmem
      exact ⟨v, List.mem_cons_of_mem _ hv, hkept⟩
    cases h with
    | absent h => exact hrest h hmem
    | @cons key u _ _ _ hu h =>
      rcases List.mem_cons.mp hmem with heq | hmem
      · cases heq
        exact ⟨u, List.mem_cons_self, hu⟩
      · exact hrest h hmem

end KeptEntries

/-- With each key once, a field is found wherever it stands. -/
theorem lookup_eq_some_of_mem {α : Type} {fields : List (String × α)}
    (hkeys : (fields.map (·.1)).Nodup) {name : String} {a : α} (h : (name, a) ∈ fields) :
    fields.lookup name = some a := by
  obtain ⟨before, after, rfl⟩ := List.append_of_mem h
  rw [List.map_append, List.map_cons] at hkeys
  refine List.lookup_eq_some_iff.mpr ⟨before, after, rfl, fun field hfield => ?_⟩
  have hother : name ∉ before.map (·.1) := fun hmem =>
    List.disjoint_of_nodup_append hkeys hmem List.mem_cons_self
  exact bne_iff_ne.mpr fun heq => hother (heq ▸ List.mem_map_of_mem hfield)

theorem mem_of_lookup {α : Type} {fields : List (String × α)} {name : String} {a : α}
    (h : fields.lookup name = some a) : (name, a) ∈ fields := by
  obtain ⟨before, after, rfl, -⟩ := List.lookup_eq_some_iff.mp h
  exact List.mem_append_right before List.mem_cons_self

namespace Kept

variable {entries fields : List (String × Value)} (h : Kept (.table entries) (.table fields))

include h

theorem keys_subset : fields.map (·.1) ⊆ entries.map (·.1) := by
  cases h with
  | table hentries hperm =>
    exact fun name hname => hentries.keys.subset ((hperm.map _).mem_iff.mpr hname)

/-- The fields of a structure that was written. -/
theorem fields?_eq {known : List String} (hknown : entries.map (·.1) ⊆ known) (closed : Bool) :
    (Value.table fields).fields? known closed = some fields := by
  have hall : fields.all (fun field => known.contains field.1) = true :=
    List.all_eq_true.mpr fun field hfield => List.contains_iff_mem.mpr
      (hknown (h.keys_subset (List.mem_map_of_mem hfield)))
  rw [Value.fields?, hall, Bool.not_true, Bool.and_false, if_neg Bool.false_ne_true]

variable (hkeys : (entries.map (·.1)).Nodup) {name : String}

include hkeys

theorem nodup_keys : (fields.map (·.1)).Nodup := by
  cases h with
  | table hentries hperm => exact (hperm.map _).nodup_iff.mp (hkeys.sublist hentries.keys)

theorem lookup_eq {v : Value} (hlookup : entries.lookup name = some v) (hv : v ≠ .null) :
    ∃ w, fields.lookup name = some w ∧ Kept v w := by
  have hkeys' := h.nodup_keys hkeys
  cases h with
  | table hentries hperm =>
    obtain ⟨w, hw, hkept⟩ := hentries.exists_kept (mem_of_lookup hlookup) hv
    exact ⟨w, lookup_eq_some_of_mem hkeys' (hperm.mem_iff.mp hw), hkept⟩

/-- A field without a value is not found again. -/
theorem lookup_null (hlookup : entries.lookup name = some .null) : fields.lookup name = none := by
  cases h with
  | table hentries hperm =>
    cases hfound : fields.lookup name with
    | none => rfl
    | some w =>
      obtain ⟨v, hv, hkept⟩ := hentries.exists_entry (hperm.mem_iff.mpr (mem_of_lookup hfound))
      rw [lookup_eq_some_of_mem hkeys hv] at hlookup
      exact absurd (Option.some_inj.mp hlookup) hkept.ne_null.1

end Kept

end MidiRig
