/-!
# Dictionaries

A finite map from names to values, kept in the order of the names with each name once. Two
dictionaries with the same content are therefore equal, in whatever order they were filled.
-/

namespace MidiRig

/-- Puts an entry in its place, in place of one with the same name. -/
def insertEntry {α : Type} (name : String) (value : α) :
    List (String × α) → List (String × α)
  | [] => [(name, value)]
  | entry :: rest =>
    if name < entry.1 then (name, value) :: entry :: rest
    else if entry.1 < name then entry :: insertEntry name value rest
    else (name, value) :: rest

/-- Names strictly in order. -/
def InOrder {α : Type} (entries : List (String × α)) : Prop :=
  entries.Pairwise fun a b => a.1 < b.1

theorem mem_insertEntry {α : Type} {name : String} {value : α} {entries : List (String × α)}
    {entry : String × α} (h : entry ∈ insertEntry name value entries) :
    entry = (name, value) ∨ entry ∈ entries := by
  induction entries with
  | nil => simpa [insertEntry] using h
  | cons first rest ih =>
    simp only [insertEntry] at h
    split at h
    · simpa using h
    · split at h
      · rcases List.mem_cons.1 h with h | h
        · exact .inr (by simp [h])
        · exact (ih h).imp id fun h => by simp [h]
      · rcases List.mem_cons.1 h with h | h
        · exact .inl h
        · exact .inr (by simp [h])

theorem inOrder_insertEntry {α : Type} (name : String) (value : α) {entries : List (String × α)}
    (h : InOrder entries) : InOrder (insertEntry name value entries) := by
  induction entries with
  | nil => simp [insertEntry, InOrder]
  | cons first rest ih =>
    obtain ⟨below, inner⟩ := List.pairwise_cons.1 h
    simp only [insertEntry]
    split
    · rename_i lt
      refine List.pairwise_cons.2 ⟨fun entry mem => ?_, h⟩
      rcases List.mem_cons.1 mem with rfl | mem
      · exact lt
      · exact String.lt_trans lt (below entry mem)
    · split
      · rename_i lt
        refine List.pairwise_cons.2 ⟨fun entry mem => ?_, ih inner⟩
        rcases mem_insertEntry mem with rfl | mem
        · exact lt
        · exact below entry mem
      · rename_i notLt notGt
        have same : name = first.1 :=
          String.le_antisymm (String.not_lt.1 notGt) (String.not_lt.1 notLt)
        exact List.pairwise_cons.2 ⟨fun entry mem => same ▸ below entry mem, inner⟩

theorem lookup_insertEntry_self {α : Type} (name : String) (value : α)
    (entries : List (String × α)) : (insertEntry name value entries).lookup name = some value := by
  induction entries with
  | nil => exact List.lookup_cons_self
  | cons first rest ih =>
    simp only [insertEntry]
    split
    · exact List.lookup_cons_self
    · split
      · rename_i above
        have other : (name == first.1) = false :=
          beq_eq_false_iff_ne.2 fun same => String.lt_irrefl name (by rwa [← same] at above)
        rw [List.lookup_cons, other]
        exact ih
      · exact List.lookup_cons_self

theorem lookup_insertEntry_of_ne {α : Type} {name other : String} (ne : other ≠ name) (value : α)
    (entries : List (String × α)) :
    (insertEntry name value entries).lookup other = entries.lookup other := by
  have miss : (other == name) = false := beq_eq_false_iff_ne.2 ne
  induction entries with
  | nil => rw [insertEntry, List.lookup_cons, miss]
  | cons first rest ih =>
    simp only [insertEntry]
    split
    · rw [List.lookup_cons, miss]
    · split
      · rw [List.lookup_cons, List.lookup_cons, ih]
      · rename_i notLt notGt
        have same : name = first.1 :=
          String.le_antisymm (String.not_lt.1 notGt) (String.not_lt.1 notLt)
        rw [List.lookup_cons, List.lookup_cons, ← same, miss]

structure Dict (α : Type) where
  entries : List (String × α)
  inOrder : InOrder entries

namespace Dict

variable {α : Type}

def empty : Dict α := ⟨[], List.Pairwise.nil⟩

instance : Inhabited (Dict α) := ⟨empty⟩

instance [BEq α] : BEq (Dict α) := ⟨fun a b => a.entries == b.entries⟩

instance [Repr α] : Repr (Dict α) := ⟨fun d prec => reprPrec d.entries prec⟩

def insert (d : Dict α) (name : String) (value : α) : Dict α :=
  ⟨insertEntry name value d.entries, inOrder_insertEntry name value d.inOrder⟩

/-- Entries in order of writing; a later one replaces an earlier one of the same name. -/
def ofList (entries : List (String × α)) : Dict α :=
  entries.foldl (fun d entry => d.insert entry.1 entry.2) empty

def toList (d : Dict α) : List (String × α) := d.entries

def get? (d : Dict α) (name : String) : Option α := d.entries.lookup name

@[simp]
theorem get?_insert_self (d : Dict α) (name : String) (value : α) :
    (d.insert name value).get? name = some value :=
  lookup_insertEntry_self name value d.entries

theorem get?_insert_of_ne (d : Dict α) {name other : String} (ne : other ≠ name) (value : α) :
    (d.insert name value).get? other = d.get? other :=
  lookup_insertEntry_of_ne ne value d.entries

def names (d : Dict α) : List String := d.entries.map (·.1)

def isEmpty (d : Dict α) : Bool := d.entries.isEmpty

end Dict

end MidiRig
