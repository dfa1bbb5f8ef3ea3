import MidiRig.Document.Value

/-!
# Tables under construction

The statements of a TOML text fill a tree of tables. A table is written once: by a header, or by
the dotted keys of one table; a table that only stands in the path of a header may still get a
header of its own. The last item of an array of tables is the one that is being filled.
-/

namespace MidiRig.Toml

/-- How a table has come about. -/
inductive Origin where
  | header
  /-- By standing in the path of a header. -/
  | path
  /-- By a dotted key. -/
  | dotted
  deriving DecidableEq, Repr

inductive Node where
  | value (v : Value)
  | table (origin : Origin) (fields : List (String × Node))
  /-- The items of an array of tables, and the fields of its last one. -/
  | tables (earlier : List Value) (fields : List (String × Node))
  deriving Repr

abbrev Fields := List (String × Node)

mutual

def Node.toValue : Node → Value
  | .value v => v
  | .table _ fields => .table (valuesOf fields)
  | .tables earlier fields => .list (earlier ++ [.table (valuesOf fields)])

/-- Every field with its value. -/
def valuesOf : List (String × Node) → List (String × Value)
  | [] => []
  | (key, node) :: rest => (key, node.toValue) :: valuesOf rest

end

namespace Fields

/-- Changes the field of a name, or adds it behind the others; `change` gets what is there. -/
def alter? (key : String) (change : Option Node → Option Node) : Fields → Option Fields
  | [] => (change none).map fun node => [(key, node)]
  | (name, node) :: rest =>
    if name == key then (change (some node)).map fun node => (name, node) :: rest
    else (alter? key change rest).map fun rest => (name, node) :: rest

/-- Changes the table at the end of the path of a header. -/
def atPath? (change : Fields → Option Fields) : List String → Fields → Option Fields
  | [], fields => change fields
  | key :: path, fields =>
    fields.alter? key fun
      | none => (atPath? change path []).map (.table .path)
      | some (.table origin inner) => (atPath? change path inner).map (.table origin)
      | some (.tables earlier inner) => (atPath? change path inner).map (.tables earlier)
      | some (.value _) => none

/-- Begins the table of a header. -/
def begin? (key : String) (fields : Fields) : Option Fields :=
  fields.alter? key fun
    | none => some (.table .header [])
    | some (.table .path inner) => some (.table .header inner)
    | some _ => none

/-- Begins the next item of an array of tables. -/
def beginItem? (key : String) (fields : Fields) : Option Fields :=
  fields.alter? key fun
    | none => some (.tables [] [])
    | some (.tables earlier inner) => some (.tables (earlier ++ [.table (valuesOf inner)]) [])
    | some _ => none

/-- Writes a field that is not there yet. -/
def write? (key : String) (v : Value) (fields : Fields) : Option Fields :=
  fields.alter? key fun
    | none => some (.value v)
    | some _ => none

/-- Writes a field by a dotted key. The table that gets the field must have been made by dotted
keys; the tables on the way to it must at least have no header of their own. -/
def writeAt? (v : Value) : List String → Fields → Option Fields
  | [], _ => none
  | [key], fields => fields.write? key v
  | key :: path, fields =>
    fields.alter? key fun
      | none => (writeAt? v path []).map (.table .dotted)
      | some (.table .dotted inner) => (writeAt? v path inner).map (.table .dotted)
      | some (.table .path inner) =>
        if path.length = 1 then none else (writeAt? v path inner).map (.table .path)
      | some (.tables earlier inner) =>
        if path.length = 1 then none else (writeAt? v path inner).map (.tables earlier)
      | some _ => none

end Fields

end MidiRig.Toml
