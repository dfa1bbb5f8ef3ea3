import MidiRig.Document.Toml.Quoted
import MidiRig.Document.Value
import MidiRig.Number.Shortest

/-!
# Writing TOML

The fields of the outermost table come first, then a section for each table in it. Lists and the
tables within are written in one line. Fields without a value are left out. A whole number that
is a double keeps a point, so that it is read as a double again.
-/

namespace MidiRig.Toml

/-- A double; the numbers that have a name are written by it. -/
def writeFloat (x : Float) : String :=
  if x.isNaN then "nan"
  else if Binary64.isWhole x then Shortest.text x ++ ".0"
  else Shortest.text x

/-- A part of a key, in quotes where it needs them. -/
def writeKey (key : String) : String :=
  if !key.isEmpty && key.toList.all isBare then key else quote key

/-- Joins a key and its value. -/
def writeField (key text : String) : String := writeKey key ++ " = " ++ text

mutual

/-- A value in one line; nothing for one that is left out. -/
def writeValue? : Value → Option String
  | .null => none
  | .bool b => some (if b then "true" else "false")
  | .int n => some (toString n)
  | .float x => some (writeFloat x)
  | .text s => some (quote s)
  | .moment s => some s
  | .list items => some ("[" ++ ", ".intercalate (writeItems items) ++ "]")
  | .table entries => some ("\x7b " ++ ", ".intercalate (writeEntries entries) ++ " \x7d")

def writeItems : List Value → List String
  | [] => []
  | v :: rest => (writeValue? v).toList ++ writeItems rest

/-- The fields of a table. -/
def writeEntries : List (String × Value) → List String
  | [] => []
  | (key, v) :: rest =>
    ((writeValue? v).map (writeField key)).toList ++ writeEntries rest

end

/-- The header of a section and its fields. -/
def writeSection (key : String) (entries : List (String × Value)) : List String :=
  ("[" ++ writeKey key ++ "]") :: writeEntries entries

/-- The fields of a table that are not tables themselves, and its sections. -/
def split : List (String × Value) → List (String × Value) × List (List String)
  | [] => ([], [])
  | (key, .table inner) :: rest =>
    let (fields, sections) := split rest
    (fields, writeSection key inner :: sections)
  | entry :: rest =>
    let (fields, sections) := split rest
    (entry :: fields, sections)

/-- The lines of a document; an empty line stands between its parts. -/
def write (entries : List (String × Value)) : String :=
  let (fields, sections) := split entries
  let parts := (writeEntries fields :: sections).filter fun part => !part.isEmpty
  "\n".intercalate (parts.map fun part => String.join (part.map fun line => line ++ "\n"))

end MidiRig.Toml
