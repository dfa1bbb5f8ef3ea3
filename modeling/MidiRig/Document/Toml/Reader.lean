import MidiRig.Document.Toml.Quoted
import MidiRig.Document.Toml.Scalar
import MidiRig.Document.Toml.Tree

/-!
# Reading TOML

A text is a sequence of lines: `key = value`, the header of a table or of an item of an array of
tables, comments and empty lines. Lists may run over several lines, tables in braces may not.
-/

namespace MidiRig.Toml

/-- Lists and tables in braces are nested less deep than this, and keys have fewer parts. -/
def depthLimit : Nat := 80

/-! ## Keys -/

/-- One part of a key. -/
def readPart? (cs : List Char) : Option (String × List Char) :=
  match cs with
  | '"' :: rest => (readBasic? rest).map fun (text, rest) => (String.ofList text, rest)
  | '\'' :: rest => (readLiteral? rest).map fun (text, rest) => (String.ofList text, rest)
  | _ =>
    let part := cs.takeWhile isBare
    if part.isEmpty then none else some (String.ofList part, cs.dropWhile isBare)

/-- The parts of a key, with blanks around them, up to a number of parts. -/
def readParts? : (limit : Nat) → List Char → Option (List String × List Char)
  | 0, _ => none
  | limit + 1, cs => do
    let (part, rest) ← readPart? (skipSpaces cs)
    match skipSpaces rest with
    | '.' :: rest =>
      let (parts, rest) ← readParts? limit rest
      return (part :: parts, rest)
    | rest => return ([part], rest)

def readKey? (cs : List Char) : Option (List String × List Char) :=
  readParts? (depthLimit - 1) cs

/-! ## Values -/

/-- A reader of one value. -/
abbrev ValueReader := List Char → Option (Value × List Char)

/-- The items of a list after its opening bracket or a comma, at most `fuel` of them. -/
def readItems? (read : ValueReader) : (fuel : Nat) → List Char → Option (List Value × List Char)
  | 0, _ => none
  | fuel + 1, cs => do
    match ← skipFiller false cs with
    | ']' :: rest => return ([], rest)
    | cs =>
      let (item, rest) ← read cs
      match ← skipFiller false rest with
      | ',' :: rest =>
        let (items, rest) ← readItems? read fuel rest
        return (item :: items, rest)
      | ']' :: rest => return ([item], rest)
      | _ => none

/-- A key, an equals sign and a value. -/
def readPair? (read : ValueReader) (cs : List Char) :
    Option ((List String × Value) × List Char) := do
  let (key, rest) ← readKey? cs
  let (v, rest) ← read (skipSpaces (← expect? '=' rest))
  return ((key, v), rest)

/-- The fields of a table in braces after its opening brace or a comma, at most `fuel` of them,
added to those before. -/
def readFields? (read : ValueReader) :
    (fuel : Nat) → Fields → List Char → Option (Fields × List Char)
  | 0, _, _ => none
  | fuel + 1, fields, cs => do
    let ((key, v), rest) ← readPair? read cs
    let fields ← fields.writeAt? v key
    match skipSpaces rest with
    | ',' :: rest => readFields? read fuel fields rest
    | '}' :: rest => return (fields, rest)
    | _ => none

/-- A table in braces after its opening brace. -/
def readBraces? (read : ValueReader) (cs : List Char) : Option (Value × List Char) :=
  match skipSpaces cs with
  | '}' :: rest => some (.table [], rest)
  | cs => (readFields? read cs.length [] cs).map fun (fields, rest) =>
      (.table (valuesOf fields), rest)

/-- A list after its opening bracket. -/
def readList? (read : ValueReader) (cs : List Char) : Option (Value × List Char) :=
  (readItems? read (cs.length + 1) cs).map fun (items, rest) => (.list items, rest)

/-- A value that is neither a list nor a table. -/
def readScalar? (cs : List Char) : Option (Value × List Char) :=
  match cs with
  | 't' :: 'r' :: 'u' :: 'e' :: rest => some (.bool true, rest)
  | 'f' :: 'a' :: 'l' :: 's' :: 'e' :: rest => some (.bool false, rest)
  | c :: _ =>
    if c == '"' || c == '\'' then (readQuoted? cs).map fun (s, rest) => (.text s, rest)
    else readNumeral? cs
  | [] => none

/-- A value in which lists and tables in braces are nested at most `depth` deep. -/
def readValue? : (depth : Nat) → ValueReader
  | 0, cs => readScalar? cs
  | depth + 1, cs =>
    match cs with
    | '[' :: rest => readList? (readValue? depth) rest
    | '\x7b' :: rest => readBraces? (readValue? depth) rest
    | cs => readScalar? cs

/-! ## Lines -/

/-- What has been read: the tables, and the header under which lines are read. -/
structure Draft where
  fields : Fields
  header : List String

namespace Draft

def start : Draft := ⟨[], []⟩

/-- A header: the tables in its path, and then the last of them. -/
def enter? (d : Draft) (begin? : String → Fields → Option Fields) (key : List String) :
    Option Draft := do
  let last ← key.getLast?
  let fields ← d.fields.atPath? (begin? last) key.dropLast
  return ⟨fields, key⟩

/-- A field under the present header. -/
def write? (d : Draft) (key : List String) (v : Value) : Option Draft := do
  let fields ← d.fields.atPath? (fun inner => inner.writeAt? v key) d.header
  return { d with fields }

/-- Reads one line that is not empty, up to what may follow at its end. -/
def readLine? (d : Draft) (cs : List Char) : Option (Draft × List Char) :=
  match cs with
  | '[' :: '[' :: rest => do
    let (key, rest) ← readKey? rest
    let rest ← expect? ']' (← expect? ']' rest)
    return (← d.enter? Fields.beginItem? key, rest)
  | '[' :: rest => do
    let (key, rest) ← readKey? rest
    return (← d.enter? Fields.begin? key, ← expect? ']' rest)
  | cs => do
    let ((key, v), rest) ← readPair? (readValue? (depthLimit - 1)) cs
    return (← d.write? key v, rest)

/-- Reads at most `fuel` lines, up to the end. -/
def readLines? : (fuel : Nat) → Draft → List Char → Option Draft
  | _, d, [] => some d
  | 0, _, _ => none
  | fuel + 1, d, cs =>
    match endLine? false cs with
    | some rest => readLines? fuel d rest
    | none => do
      let (d, rest) ← d.readLine? (skipSpaces cs)
      readLines? fuel d (← endLine? false rest)

end Draft

/-- Reads a TOML text as a table. A byte order mark in front does not count. -/
def read? (s : String) : Option Value :=
  let cs := match s.toList with
    | '\uFEFF' :: rest => rest
    | cs => cs
  (Draft.start.readLines? cs.length cs).map fun d => .table (valuesOf d.fields)

end MidiRig.Toml
