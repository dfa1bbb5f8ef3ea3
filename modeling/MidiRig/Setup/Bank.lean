import MidiRig.Data.Dict
import MidiRig.Document.Format
import MidiRig.Rule.Spec
import MidiRig.Setup.Definition

/-!
# Banks and patches

A patch is a setup to choose: rules and players. A bank holds patches by name, the names that all
their ranges may use, and rules that come with every patch. Saving a bank writes all of it, and
what is loaded again is equal to it.
-/

namespace MidiRig

/-! ## Rules -/

namespace Entry

/-- Integers of 64 bits stay integers, larger ones become doubles. -/
def ofValue? : Value → Option Entry
  | .int n => some (if ((Value.int n).int64?).isSome then int n else float (Float.ofInt n))
  | .float x => some (float x)
  | .text s => some (text s)
  | _ => none

def toValue : Entry → Value
  | int n => .int n
  | float x => .float x
  | text s => .text s

end Entry

namespace RuleSpec

def fieldNames : List String :=
  ["type", "chan", "num", "val", "log", "lsb", "counter", "inc", "fluidsetting", "play", "tempo",
    "record", "swing", "groove", "tap", "arpeggio", "loop", "fx"]

def ofValue? (v : Value) : Option RuleSpec := do
  let fields ← v.fields? fieldNames true
  let entry (name : String) := Value.optional? fields name Entry.ofValue?
  let text (name : String) := Value.optional? fields name Value.text?
  return {
    type := ← Value.required? fields "type" Value.text?
    channel := ← entry "chan"
    number := ← entry "num"
    value := ← entry "val"
    log := ← Value.optional? fields "log" Value.float?
    lowByte := ← Value.optional? fields "lsb" Value.int32?
    counter := ← text "counter"
    increment := ← Value.optional? fields "inc" Value.float?
    setting := ← text "fluidsetting"
    play := ← text "play"
    tempo := ← text "tempo"
    record := ← text "record"
    swing := ← text "swing"
    groove := ← text "groove"
    tap := ← text "tap"
    arpeggio := ← text "arpeggio"
    loop := ← text "loop"
    port := ← text "fx" }

/-- A field, unless it is left out. -/
def entryOf {α : Type} (name : String) (write : α → Value) (field : Option α) :
    List (String × Value) :=
  (field.map fun a => (name, write a)).toList

def toValue (s : RuleSpec) : Value :=
  .table (("type", .text s.type) :: (
    entryOf "chan" Entry.toValue s.channel ++ entryOf "num" Entry.toValue s.number ++
    entryOf "val" Entry.toValue s.value ++ entryOf "log" .float s.log ++
    entryOf "lsb" .int s.lowByte ++ entryOf "counter" .text s.counter ++
    entryOf "inc" .float s.increment ++ entryOf "fluidsetting" .text s.setting ++
    entryOf "play" .text s.play ++ entryOf "tempo" .text s.tempo ++
    entryOf "record" .text s.record ++ entryOf "swing" .text s.swing ++
    entryOf "groove" .text s.groove ++ entryOf "tap" .text s.tap ++
    entryOf "arpeggio" .text s.arpeggio ++ entryOf "loop" .text s.loop ++
    entryOf "fx" .text s.port))

end RuleSpec

/-! ## Dictionaries -/

namespace Dict

/-- A table as a dictionary. -/
def ofValue? {α : Type} (read : Value → Option α) (v : Value) : Option (Dict α) :=
  (v.tableOf? read).map ofList

def toValue {α : Type} (write : α → Value) (d : Dict α) : Value :=
  .table (d.entries.map fun entry => (entry.1, write entry.2))

end Dict

/-! ## Patches and banks -/

structure Patch where
  rules : List RuleSpec
  players : Dict PlayerDef
  deriving BEq, Repr

namespace Patch

def fieldNames : List String := ["rules", "players"]

def ofValue? (v : Value) : Option Patch := do
  let fields ← v.fields? fieldNames true
  return {
    rules := ← Value.field? fields "rules" (Value.listOf? RuleSpec.ofValue?) []
    players := ← Value.field? fields "players" (Dict.ofValue? PlayerDef.ofValue?) .empty }

def toValue (p : Patch) : Value :=
  .table [("rules", .list (p.rules.map RuleSpec.toValue)),
    ("players", p.players.toValue PlayerDef.toValue)]

end Patch

structure Bank where
  names : Dict String
  /-- Rules that come with every patch. -/
  rules : List RuleSpec
  patches : Dict Patch
  deriving BEq, Repr

namespace Bank

def fieldNames : List String := ["names", "rules", "patches"]

def ofValue? (v : Value) : Option Bank := do
  let fields ← v.fields? fieldNames true
  return {
    names := ← Value.field? fields "names" (Dict.ofValue? Value.text?) .empty
    rules := ← Value.field? fields "rules" (Value.listOf? RuleSpec.ofValue?) []
    patches := ← Value.field? fields "patches" (Dict.ofValue? Patch.ofValue?) .empty }

def entries (b : Bank) : List (String × Value) :=
  [("names", b.names.toValue .text), ("rules", .list (b.rules.map RuleSpec.toValue)),
    ("patches", b.patches.toValue Patch.toValue)]

def toValue (b : Bank) : Value := .table b.entries

/-- The patch of a name. -/
def patch (b : Bank) (name : String) : Except Fault Patch :=
  match b.patches.get? name with
  | some p => .ok p
  | none => .error (.setup (.noPatch name))

/-- Reads the text of a bank. -/
def load (f : Format) (s : String) : Except Fault Bank :=
  match (f.read? s).bind ofValue? with
  | some b => .ok b
  | none => .error .document

/-- The text of a bank, if the format has one for it. -/
def save? (f : Format) (b : Bank) : Option String := f.write? b.entries

/-- Reads the text of a bank file. -/
def ofText (s : String) : Except Fault Bank := load Toml.format s

/-- The text of a bank file. -/
def text (b : Bank) : String := (b.save? Toml.format).getD ""

end Bank

end MidiRig
