import MidiRig.Document.Value
import MidiRig.Player.Definition

/-!
# Player definitions as documents

A definition is a table with the type of the player and the fields of that type. Fields have
values of their own where they are not written, and no others are taken. In a list the type comes
first and the fields follow in their order.
-/

namespace MidiRig

/-! ## Parts -/

def Cell.ofValue? (v : Value) : Option Cell := v.text?.bind fun s => (Cell.ofText s).toOption

def Cell.toValue (c : Cell) : Value := .text c.text

def Pattern.ofValue? (v : Value) : Option Pattern := v.listOf? (Value.listOf? Cell.ofValue?)

def Pattern.toValue (p : Pattern) : Value :=
  .list (p.map fun voice => .list (voice.map Cell.toValue))

/-- A value that may be left out. -/
def Value.ofOption {α : Type} (write : α → Value) : Option α → Value
  | some a => write a
  | none => .null

def Value.ofNat (n : Nat) : Value := .int n

def Value.ofFloats (xs : List Float) : Value := .list (xs.map .float)

namespace ArpeggioStyle

def name : ArpeggioStyle → String
  | up => "up"
  | down => "down"
  | both => "both"
  | chord => "chord"
  | manual => "manual"

def all : List ArpeggioStyle := [up, down, both, chord, manual]

def ofValue? (v : Value) : Option ArpeggioStyle :=
  v.text?.bind fun s => all.find? fun style => style.name == s

end ArpeggioStyle

namespace Jump

def ofValue? : Value → Option Jump
  | .list [source, target] => do return ⟨← source.word32?, ← target.word32?⟩
  | _ => none

def toValue (j : Jump) : Value := .list [.ofNat j.source, .ofNat j.target]

end Jump

namespace Meter

def fieldNames : List String := ["numerator", "denominator"]

/-- Both numbers are taken as they are, also a zero. -/
def ofValue? (v : Value) : Option Meter := do
  let fields ← v.fields? fieldNames false
  return {
    numerator := ← Value.required? fields "numerator" Value.word32?
    denominator := ← Value.required? fields "denominator" Value.word32? }

def toValue (m : Meter) : Value :=
  .table [("numerator", .ofNat m.numerator), ("denominator", .ofNat m.denominator)]

end Meter

/-! ## Definitions -/

namespace SequenceDef

def fieldNames : List String := ["patterns", "order", "tdiv", "swing", "groove", "tempo"]

def ofValue? (v : Value) : Option SequenceDef := do
  let fields ← v.fields? fieldNames true
  return {
    patterns := ← Value.field? fields "patterns" (Value.listOf? Pattern.ofValue?) default.patterns
    order := ← Value.field? fields "order" (Value.listOf? Value.int32?) default.order
    division := ← Value.field? fields "tdiv" Value.word32? default.division
    swing := ← Value.field? fields "swing" Value.float? default.swing
    groove := ← Value.field? fields "groove" (Value.listOf? Value.float?) default.groove
    tempo := ← Value.optional? fields "tempo" Value.float? }

def entries (d : SequenceDef) : List (String × Value) :=
  [("patterns", .list (d.patterns.map Pattern.toValue)), ("order", .list (d.order.map .int)),
    ("tdiv", .ofNat d.division), ("swing", .float d.swing), ("groove", .ofFloats d.groove),
    ("tempo", .ofOption .float d.tempo)]

end SequenceDef

namespace ArpeggioDef

def fieldNames : List String := ["style", "tdiv", "swing", "groove", "tempo"]

def ofValue? (v : Value) : Option ArpeggioDef := do
  let fields ← v.fields? fieldNames true
  return {
    style := ← Value.field? fields "style" ArpeggioStyle.ofValue? default.style
    division := ← Value.field? fields "tdiv" Value.word32? default.division
    swing := ← Value.field? fields "swing" Value.float? default.swing
    groove := ← Value.field? fields "groove" (Value.listOf? Value.float?) default.groove
    tempo := ← Value.optional? fields "tempo" Value.float? }

def entries (d : ArpeggioDef) : List (String × Value) :=
  [("style", .text d.style.name), ("tdiv", .ofNat d.division), ("swing", .float d.swing),
    ("groove", .ofFloats d.groove), ("tempo", .ofOption .float d.tempo)]

end ArpeggioDef

namespace LoopDef

def fieldNames : List String := ["beats", "tempo"]

def ofValue? (v : Value) : Option LoopDef := do
  let fields ← v.fields? fieldNames true
  return {
    beats := ← Value.optional? fields "beats" Value.float?
    tempo := ← Value.optional? fields "tempo" Value.float? }

def entries (d : LoopDef) : List (String × Value) :=
  [("beats", .ofOption .float d.beats), ("tempo", .ofOption .float d.tempo)]

end LoopDef

namespace TrackDef

def fieldNames : List String := ["file", "jumps", "time_signature", "tempo"]

def ofValue? (v : Value) : Option TrackDef := do
  let fields ← v.fields? fieldNames true
  return {
    file := ⟨← Value.required? fields "file" Value.text?⟩
    jumps := ← Value.field? fields "jumps" (Value.listOf? Jump.ofValue?) []
    meter := ← Value.field? fields "time_signature" Meter.ofValue? .fourFour
    tempo := ← Value.optional? fields "tempo" Value.float? }

def entries (d : TrackDef) : List (String × Value) :=
  [("file", .text d.file.text), ("jumps", .list (d.jumps.map Jump.toValue)),
    ("time_signature", d.meter.toValue), ("tempo", .ofOption .float d.tempo)]

end TrackDef

namespace PlayerDef

/-- A definition of the type that has this name. -/
def ofType? (type : String) (v : Value) : Option PlayerDef :=
  match type with
  | "sequence" => sequence <$> SequenceDef.ofValue? v
  | "arpeggio" => arpeggio <$> ArpeggioDef.ofValue? v
  | "midiloop" => loop <$> LoopDef.ofValue? v
  | "midifile" => track <$> TrackDef.ofValue? v
  | _ => none

def ofValue? : Value → Option PlayerDef
  | .table fields => do
    let type ← Value.required? fields "type" Value.text?
    ofType? type (.table (fields.filter fun field => field.1 != "type"))
  | .list (type :: rest) => do ofType? (← type.text?) (.list rest)
  | _ => none

def toValue : PlayerDef → Value
  | sequence d => .table (("type", .text "sequence") :: d.entries)
  | arpeggio d => .table (("type", .text "arpeggio") :: d.entries)
  | loop d => .table (("type", .text "midiloop") :: d.entries)
  | track d => .table (("type", .text "midifile") :: d.entries)

end PlayerDef

end MidiRig
