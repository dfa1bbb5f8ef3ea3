import MidiRig.Config
import MidiRig.Document.Format

/-!
# Configuration files

Every setting has a value of its own where it is not written, and settings that are not known are
passed over. The settings of a text must lie within their ranges.
-/

namespace MidiRig

namespace SequencerConfig

def fieldNames : List String := ["ticks_per_second", "seq_lag", "default_tempo"]

def ofValue? (v : Value) : Option SequencerConfig := do
  let fields ← v.fields? fieldNames false
  return {
    ticksPerSecond := ← Value.field? fields "ticks_per_second" Value.float? default.ticksPerSecond
    lag := ← Value.field? fields "seq_lag" Value.word64? default.lag
    defaultTempo := ← Value.field? fields "default_tempo" Value.float? default.defaultTempo }

def toValue (c : SequencerConfig) : Value :=
  .table [("ticks_per_second", .float c.ticksPerSecond), ("seq_lag", .int c.lag),
    ("default_tempo", .float c.defaultTempo)]

end SequencerConfig

namespace RouterConfig

def fieldNames : List String := ["native_routing", "tap_ratio", "tap_timeout_ticks"]

def ofValue? (v : Value) : Option RouterConfig := do
  let fields ← v.fields? fieldNames false
  return {
    nativeRouting := ← Value.field? fields "native_routing" Value.bool? default.nativeRouting
    tapRatio := ← Value.field? fields "tap_ratio" Value.float? default.tapRatio
    tapTimeout := ← Value.field? fields "tap_timeout_ticks" Value.word64? default.tapTimeout }

def toValue (c : RouterConfig) : Value :=
  .table [("native_routing", .bool c.nativeRouting), ("tap_ratio", .float c.tapRatio),
    ("tap_timeout_ticks", .int c.tapTimeout)]

end RouterConfig

namespace Config

def fieldNames : List String := ["sequencer", "router"]

def ofValue? (v : Value) : Option Config := do
  let fields ← v.fields? fieldNames false
  return {
    sequencer := ← Value.field? fields "sequencer" SequencerConfig.ofValue? .default
    router := ← Value.field? fields "router" RouterConfig.ofValue? .default }

def entries (c : Config) : List (String × Value) :=
  [("sequencer", c.sequencer.toValue), ("router", c.router.toValue)]

def toValue (c : Config) : Value := .table c.entries

/-- Reads and checks the text of a configuration. -/
def load (f : Format) (s : String) : Except Fault Config :=
  match (f.read? s).bind ofValue? with
  | none => .error .document
  | some c =>
    match c.problem? with
    | some problem => .error (.setup problem)
    | none => .ok c

/-- The text of a configuration, if the format has one for it. -/
def save? (f : Format) (c : Config) : Option String := f.write? c.entries

/-- Reads and checks the text of a configuration file. -/
def ofText (s : String) : Except Fault Config := load Toml.format s

/-- The text of a configuration file. -/
def text (c : Config) : String := (c.save? Toml.format).getD ""

end Config

end MidiRig
