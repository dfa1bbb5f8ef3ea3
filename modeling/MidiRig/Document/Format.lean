import MidiRig.Document.Toml.Reader
import MidiRig.Document.Toml.Writer

/-!
# Formats

A format writes documents as texts and reads texts as documents. Banks and configurations are
saved and loaded in a format that they are given; the program gives them TOML.
-/

namespace MidiRig

structure Format where
  /-- The document that a text stands for. -/
  read? : String → Option Value
  /-- The text of a document with these entries, if it can be written. -/
  write? : List (String × Value) → Option String

/-- TOML, in which every document is written somehow. -/
def Toml.format : Format where
  read? := Toml.read?
  write? entries := some (Toml.write entries)

end MidiRig
