import MidiRig.Text.Blank

/-!
# Paths of backing files

A path is compared by its parts: doubled and final slashes do not count, nor does a part `.` that
is not the first of a relative path. It is shown as it was written.
-/

namespace MidiRig

structure Path where
  text : String
  deriving Repr

namespace Path

def isAbsolute (p : Path) : Bool := p.text.toList.head? == some '/'

/-- The parts that a path is compared by. -/
def components (p : Path) : List String :=
  let parts := Text.pieces '/' p.text
  let kept := parts.filter fun part => part != "" && part != "."
  if parts.head? == some "." then "." :: kept else kept

instance : BEq Path :=
  ⟨fun a b => a.isAbsolute == b.isAbsolute && a.components == b.components⟩

def isEmpty (p : Path) : Bool := p.text.isEmpty

end Path

end MidiRig
