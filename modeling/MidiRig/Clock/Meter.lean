import MidiRig.Number.Binary64

/-!
# Time signatures

A time signature gives the length of a bar in quarter notes.
-/

namespace MidiRig

structure Meter where
  numerator : Nat
  denominator : Nat
  deriving DecidableEq, Repr

namespace Meter

/-- A meter whose numbers are at least `1`. -/
def of (numerator denominator : Nat) : Meter := ⟨max numerator 1, max denominator 1⟩

def fourFour : Meter := of 4 4

/-- Quarter notes in a bar. -/
def beatsPerBar (m : Meter) : Float :=
  Float.ofNat m.numerator * (4.0 / Float.ofNat m.denominator)

end Meter

end MidiRig
