import MidiRig.Number.Decimal
import MidiRig.Text.Blank

/-!
# Note names

Scientific pitch names such as `C4`, `Db-1` or `-F#3`: a letter, an accidental, and an octave of
one digit that may be negative. `C-1` is note `0`, and an octave has twelve notes. A leading minus
negates the number, so that a name can serve as an offset.
-/

namespace MidiRig.NoteName

/-- Semitones of a letter above the `C` of its octave. -/
def letter? : Char → Option Int
  | 'C' => some 0
  | 'D' => some 2
  | 'E' => some 4
  | 'F' => some 5
  | 'G' => some 7
  | 'A' => some 9
  | 'B' => some 11
  | _ => none

/-- Splits off an accidental. -/
def splitAccidental : List Char → Int × List Char
  | '#' :: cs => (1, cs)
  | 'b' :: cs => (-1, cs)
  | cs => (0, cs)

/-- Splits off an octave. -/
def splitOctave? : List Char → Option (Int × List Char)
  | '-' :: d :: cs => if d.isDigit then some (-(Decimal.digitValue d : Int), cs) else none
  | d :: cs => if d.isDigit then some ((Decimal.digitValue d : Int), cs) else none
  | [] => none

def number (semitone accidental octave : Int) : Int := (octave + 1) * 12 + semitone + accidental

/-- The note named in front of a text without a sign, and the rest of the text. -/
def split? : List Char → Option (Int × List Char)
  | [] => none
  | c :: cs => do
    let semitone ← letter? c
    let (accidental, cs) := splitAccidental cs
    let (octave, cs) ← splitOctave? cs
    return (number semitone accidental octave, cs)

/-- The number of a note name that makes up the whole text, up to blanks around it. -/
def read? (s : String) : Option Int :=
  let (negative, cs) := Decimal.splitSign (Text.trimChars s.toList)
  match split? cs with
  | some (n, []) => some (if negative then -n else n)
  | _ => none

end MidiRig.NoteName
