import MidiRig.Number.Binary64

/-!
# Decimal numbers read from text

A decimal is read exactly, as `mantissa · 10^exponent`, and rounded once, to the nearest double.
Numbers may carry one sign; a fraction may leave out the digits on one side of its point; the
names of infinity and of what is not a number are read in any case.
-/

namespace MidiRig.Decimal

/-! ## Digits -/

def digitValue (c : Char) : Nat := c.toNat - '0'.toNat

/-- Value of a list of decimal digits. -/
def digitsValue (cs : List Char) : Nat := cs.foldl (fun n c => 10 * n + digitValue c) 0

/-- Splits off an optional sign; the flag tells a minus. -/
def splitSign : List Char → Bool × List Char
  | '-' :: cs => (true, cs)
  | '+' :: cs => (false, cs)
  | cs => (false, cs)

/-- The digits in front, and the rest. -/
def spanDigits (cs : List Char) : List Char × List Char :=
  (cs.takeWhile Char.isDigit, cs.dropWhile Char.isDigit)

/-! ## Whole numbers -/

/-- A sign and at least one digit, within `lo` and `hi`. -/
def readInt? (lo hi : Int) (cs : List Char) : Option Int :=
  let (negative, digits) := splitSign cs
  if digits.isEmpty || !digits.all Char.isDigit then none
  else
    let n := Binary64.signed negative (digitsValue digits)
    if lo ≤ n ∧ n ≤ hi then some n else none

def readInt32? (cs : List Char) : Option Int := readInt? Binary64.minInt32 Binary64.maxInt32 cs

/-! ## Doubles -/

/-- How far the decimal exponent of a number may lie from zero and still be told from an
overflow or from zero. -/
def exponentLimit : Int := 400

/-- The double nearest to `m · 10^e`. -/
def scaled (m : Nat) (e : Int) : Float :=
  let size : Int := e + (Nat.toDigits 10 m).length
  if m = 0 then 0.0
  else if exponentLimit < size then Binary64.infinity
  else if size < -exponentLimit then 0.0
  else if 0 ≤ e then Float.ofScientific (m * Nat.pow 10 e.toNat) false 0
  else Float.ofScientific m true (-e).toNat

/-- The exponent part of a number: nothing, or `e`, a sign and digits up to the end. -/
def readExponent? : List Char → Option Int
  | [] => some 0
  | c :: cs =>
    if c = 'e' ∨ c = 'E' then
      let (negative, digits) := splitSign cs
      if digits.isEmpty || !digits.all Char.isDigit then none
      else some (Binary64.signed negative (digitsValue digits))
    else none

/-- Digits with a point and an exponent, without a sign. -/
def readMagnitude? (cs : List Char) : Option Float :=
  let (whole, rest) := spanDigits cs
  let (fraction, rest) :=
    match rest with
    | '.' :: tail => spanDigits tail
    | _ => ([], rest)
  if whole.isEmpty && fraction.isEmpty then none
  else
    (readExponent? rest).map fun e =>
      scaled (digitsValue (whole ++ fraction)) (e - fraction.length)

/-- The numbers that have a name, in lower case. -/
def named? (name : String) : Option Float :=
  if name = "inf" ∨ name = "infinity" then some Binary64.infinity
  else if name = "nan" then some Binary64.nan
  else none

/-- A double with an optional sign. -/
def readFloat? (cs : List Char) : Option Float :=
  let (negative, magnitude) := splitSign cs
  let value := (named? (String.ofList (magnitude.map Char.toLower))) <|> readMagnitude? magnitude
  value.map fun x => if negative then -x else x

end MidiRig.Decimal
