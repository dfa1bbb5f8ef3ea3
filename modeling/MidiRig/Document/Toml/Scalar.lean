import MidiRig.Document.Toml.Scan
import MidiRig.Document.Value
import MidiRig.Event.Text
import MidiRig.Number.Decimal

/-!
# Numbers and moments

Integers are decimal, or have a base mark (`0x`, `0o`, `0b`) and no sign, and fit in 64 bits.
Numbers with a fraction or an exponent are doubles, and one that is too large is malformed.
Underscores may stand between digits. Dates and times are checked and kept as they are written.
-/

namespace MidiRig.Toml

/-! ## Digits -/

/-- The digits in front, with single underscores between them taken out, and the rest. -/
def spanDigits (isDigit : Char → Bool) : List Char → List Char × List Char
  | [] => ([], [])
  | '_' :: c :: cs =>
    if isDigit c then spanDigits isDigit (c :: cs) else ([], '_' :: c :: cs)
  | c :: cs =>
    if isDigit c then
      let (digits, rest) := spanDigits isDigit cs
      (c :: digits, rest)
    else ([], c :: cs)

/-- One digit at least. -/
def readDigits? (isDigit : Char → Bool) (cs : List Char) : Option (List Char × List Char) :=
  if (cs.head?.map isDigit).getD false then some (spanDigits isDigit cs) else none

/-- Splits off an optional sign. -/
def spanSign : List Char → List Char × List Char
  | '-' :: cs => (['-'], cs)
  | '+' :: cs => (['+'], cs)
  | cs => ([], cs)

/-- A decimal integer with its sign. It has no idle zero in front. -/
def readWhole? (cs : List Char) : Option (List Char × List Char) :=
  let (sign, rest) := spanSign cs
  match rest with
  | '0' :: tail => some (sign ++ ['0'], tail)
  | _ => (readDigits? Char.isDigit rest).map fun (digits, tail) => (sign ++ digits, tail)

/-! ## Integers -/

/-- The value of digits in some base. -/
def valueIn (base : Nat) (digits : List Char) : Nat :=
  digits.foldl (fun n c => base * n + (Event.hexValue? c).getD 0) 0

/-- An integer after its base mark. -/
def readInBase? (base : Nat) (cs : List Char) : Option (Value × List Char) := do
  let isDigit (c : Char) : Bool := ((Event.hexValue? c).map fun n => decide (n < base)).getD false
  let (digits, rest) ← readDigits? isDigit cs
  let n := valueIn base digits
  if n ≤ Binary64.maxInt64 then some (.int n, rest) else none

def readInteger? : List Char → Option (Value × List Char)
  | '0' :: 'x' :: cs => readInBase? 16 cs
  | '0' :: 'o' :: cs => readInBase? 8 cs
  | '0' :: 'b' :: cs => readInBase? 2 cs
  | cs => do
    let (digits, rest) ← readWhole? cs
    let n ← Decimal.readInt? Binary64.minInt64 Binary64.maxInt64 digits
    return (.int n, rest)

/-! ## Doubles -/

/-- A point and digits, if there is a point. -/
def readFraction? : List Char → Option (List Char × List Char)
  | '.' :: cs => (readDigits? Char.isDigit cs).map fun (digits, rest) => ('.' :: digits, rest)
  | cs => some ([], cs)

/-- An exponent, if there is one. -/
def readExponent? : List Char → Option (List Char × List Char)
  | [] => some ([], [])
  | c :: cs =>
    if c == 'e' || c == 'E' then
      let (sign, rest) := spanSign cs
      (readDigits? Char.isDigit rest).map fun (digits, rest) => ('e' :: (sign ++ digits), rest)
    else some ([], c :: cs)

/-- A number with a fraction, an exponent or both. -/
def readPointed? (cs : List Char) : Option (Float × List Char) := do
  let (whole, rest) ← readWhole? cs
  let (fraction, rest) ← readFraction? rest
  let (exponent, rest) ← readExponent? rest
  if fraction.isEmpty && exponent.isEmpty then none
  else
    let x ← Decimal.readFloat? (whole ++ fraction ++ exponent)
    if x == Binary64.infinity then none else some (x, rest)

/-- The numbers that have a name. -/
def readNamed? (cs : List Char) : Option (Float × List Char) :=
  let (sign, rest) := spanSign cs
  let signed (x : Float) : Float := if sign == ['-'] then -x else x
  match rest with
  | 'i' :: 'n' :: 'f' :: tail => some (signed Binary64.infinity, tail)
  | 'n' :: 'a' :: 'n' :: tail => some (signed Binary64.nan, tail)
  | _ => none

def readFloat? (cs : List Char) : Option (Value × List Char) :=
  (readPointed? cs <|> readNamed? cs).map fun (x, rest) => (.float x, rest)

/-! ## Dates and times -/

/-- A number of exactly so many digits, within bounds. -/
def readField? (digits lo hi : Nat) (cs : List Char) : Option (Nat × List Char) :=
  let field := cs.take digits
  let n := Decimal.digitsValue field
  if field.length = digits ∧ field.all Char.isDigit ∧ lo ≤ n ∧ n ≤ hi then
    some (n, cs.drop digits)
  else none

def isLeap (year : Nat) : Bool := year % 4 == 0 && (year % 100 != 0 || year % 400 == 0)

def daysIn (year month : Nat) : Nat :=
  if month = 2 then (if isLeap year then 29 else 28)
  else if month = 4 ∨ month = 6 ∨ month = 9 ∨ month = 11 then 30
  else 31

/-- Skips a date. -/
def skipDate? (cs : List Char) : Option (List Char) := do
  let (year, cs) ← readField? 4 0 9999 cs
  let (month, cs) ← readField? 2 1 12 (← expect? '-' cs)
  let (_, cs) ← readField? 2 1 (daysIn year month) (← expect? '-' cs)
  return cs

/-- Skips a time of day, with or without a fraction of a second. -/
def skipTime? (cs : List Char) : Option (List Char) := do
  let (_, cs) ← readField? 2 0 23 cs
  let (_, cs) ← readField? 2 0 59 (← expect? ':' cs)
  let (_, cs) ← readField? 2 0 60 (← expect? ':' cs)
  match cs with
  | '.' :: c :: rest => if c.isDigit then some (rest.dropWhile Char.isDigit) else some cs
  | _ => some cs

/-- Skips a distance from universal time, if there is one. -/
def skipOffset (cs : List Char) : List Char :=
  let numeric (rest : List Char) : Option (List Char) := do
    let (_, rest) ← readField? 2 0 23 rest
    let (_, rest) ← readField? 2 0 59 (← expect? ':' rest)
    return rest
  match cs with
  | c :: rest =>
    if c == 'Z' || c == 'z' then rest
    else if c == '+' || c == '-' then (numeric rest).getD cs
    else cs
  | [] => []

/-- Skips the time that may follow a date. -/
def skipTimeOfDate (cs : List Char) : List Char :=
  match cs with
  | c :: rest =>
    if c == 'T' || c == 't' || c == ' ' then ((skipTime? rest).map skipOffset).getD cs else cs
  | [] => []

/-- A date, a time, or both. -/
def readMoment? (cs : List Char) : Option (Value × List Char) :=
  ((skipDate? cs).map skipTimeOfDate <|> skipTime? cs).map fun rest =>
    (.moment (String.ofList (cs.take (cs.length - rest.length))), rest)

/-- Any value that starts like a number. -/
def readNumeral? (cs : List Char) : Option (Value × List Char) :=
  readMoment? cs <|> readFloat? cs <|> readInteger? cs

end MidiRig.Toml
