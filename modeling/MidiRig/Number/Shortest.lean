import MidiRig.Number.Binary64

/-!
# The shortest decimal text of a double

A double is written with the fewest digits that read back as the same double, and of the texts
with that many digits with the one nearest to it. The search is exact: the reals that round to a
double form an interval, and for one digit, two digits and so on the two neighbours of the double
on that decimal grid are tested against it. Seventeen digits always suffice.

Texts are positional whatever the size of the number.
-/

namespace MidiRig.Shortest

/-- A decimal number `digits · 10^exponent`. -/
structure Decimal where
  digits : Nat
  exponent : Int
  deriving DecidableEq, Repr

/-- A positive double and the reals that round to it, over one denominator. -/
structure Interval where
  low : Nat
  value : Nat
  high : Nat
  denominator : Nat
  /-- Whether the ends belong to it. -/
  closed : Bool

/-- The interval of `m · 2^q`. The lower end is half as far away where the exponent changes. -/
def interval (m : Nat) (q : Int) : Interval :=
  let below := if m = Binary64.hiddenBit ∧ Binary64.minExponent < q then 1 else 2
  let unit := Nat.pow 2 (q - 2).toNat
  { low := (4 * m - below) * unit
    value := 4 * m * unit
    high := (4 * m + 2) * unit
    denominator := Nat.pow 2 (2 - q).toNat
    closed := m % 2 == 0 }

namespace Interval

/-- Multiplies by `10^e`. -/
def shift (i : Interval) (e : Int) : Interval :=
  let up := Nat.pow 10 e.toNat
  { i with
    low := i.low * up
    value := i.value * up
    high := i.high * up
    denominator := i.denominator * Nat.pow 10 (-e).toNat }

/-- Whether the whole number `n` lies in the interval. -/
def contains (i : Interval) (n : Nat) : Bool :=
  let x := n * i.denominator
  if i.closed then i.low ≤ x && x ≤ i.high else i.low < x && x < i.high

/-- The whole number of the interval that is nearest to the value, the larger of two. -/
def nearest? (i : Interval) : Option Nat :=
  let down := i.value / i.denominator
  let upNearer := i.denominator ≤ 2 * (i.value % i.denominator)
  match i.contains down, i.contains (down + 1) with
  | true, true => some (if upNearer then down + 1 else down)
  | true, false => some down
  | false, true => some (down + 1)
  | false, false => none

/-- Decimal digits before the point, or less than one where zeros follow the point. -/
def magnitude (i : Interval) : Int :=
  if i.denominator ≤ i.value then (Nat.toDigits 10 (i.value / i.denominator)).length
  else 1 - (Nat.toDigits 10 ((i.denominator - 1) / i.value)).length

end Interval

/-- The first grid of `n`, `n + 1`, … digits that has a point in the interval. -/
def search (i : Interval) (size : Int) : (fuel n : Nat) → Decimal
  | 0, n => ⟨(i.shift (n - size)).value / (i.shift (n - size)).denominator, size - n⟩
  | fuel + 1, n =>
    match (i.shift (n - size)).nearest? with
    | some d => ⟨d, size - n⟩
    | none => search i size fuel (n + 1)

/-- The shortest decimal that reads back as `m · 2^q`, for `m` not zero. -/
def ofDyadic (m : Nat) (q : Int) : Decimal :=
  let i := interval m q
  search i i.magnitude 17 1

/-! ## Text -/

def zeros (n : Nat) : String := String.ofList (List.replicate n '0')

/-- `digits · 10^exponent` written out, without an exponent and without idle zeros. -/
def Decimal.positional (d : Decimal) : String :=
  if 0 ≤ d.exponent then toString d.digits ++ zeros d.exponent.toNat
  else
    let places := (-d.exponent).toNat
    let whole := d.digits / Nat.pow 10 places
    let fraction := toString (d.digits % Nat.pow 10 places)
    let padded := (zeros (places - fraction.length) ++ fraction).toList
    let shown := (padded.reverse.dropWhile (· == '0')).reverse
    if shown.isEmpty then toString whole else toString whole ++ "." ++ String.ofList shown

/-- Text of a double: positional, whole numbers without a point. -/
def text (x : Float) : String :=
  match Binary64.parts x with
  | .nan => "NaN"
  | .infinite negative => if negative then "-inf" else "inf"
  | .finite negative m q =>
    let magnitude := if m = 0 then "0" else (ofDyadic m q).positional
    if negative then "-" ++ magnitude else magnitude

end MidiRig.Shortest
