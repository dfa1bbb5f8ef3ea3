/-!
# Doubles as exact numbers

A finite double is `±mantissa · 2^exponent`. Everything here that rounds, truncates or takes a
remainder works on that exact value in integers, so the only roundings are the ones the function
is named for. Conversions to integers saturate at the ends of their range, and what is not a
number becomes `0`.
-/

namespace MidiRig.Binary64

/-- What a double stands for. -/
inductive Parts where
  | nan
  | infinite (negative : Bool)
  | finite (negative : Bool) (mantissa : Nat) (exponent : Int)
  deriving DecidableEq, Repr

/-- Least exponent of a mantissa, that of the subnormal numbers. -/
def minExponent : Int := -1074

/-- The leading bit of a mantissa, which only the subnormal numbers lack. -/
def hiddenBit : Nat := Nat.pow 2 52

/-- Reads sign, exponent field and fraction field. -/
def parts (x : Float) : Parts :=
  let bits := x.toBits.toNat
  let negative := bits / Nat.pow 2 63 == 1
  let field := bits / hiddenBit % Nat.pow 2 11
  let fraction := bits % hiddenBit
  if field = 2047 then
    if fraction = 0 then .infinite negative else .nan
  else if field = 0 then
    .finite negative fraction minExponent
  else
    .finite negative (fraction + hiddenBit) (minExponent + ((field : Int) - 1))

def nan : Float := 0.0 / 0.0

def infinity : Float := 1.0 / 0.0

def isFinite (x : Float) : Bool :=
  match parts x with
  | .finite .. => true
  | _ => false

/-! ## Magnitudes `m · 2^q` in natural numbers -/

/-- `m · 2^q` rounded down. -/
def floorMag (m : Nat) (q : Int) : Nat :=
  if 0 ≤ q then m * Nat.pow 2 q.toNat else m / Nat.pow 2 (-q).toNat

/-- `m · 2^q` rounded up. -/
def ceilMag (m : Nat) (q : Int) : Nat :=
  let unit := Nat.pow 2 (-q).toNat
  if 0 ≤ q then m * Nat.pow 2 q.toNat else (m + (unit - 1)) / unit

/-- `m · 2^q` rounded to nearest, a half going up. -/
def roundMag (m : Nat) (q : Int) : Nat :=
  let unit := Nat.pow 2 (-q).toNat
  if 0 ≤ q then m * Nat.pow 2 q.toNat else (2 * m + unit) / (2 * unit)

/-- Whether `m · 2^q` has no fractional part. -/
def wholeMag (m : Nat) (q : Int) : Bool :=
  decide (0 ≤ q) || m % Nat.pow 2 (-q).toNat == 0

/-- The double nearest to `±m · 2^q`. -/
def ofDyadic (negative : Bool) (m : Nat) (q : Int) : Float :=
  let magnitude : Float :=
    if 0 ≤ q then Float.ofNat (m * Nat.pow 2 q.toNat)
    else Float.ofScientific (m * Nat.pow 5 (-q).toNat) true (-q).toNat
  if negative then -magnitude else magnitude

def signed (negative : Bool) (n : Nat) : Int :=
  if negative then -(n : Int) else n

/-! ## Rounding -/

/-- Nearest whole number, a half going away from zero. The sign is kept, also that of a zero. -/
def round (x : Float) : Float :=
  match parts x with
  | .finite negative m q =>
    if 0 ≤ q then x else ofDyadic negative (roundMag m q) 0
  | _ => x

/-- Whether `x` is finite and has no fractional part. -/
def isWhole (x : Float) : Bool :=
  match parts x with
  | .finite _ m q => wholeMag m q
  | _ => false

/-- `x` held between `lo` and `hi`; what is not a number stays so. -/
def clamp (lo hi x : Float) : Float :=
  if x < lo then lo else if hi < x then hi else x

/-! ## Whole numbers of a range -/

/-- A finite value goes through `f`, and the result is held between `lo` and `hi`. -/
def toIntWith (f : Bool → Nat → Int → Int) (lo hi : Int) (x : Float) : Int :=
  match parts x with
  | .nan => 0
  | .infinite true => lo
  | .infinite false => hi
  | .finite negative m q => max lo (min hi (f negative m q))

/-- Toward zero. -/
def truncInt (negative : Bool) (m : Nat) (q : Int) : Int := signed negative (floorMag m q)

/-- Toward negative infinity. -/
def floorInt (negative : Bool) (m : Nat) (q : Int) : Int :=
  signed negative (if negative then ceilMag m q else floorMag m q)

/-- Toward positive infinity. -/
def ceilInt (negative : Bool) (m : Nat) (q : Int) : Int :=
  signed negative (if negative then floorMag m q else ceilMag m q)

/-- Largest number of 32 bits without a sign. -/
def maxWord32 : Nat := 0xFFFFFFFF

/-- Largest number of 64 bits without a sign. -/
def maxWord64 : Nat := 0xFFFFFFFFFFFFFFFF

/-- Ends of the numbers of 32 bits with a sign. -/
def minInt32 : Int := -0x80000000

def maxInt32 : Int := 0x7FFFFFFF

/-- Ends of the numbers of 64 bits with a sign. -/
def minInt64 : Int := -0x8000000000000000

def maxInt64 : Int := 0x7FFFFFFFFFFFFFFF

def toInt32 (x : Float) : Int := toIntWith truncInt minInt32 maxInt32 x

def toInt64 (x : Float) : Int := toIntWith truncInt minInt64 maxInt64 x

def toWord32 (x : Float) : Nat := (toIntWith truncInt 0 maxWord32 x).toNat

def toWord64 (x : Float) : Nat := (toIntWith truncInt 0 maxWord64 x).toNat

def floorInt64 (x : Float) : Int := toIntWith floorInt minInt64 maxInt64 x

def ceilInt64 (x : Float) : Int := toIntWith ceilInt minInt64 maxInt64 x

/-! ## Remainders and order -/

/-- What is left of `x` after taking out `y` a whole number of times, with the sign of `x`. -/
def remainder (x y : Float) : Float :=
  match parts x, parts y with
  | .finite negative m q, .finite _ n r =>
    if n = 0 then nan
    else
      let e := min q r
      ofDyadic negative
        ((m * Nat.pow 2 (q - e).toNat) % (n * Nat.pow 2 (r - e).toNat)) e
  | .finite .., .infinite _ => x
  | _, _ => nan

/-- The remainder moved into `[0, |y|]`. -/
def modulo (x y : Float) : Float :=
  let r := remainder x y
  if r < 0.0 then r + y.abs else r

/-- The larger number; one that is not a number gives way. -/
def larger (x y : Float) : Float :=
  if x < y then y else if x.isNaN then y else x

/-- The smaller number; one that is not a number gives way. -/
def smaller (x y : Float) : Float :=
  if y < x then y else if x.isNaN then y else x

/-- Position of a double in the order that tells all doubles apart: negative numbers, `-0`,
`0`, positive numbers, then what is not a number. -/
def orderKey (x : Float) : Int :=
  let bits := x.toBits.toNat
  let magnitude := bits % Nat.pow 2 63
  if bits / Nat.pow 2 63 == 1 then -(magnitude : Int) - 1 else bits

end MidiRig.Binary64
