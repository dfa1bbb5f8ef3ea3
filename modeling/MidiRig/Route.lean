import MidiRig.Number.Binary64

/-!
# Routes

A route maps one field of an event. It has an input domain, an output range and the affine
transform between them. A domain whose lower end lies above its upper end is an exclusion: it
rejects what lies strictly between them and accepts everything else.
-/

namespace MidiRig

structure Route where
  min : Float
  max : Float
  toMin : Float
  toMax : Float
  mul : Float
  add : Float
  deriving BEq, Repr

namespace Route

/-- A factor and an offset; the output range follows from the domain. -/
def affine (min max mul add : Float) : Route :=
  { min, max, toMin := min * mul + add, toMax := max * mul + add, mul, add }

/-- Leaves every value of the domain as it is. -/
def identity (min max : Float) : Route := affine min max 1.0 0.0

/-- Carries the ends of the domain to the ends of the output range. A domain of one point cannot
be scaled and is only moved. -/
def fromTo (min max toMin toMax : Float) : Route :=
  let mul := if min == max then 1.0 else (toMax - toMin) / (max - min)
  { min, max, toMin, toMax, mul, add := toMin - min * mul }

def isExclusion (r : Route) : Bool := r.max < r.min

/-- Whether the domain spans more than one value. -/
def isSpan (r : Route) : Bool := r.min < r.max

def contains (r : Route) (x : Float) : Bool :=
  if r.isExclusion then !(r.max < x && x < r.min) else r.min ≤ x && x ≤ r.max

/-- The affine transform. -/
def apply (r : Route) (x : Float) : Float := x * r.mul + r.add

/-- Distance from one to the next double. -/
def epsilon : Float := Float.ofScientific 2220446049250313 true 31

/-- The exponential curve with base `10^log` through the ends of the output range. A curve too
flat or too steep to compute falls back to the affine transform. -/
def applyCurve (r : Route) (x log : Float) : Float :=
  let base := Float.pow 10.0 log
  if !Binary64.isFinite base || (base - 1.0).abs < epsilon then r.apply x
  else
    let place := if r.max == r.min then 0.0 else (x - r.min) / (r.max - r.min)
    r.toMin + (r.toMax - r.toMin) * (Float.pow base place - 1.0) / (base - 1.0)

/-- The same transform on the domain of one value. -/
def pinned (r : Route) (x : Float) : Route :=
  { r with min := x, max := x, toMin := r.apply x, toMax := r.apply x }

end Route

end MidiRig
