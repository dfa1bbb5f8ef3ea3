import MidiRig.Data.Dict
import MidiRig.Route

/-!
# Counters

A counter turns a relative control into an absolute one. It is made on first use from the output
range of the rule that uses it, and stepping it past one end takes it to the other.
-/

namespace MidiRig

structure Counter where
  value : Float
  low : Float
  high : Float
  deriving BEq, Repr

namespace Counter

/-- The range of a counter whose rule has no value route. -/
def fullRange : Float × Float := (0.0, 127.0)

/-- A counter over an output range, in whichever direction that runs, at its start. -/
def start (range : Option Route) : Counter :=
  let (first, last) := match range with
    | some route => (route.toMin, route.toMax)
    | none => fullRange
  { value := first, low := Binary64.smaller first last, high := Binary64.larger first last }

/-- A value within the range, or the end opposite to the one it passed. -/
def wrap (c : Counter) (next : Float) : Float :=
  if next > c.high then c.low else if next < c.low then c.high else next

/-- A value of zero reads the counter, any other one steps it. -/
def step (c : Counter) (increment value : Float) : Counter :=
  if value == 0.0 then c else { c with value := c.wrap (c.value + increment) }

end Counter

/-- Counters by name. -/
abbrev Counters := Dict Counter

namespace Counters

/-- Steps the named counter, made on first use. -/
def step (cs : Counters) (name : String) (range : Option Route) (increment value : Float) :
    Counters × Float :=
  let counter := ((cs.get? name).getD (Counter.start range)).step increment value
  (cs.insert name counter, counter.value)

def value? (cs : Counters) (name : String) : Option Float := (cs.get? name).map Counter.value

end Counters

end MidiRig
