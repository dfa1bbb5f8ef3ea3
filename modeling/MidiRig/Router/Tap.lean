import MidiRig.Clock.Tempo

/-!
# Tap tempo

Taps give a tempo once two intervals in a row agree. A pause starts over, and several taps at one
tick count as one.
-/

namespace MidiRig

/-- When taps are taken for a tempo. -/
structure TapRule where
  ticksPerSecond : Float
  /-- What the shorter interval divided by the longer one has to exceed. -/
  ratio : Float
  /-- The longest interval in ticks. -/
  timeout : Nat
  deriving BEq, Repr

/-- The last tap, and the interval that ended with it. -/
structure Taps where
  last : Option Nat
  interval : Option Nat
  deriving DecidableEq, Repr

namespace Taps

def untapped : Taps := ⟨none, none⟩

/-- Whether two intervals are alike. -/
def agree (ratio : Float) (a b : Nat) : Bool :=
  Float.ofNat (min a b) / Float.ofNat (max a b) > ratio

/-- Takes a tap worth `beats` beats, and gives the tempo if there is one now. -/
def tap (rule : TapRule) (t : Taps) (tick : Nat) (beats : Float) : Taps × Option Float :=
  let tapped := { t with last := some tick }
  match t.last with
  | none => (tapped, none)
  | some last =>
    if tick ≤ last then (tapped, none)
    else if rule.timeout < tick - last then ({ tapped with interval := none }, none)
    else
      let now := tick - last
      let bpm := t.interval.bind fun before =>
        if agree rule.ratio now before then
          (Tempo.of rule.ticksPerSecond Tempo.defaultBpm).bpmOfInterval beats now
        else none
      ({ tapped with interval := some now }, bpm)

end Taps

end MidiRig
