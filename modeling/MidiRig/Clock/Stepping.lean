import MidiRig.Clock.Tempo

/-!
# Steps under swing and groove

A stepped pattern divides four beats into equal steps. Swing moves the border between an even
step and the odd one after it: the even step takes the share `swing` of the two. A groove gives
one accent a step and starts over at its end.
-/

namespace MidiRig

structure Stepping where
  /-- Steps in four beats. -/
  division : Nat
  swing : Float
  groove : List Float
  deriving BEq, Repr

namespace Stepping

/-- Every step with the accent it is written with. -/
def plainGroove : List Float := [1.0]

def setSwing (s : Stepping) (swing : Float) : Stepping :=
  if Binary64.isFinite swing then { s with swing := Binary64.clamp 0.0 1.0 swing } else s

/-- Accents that are no numbers are left out. -/
def setGroove (s : Stepping) (groove : List Float) : Stepping :=
  let accents := groove.filter Binary64.isFinite
  { s with groove := if accents.isEmpty then plainGroove else accents }

def of (division : Nat) (swing : Float) (groove : List Float) : Stepping :=
  ((Stepping.mk (max division 1) 0.5 plainGroove).setSwing swing).setGroove groove

/-- Only eighth notes and shorter ones swing, and no triplets. -/
def swings (s : Stepping) : Bool := 8 ≤ s.division && s.division % 3 != 0

def accent (s : Stepping) (step : Nat) : Float := s.groove.getD (step % s.groove.length) 1.0

/-- The share of two steps that a step takes, as a multiple of one. -/
def stretch (s : Stepping) (step : Nat) (base : Float) : Float :=
  if s.swings then
    if step % 2 = 0 then base * 2.0 * s.swing else base * 2.0 * (1.0 - s.swing)
  else base

/-- Length of a step, at least one tick. -/
def stepTicks (s : Stepping) (tempo : Tempo) (step : Nat) : Nat :=
  let base := tempo.toTicks (4.0 / Float.ofNat s.division)
  max (Binary64.toWord64 (Binary64.round (s.stretch step base))) 1

theorem stepTicks_pos (s : Stepping) (tempo : Tempo) (step : Nat) :
    0 < s.stepTicks tempo step :=
  Nat.lt_of_lt_of_le Nat.one_pos (Nat.le_max_right ..)

end Stepping

end MidiRig
