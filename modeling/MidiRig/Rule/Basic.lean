import MidiRig.Event.Basic
import MidiRig.Route

/-!
# Rules

A rule matches events of one kind, maps their channel, number and value by its routes, and gives
an event of its target kind. Its effects act on counters, settings and players instead of only
passing the event on. A rule for notes also matches the note-offs on its channels and numbers,
whatever its value domain, so that held keys are always released.
-/

namespace MidiRig

/-- What a rule does besides sending an event. -/
inductive Effect where
  /-- Steps the counter and takes its new value. -/
  | counter (name : String) (increment : Float)
  | setting (name : String)
  | port (effect port : String)
  | play (player : String)
  | tempo (player : String)
  | record (player : String)
  | swing (player : String)
  | groove (player : String)
  | tap (player : String)
  | arpeggio (player : String)
  | loop (player : String)
  deriving BEq, Repr

/-- How long an installed rule stays. -/
inductive Scope where
  | patch
  | persistent
  deriving DecidableEq, Repr

structure Rule where
  kind : Kind
  target : Kind
  channel : Option Route
  number : Option Route
  value : Option Route
  /-- Exponent of the value curve. -/
  log : Option Float
  /-- Controller that gets the low seven bits of the value. -/
  lowByte : Option Int
  effects : List Effect
  deriving BEq, Repr

/-- The event that a rule gives, and the event for the low byte of its value. -/
structure Outcome where
  event : Event
  lowByte : Option Event
  deriving BEq, Repr

namespace Rule

/-- Rules that only remap a channel message of one kind can run in the engine. -/
def isNativeEligible (r : Rule) : Bool :=
  r.kind = r.target && r.kind.isNativeRoutable && r.effects.isEmpty && r.log.isNone &&
    r.lowByte.isNone

/-! ## Matching -/

/-- Whether the event releases a key that this rule matches. -/
def releases (r : Rule) (e : Event) : Bool := r.kind = .note && e.kind = .noteOff

/-- A route accepts the field that it maps; without a route or a field there is nothing to check. -/
def accepts : Option Route → Option Float → Bool
  | some route, some x => route.contains x
  | _, _ => true

/-- Whether the rule matches the event. The value of a release is not looked at. -/
def applies (r : Rule) (e : Event) : Bool :=
  (r.kind = e.kind || r.releases e) &&
    accepts r.channel (e.channel.map Float.ofInt) &&
    accepts r.number (e.number.map Float.ofInt) &&
    accepts r.value (if e.kind.hasChannel && !r.releases e then some e.value else none)

/-! ## Transforming -/

/-- A field rounded to an integer. -/
def toField (x : Float) : Int := Binary64.toInt32 (Binary64.round x)

/-- A field that the event has goes through the route, one that it lacks gets the lower end of
the output range. Without a route the field stays. -/
def mapField : Option Route → Option Int → Option Int
  | some route, some n => some (toField (route.apply (Float.ofInt n)))
  | some route, none => some (toField route.toMin)
  | none, field => field

/-- The value of the event that a transport message starts, where no route gives one: a beat
clock is a 24th of a beat, a start plays without end and a stop ends. -/
def transportValue : Kind → Float
  | .clock => 1.0 / 24.0
  | .start | .resume => -1.0
  | _ => 0.0

/-- A transport message has no fields to map, so each route gives the lower end of its output. -/
def applyTransport (r : Rule) (source : Kind) : Outcome :=
  let value :=
    match r.value with
    | some route => route.toMin
    | none => transportValue source
  let low (route : Option Route) : Option Int := route.map fun x => toField x.toMin
  { event := Event.make r.target (low r.channel) (low r.number) value, lowByte := none }

/-- The value through route and curve. -/
def mapValue (r : Rule) (x : Float) : Float :=
  match r.value, r.log with
  | some route, some log => route.applyCurve x log
  | some route, none => route.apply x
  | none, _ => x

/-- A value as fourteen bits. -/
def wide (x : Float) : Nat :=
  (Binary64.toInt32 (Binary64.clamp 0.0 16383.0 (Binary64.round x))).toNat

/-- The number of the event that is sent; a kind with numbers gets `0` where nothing gives one. -/
def mapNumber (r : Rule) (number : Option Int) : Option Int :=
  if r.target.hasNumber then some ((mapField r.number number).getD 0) else none

/-- Transforms a message that is no transport message. A release is mapped like a key without
velocity and stays a release. -/
def applyMessage (r : Rule) (e : Event) : Outcome :=
  let channel := mapField r.channel e.channel
  let number := r.mapNumber e.number
  let released := r.releases e
  let mapped := r.mapValue (if released then 0.0 else e.value)
  let full := if released then Binary64.clamp 0.0 r.target.maxValue mapped else mapped
  let value := if r.lowByte.isSome then Float.ofNat (wide full / 128) else full
  let event :=
    if r.target = .exclusive then e.withKind .exclusive
    else if released && r.target = .note then Event.make .noteOff channel number 0.0
    else Event.make r.target channel number value
  { event
    lowByte := r.lowByte.map fun controller =>
      Event.make .control channel (some controller) (Float.ofNat (wide full % 128)) }

/-- What the rule makes of an event. -/
def apply (r : Rule) (e : Event) : Outcome :=
  if e.kind.isTransport then r.applyTransport e.kind else r.applyMessage e

/-! ## One rule per channel -/

/-- The whole numbers from `first` to `last`. -/
def between (first last : Int) : List Int :=
  (List.range (last - first + 1).toNat).map fun (i : Nat) => first + i

/-- A rule whose channels are a span, as one rule for each channel in it. An exclusion or a
single channel stays as it is. -/
def perChannel (r : Rule) : List Rule :=
  match r.channel with
  | some route =>
    if route.isSpan then
      (between (Binary64.ceilInt64 route.min) (Binary64.floorInt64 route.max)).map fun c =>
        { r with channel := some (route.pinned (Float.ofInt c)) }
    else [r]
  | none => [r]

/-- The parts of a rule are the rule with other channels. -/
theorem eq_of_mem_perChannel {r part : Rule} (h : part ∈ r.perChannel) :
    ∃ channel, part = { r with channel } := by
  unfold perChannel at h
  split at h
  · split at h
    · obtain ⟨c, -, rfl⟩ := List.mem_map.mp h
      exact ⟨_, rfl⟩
    · exact ⟨r.channel, List.mem_singleton.mp h⟩
  · exact ⟨r.channel, List.mem_singleton.mp h⟩

end Rule

end MidiRig
