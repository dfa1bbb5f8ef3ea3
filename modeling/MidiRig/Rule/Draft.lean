import MidiRig.Fault
import MidiRig.Number.Decimal
import MidiRig.Rule.Basic
import MidiRig.Rule.Range

/-!
# Rules under construction

Both ways of writing a rule fill a draft. Finishing it checks what was filled in and gives every
field that the rule's kind carries a route: where none was written, one that accepts all values of
the field and passes them unchanged.
-/

namespace MidiRig

structure Draft where
  kind : Kind
  target : Kind
  channel : Option Route
  number : Option Route
  value : Option Route
  log : Option Float
  lowByte : Option Int
  /-- Step of the rule's counters. -/
  increment : Option Float
  effects : List Effect

namespace Draft

def start (kind target : Kind) : Draft :=
  { kind, target, channel := none, number := none, value := none, log := none, lowByte := none,
    increment := none, effects := [] }

/-! ## Default domains -/

def channelDomain? (kind : Kind) : Option Range :=
  if kind.hasChannel then some (Range.identity 1.0 16.0) else none

def numberDomain? (kind : Kind) : Option Range :=
  if kind.hasNumber then some (Range.identity 0.0 127.0) else none

def valueDomain? (kind : Kind) : Option Range :=
  if kind.hasChannel then some (Range.identity 0.0 kind.maxValue) else none

/-! ## Options -/

/-- A number given for an option. -/
def readNumber (key value : String) : Except Reason Float :=
  match Decimal.readFloat? (Text.trimChars value.toList) with
  | some x => .ok x
  | none => .error (.numberExpected key value)

/-- The effect that an option names, for a value without blanks around it. -/
def readEffect (key name : String) : Except Reason Effect :=
  match key with
  | "counter" => .ok (.counter name 1.0)
  | "fluidsetting" => .ok (.setting name)
  | "play" => .ok (.play name)
  | "tempo" => .ok (.tempo name)
  | "record" => .ok (.record name)
  | "swing" => .ok (.swing name)
  | "groove" => .ok (.groove name)
  | "tap" => .ok (.tap name)
  | "arpeggio" => .ok (.arpeggio name)
  | "loop" => .ok (.loop name)
  | "fx" =>
    match Text.cutAt '>' name with
    | (effect, some port) =>
      if effect.isEmpty || port.isEmpty then .error .effectPort else .ok (.port effect port)
    | _ => .error .effectPort
  | _ => .error (.unknownOption key)

/-- Takes in one option. -/
def setOption (d : Draft) (key value : String) : Except Reason Draft := do
  let name := Text.trim value
  if name.isEmpty then throw (.missingValue key)
  match key with
  | "log" => return { d with log := some (← readNumber key value) }
  | "lsb" =>
    let controller ← readNumber key value
    if Binary64.isWhole controller then
      return { d with lowByte := some (Binary64.toInt32 controller) }
    else throw .lowByteNotWhole
  | "inc" => return { d with increment := some (← readNumber key value) }
  | _ => return { d with effects := d.effects ++ [← readEffect key name] }

/-! ## Finishing -/

/-- A field may be written if one of the two kinds carries it. -/
def checkField (d : Draft) (field : String) (route : Option Route) (carries : Kind → Bool) :
    Except Reason Unit :=
  if route.isNone || carries d.kind || carries d.target then .ok ()
  else .error (.idleField field d.kind d.target)

def checkLog : Option Float → Except Reason Unit
  | some x =>
    if Binary64.isFinite x && x != 0.0 then .ok () else .error .curveOutOfRange
  | none => .ok ()

def checkLowByte : Option Int → Except Reason Unit
  | some n => if 0 ≤ n ∧ n ≤ 127 then .ok () else .error .lowByteOutOfRange
  | none => .ok ()

def isCounter : Effect → Bool
  | .counter .. => true
  | _ => false

/-- Gives every counter the step. -/
def setIncrement (step : Float) : Effect → Effect
  | .counter name _ => .counter name step
  | effect => effect

/-- The effects with the draft's step, which makes no sense without a counter. -/
def finishEffects (d : Draft) : Except Reason (List Effect) :=
  match d.increment with
  | none => .ok d.effects
  | some step =>
    if d.effects.any isCounter then .ok (d.effects.map (setIncrement step))
    else .error .incrementWithoutCounter

/-- The written route, or the one of the default domain. -/
def orDefault (route : Option Route) (domain : Option Range) : Option Route :=
  route <|> domain.map Range.toRoute

def finish (d : Draft) : Except Reason Rule := do
  d.checkField "chan" d.channel Kind.hasChannel
  d.checkField "num" d.number Kind.hasNumber
  checkLog d.log
  checkLowByte d.lowByte
  let effects ← d.finishEffects
  return {
    kind := d.kind
    target := d.target
    channel := orDefault d.channel (channelDomain? d.kind)
    number := orDefault d.number (numberDomain? d.kind)
    value := orDefault d.value (valueDomain? d.kind)
    log := d.log
    lowByte := d.lowByte
    effects }

end Draft

end MidiRig
