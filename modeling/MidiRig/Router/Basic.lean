import MidiRig.Config
import MidiRig.Router.Counter
import MidiRig.Router.Tap
import MidiRig.Stage.Basic

/-!
# The router

An event that comes in is first handed to the engine as it is, which applies its own rules to it.
Then the router tries its rules in the order in which they were installed. Each that matches gives
an event, runs its effects on it, and sends what comes out of them.

Rules that only remap channel messages go to the engine's table where native routing is on. The
engine asks the rule added last first, so the table is filled from the newest rule to the oldest.
-/

namespace MidiRig

structure Installed where
  rule : Rule
  scope : Scope
  deriving BEq, Repr

/-- What effects act on. -/
structure Desk where
  counters : Counters
  taps : Dict Taps
  stage : Stage
  deriving Repr

namespace Desk

def call (d : Desk) (player : String) (c : Call) : Desk :=
  { d with stage := d.stage.call player c }

def onEngine (d : Desk) (change : Engine → Engine) : Desk :=
  { d with stage := { d.stage with engine := change d.stage.engine } }

def send (d : Desk) (e : Event) : Desk := d.onEngine fun engine => engine.send e false

/-- A tap for a player, which sets its tempo once there is one. Only positive values are taps. -/
def tap (d : Desk) (config : RouterConfig) (player : String) (beats : Float) : Desk :=
  if beats ≤ 0.0 then d
  else
    let engine := d.stage.engine
    let rule : TapRule := ⟨engine.ticksPerSecond, config.tapRatio, config.tapTimeout⟩
    let (taps, bpm) := ((d.taps.get? player).getD .untapped).tap rule engine.now beats
    let tapped := { d with taps := d.taps.insert player taps }
    match bpm with
    | some bpm => tapped.call player (.tempo bpm)
    | none => tapped

/-- Runs an effect on an event, which it may change. `range` is the value route of the rule. -/
def runEffect (config : RouterConfig) (range : Option Route) (d : Desk) (e : Event) :
    Effect → Desk × Event
  | .counter name increment =>
    let (counters, count) := d.counters.step name range increment e.value
    ({ d with counters }, e.withValue count)
  | .setting name => (d.onEngine fun engine => engine.setSetting name e.value, e)
  | .port effect port => (d.onEngine fun engine => engine.setPort effect port e.value, e)
  | .play player => (d.call player (.play e.value), e)
  | .tempo player => (d.call player (.tempo e.value), e)
  | .record player => (d.call player (.record e.value), e)
  | .swing player => (d.call player (.swing e.value), e)
  | .groove player => (d.call player (.groove [e.value, 1.0]), e)
  | .tap player => (d.tap config player e.value, e)
  | .arpeggio player => (d.call player (.add e), e.withValue 0.0)
  | .loop player => (d.call player (.add e), e)

/-- Runs all effects of a rule, each on the event that the one before it leaves. -/
def runEffects (config : RouterConfig) (rule : Rule) (d : Desk) (e : Event) : Desk × Event :=
  rule.effects.foldl (fun (d, e) effect => d.runEffect config rule.value e effect) (d, e)

/-- A release only reaches the players that hold keys or record them. -/
def runRelease (rule : Rule) (d : Desk) (e : Event) : Desk :=
  rule.effects.foldl
    (fun d effect =>
      match effect with
      | .arpeggio player | .loop player => d.call player (.add e)
      | _ => d)
    d

/-- Applies a rule to an event that it matches, and gives what is sent. -/
def applyRule (config : RouterConfig) (d : Desk) (e : Event) (rule : Rule) :
    Desk × List Event :=
  let outcome := rule.apply e
  let (d, out) :=
    if rule.releases e then (d.runRelease rule outcome.event, outcome.event)
    else d.runEffects config rule outcome.event
  let sent := out :: outcome.lowByte.toList
  (sent.foldl send d, sent)

/-- Applies rules in turn, and gives what is sent. -/
def applyRules (config : RouterConfig) (d : Desk) (e : Event) : List Rule → Desk × List Event
  | [] => (d, [])
  | rule :: rest =>
    let (d, sent) := d.applyRule config e rule
    let (d, more) := applyRules config d e rest
    (d, sent ++ more)

end Desk

structure Router where
  /-- Rules that the router applies, in the order in which they were installed. -/
  rules : List Installed
  /-- Rules that the engine applies, in the order in which they were installed. -/
  native : List Installed
  counters : Counters
  taps : Dict Taps
  config : RouterConfig
  deriving Repr

/-- An event that has been handled: how many rules matched, and what was heard on the way. -/
structure Handled where
  matched : Nat
  heard : List Event
  deriving Repr

namespace Router

def make (config : RouterConfig) : Router :=
  { rules := [], native := [], counters := .empty, taps := .empty, config }

/-! ## Rules -/

/-- Fills the engine's table. -/
def fillTable (r : Router) (engine : Engine) : Engine :=
  r.native.reverse.foldl (fun engine installed => engine.addNative installed.rule)
    engine.clearNative

/-- The rules as which a rule is installed: one for each channel where it names several. -/
def parts (rule : Rule) : List Rule := if rule.kind.hasChannel then rule.perChannel else [rule]

/-- Whether the engine's table takes a rule. -/
def isNative (config : RouterConfig) (rule : Rule) : Bool :=
  config.nativeRouting && rule.isNativeEligible

def install (r : Router) (engine : Engine) (rule : Rule) (scope : Scope) : Router × Engine :=
  let (native, own) := (parts rule).partition (isNative r.config)
  let installed (rules : List Rule) : List Installed := rules.map fun rule => ⟨rule, scope⟩
  let next :=
    { r with rules := r.rules ++ installed own, native := r.native ++ installed native }
  (next, if native.isEmpty then engine else next.fillTable engine)

/-- Takes out all rules. -/
def reset (r : Router) (engine : Engine) : Router × Engine :=
  let next := { r with rules := [], native := [] }
  (next, next.fillTable engine)

/-- Takes out the rules of the patch. -/
def clearPatch (r : Router) (engine : Engine) : Router × Engine :=
  let keep (rules : List Installed) := rules.filter fun installed => installed.scope = .persistent
  let next := { r with rules := keep r.rules, native := keep r.native }
  (next, if r.native.isEmpty then engine else next.fillTable engine)

/-! ## Events -/

/-- The router's rules that match an event. -/
def matching (r : Router) (e : Event) : List Rule :=
  (r.rules.map Installed.rule).filter fun rule => rule.applies e

/-- Handles an event that comes in. -/
def handle (r : Router) (stage : Stage) (e : Event) : Handled × Router × Stage :=
  let received := { stage with engine := stage.engine.send e true }
  let rules := r.matching e
  let (desk, sent) := (Desk.mk r.counters r.taps received).applyRules r.config e rules
  (⟨rules.length, e :: sent⟩, { r with counters := desk.counters, taps := desk.taps }, desk.stage)

end Router

end MidiRig
