import MidiRig.Event.Bytes
import MidiRig.Router.Basic
import MidiRig.Rule.Text
import MidiRig.Setup.Bank
import MidiRig.Stage.Drain

/-!
# Sessions

A session ties names, router, players and engine together: it compiles and installs rules, takes
events and lets time pass, and switches patches. What it hears it reports to a monitor and to a
channel. Switching to a patch keeps persistent rules and the players that do not change; all of
the patch is compiled and checked before anything changes.
-/

namespace MidiRig

structure Session where
  stage : Stage
  router : Router
  /-- Names that ranges may use. -/
  names : Names
  config : Config
  /-- Whether the monitor listens. -/
  monitoring : Bool
  /-- What the monitor has heard. -/
  seen : List Event
  /-- What waits in the channel, where one is open. -/
  channel : Option (List Event)
  deriving Repr

namespace Session

def make (config : Config) : Session :=
  { stage := .make config.sequencer.ticksPerSecond config.sequencer
    router := .make config.router
    names := .empty
    config
    monitoring := false
    seen := []
    channel := none }

/-! ## Parts -/

/-- Changes the engine. -/
def onEngine (s : Session) (change : Engine → Engine) : Session :=
  { s with stage := { s.stage with engine := change s.stage.engine } }

/-- Changes router and engine together. -/
def onRouter (s : Session) (change : Router → Engine → Router × Engine) : Session :=
  let (router, engine) := change s.router s.stage.engine
  { s with router, stage := { s.stage with engine } }

/-! ## Listening -/

/-- Tells monitor and channel what has been heard. -/
def report (s : Session) (heard : List Event) : Session :=
  { s with
    seen := if s.monitoring then s.seen ++ heard else s.seen
    channel := s.channel.map fun waiting => waiting ++ heard }

def setMonitor (s : Session) : Session := { s with monitoring := true }

def clearMonitor (s : Session) : Session := { s with monitoring := false }

/-- Opens a channel in place of the one before. -/
def openChannel (s : Session) : Session := { s with channel := some [] }

def closeChannel (s : Session) : Session := { s with channel := none }

/-- Takes what waits in the channel. -/
def drainChannel (s : Session) : Session := { s with channel := s.channel.map fun _ => [] }

/-! ## Rules -/

/-- Compiles a rule in one line. -/
def compile (s : Session) (text : String) : Except Fault Rule :=
  (Rule.ofText s.names text).mapError .compile

/-- Compiles a structured rule. -/
def compileSpec (s : Session) (spec : RuleSpec) : Except Fault Rule :=
  (spec.compile s.names).mapError .compile

/-- The route that a range text stands for. -/
def route (s : Session) (text : String) : Except Fault Route :=
  ((Range.read s.names text).map Range.toRoute).mapError .compile

def setName (s : Session) (name value : String) : Session :=
  { s with names := s.names.insert name value }

def install (s : Session) (rule : Rule) (scope : Scope) : Session :=
  s.onRouter fun router engine => router.install engine rule scope

/-- Compiles and installs a rule in one line. -/
def addRule (s : Session) (text : String) (scope : Scope) : Except Fault Session := do
  return s.install (← s.compile text) scope

/-- Compiles and installs a structured rule. -/
def addSpec (s : Session) (spec : RuleSpec) (scope : Scope) : Except Fault Session := do
  return s.install (← s.compileSpec spec) scope

def resetRules (s : Session) : Session := s.onRouter Router.reset

/-! ## Events -/

/-- Takes an event, and tells how many rules have matched. -/
def handle (s : Session) (e : Event) : Nat × Session :=
  let (handled, router, stage) := s.router.handle s.stage e
  (handled.matched, { s with router, stage }.report handled.heard)

/-- Takes a message in bytes. Bytes that are no message are ignored. -/
def handleBytes (s : Session) (bytes : List UInt8) : Option Session :=
  (Event.ofBytes? bytes).map fun e => (s.handle e).2

/-! ## Players -/

def addPlayer (s : Session) (name : String) (d : PlayerDef) : Except Fault (Nat × Session) := do
  let (id, stage) ← s.stage.add name d
  return (id, { s with stage })

def removePlayer (s : Session) (name : String) : Session :=
  { s with stage := s.stage.remove name }

/-- Calls a player that is there. -/
def call? (s : Session) (name : String) (c : Call) : Option Session :=
  (s.stage.call? name c).map fun stage => { s with stage }

/-- A callback has come for a player. -/
def wake (s : Session) (player : Nat) : Session := { s with stage := s.stage.callId player .wake }

/-- The file that plays has reached a position. -/
def fileTick (s : Session) (position : Nat) : Session :=
  { s with stage := s.stage.callAll (.fileTick position) }

/-- The events among delivered items. -/
def played (items : List Item) : List Event :=
  items.filterMap fun item =>
    match item.due with
    | .event _ e => some e
    | .callback _ => none

/-- Lets time pass until a tick. -/
def advance (s : Session) (tick : Nat) : Session :=
  let (items, stage) := s.stage.advance tick
  { s with stage }.report (played items)

/-! ## Patches -/

/-- The rules of a bank and one of its patches. -/
def patchRules (bank : Bank) (patch : Patch) : Except Fault (List Rule) :=
  ((bank.rules ++ patch.rules).mapM fun spec => RuleSpec.compile bank.names spec).mapError
    .compile

/-- Adds a player that has been checked before. -/
def settle (stage : Stage) (name : String) (d : PlayerDef) : Stage :=
  match stage.add name d with
  | .ok (_, added) => added
  | .error _ => stage

/-- Makes the players of a patch those that there are. -/
def settleAll (stage : Stage) (players : Dict PlayerDef) : Stage :=
  players.entries.foldl (fun stage entry => settle stage entry.1 entry.2)
    (stage.keepOnly players.names)

/-- Switches to a patch. -/
def applyPatch (s : Session) (bank : Bank) (patch : Patch) : Except Fault Session := do
  let rules ← patchRules bank patch
  patch.players.entries.forM fun entry => entry.2.validate entry.1
  let cleared := { s with names := bank.names }.onRouter Router.clearPatch
  let ruled := rules.foldl (fun s rule => s.install rule .patch) cleared
  return { ruled with stage := settleAll ruled.stage patch.players }

/-- Switches to the patch of a name. -/
def selectPatch (s : Session) (bank : Bank) (name : String) : Except Fault Session := do
  s.applyPatch bank (← bank.patch name)

end Session

end MidiRig
