import MidiRig.Number.Shortest
import MidiRig.Rule.Draft

/-!
# Structured rules

The form of a rule in banks and patches: a type such as `note` or `note=cc`, a range for each
field, and the options under their own names.
-/

namespace MidiRig

/-- A range given as a number or as text. -/
inductive Entry where
  | int (n : Int)
  | float (x : Float)
  | text (s : String)
  deriving BEq, Repr

/-- An entry as range text. -/
def Entry.toText : Entry → String
  | int n => toString n
  | float x => Shortest.text x
  | text s => s

structure RuleSpec where
  type : String
  channel : Option Entry
  number : Option Entry
  value : Option Entry
  log : Option Float
  lowByte : Option Int
  counter : Option String
  increment : Option Float
  setting : Option String
  play : Option String
  tempo : Option String
  record : Option String
  swing : Option String
  groove : Option String
  tap : Option String
  arpeggio : Option String
  loop : Option String
  port : Option String
  deriving BEq, Repr

namespace RuleSpec

/-- The options that name effects, in the order in which effects run. -/
def effectOptions (s : RuleSpec) : List (String × String) :=
  [("counter", s.counter), ("fluidsetting", s.setting), ("play", s.play), ("tempo", s.tempo),
    ("record", s.record), ("swing", s.swing), ("groove", s.groove), ("tap", s.tap),
    ("arpeggio", s.arpeggio), ("loop", s.loop), ("fx", s.port)].filterMap
    fun (key, value) => value.map fun v => (key, v)

/-- Names the text that a reason is about. -/
def blame {α : Type} (text : String) : Except Reason α → Except CompileError α
  | .ok a => .ok a
  | .error reason => .error ⟨text, reason⟩

/-- A kind by its name. -/
def readKind (name : String) : Except Reason Kind :=
  match Kind.ofName? name with
  | some kind => .ok kind
  | none => .error (.unknownKind (Text.trim name))

/-- Source and target kind of a type. -/
def readKinds (type : String) : Except Reason (Kind × Kind) := do
  match Text.cutAt '=' type with
  | (source, some target) => return (← readKind source, ← readKind target)
  | (source, none) =>
    let kind ← readKind source
    return (kind, kind)

def readEntry (names : Names) : Option Entry → Except CompileError (Option Route)
  | some entry => do return some (← Range.read names entry.toText).toRoute
  | none => .ok none

/-- Compiles a structured rule. -/
def compile (names : Names) (s : RuleSpec) : Except CompileError Rule := do
  let (kind, target) ← blame s.type (readKinds s.type)
  let channel ← readEntry names s.channel
  let number ← readEntry names s.number
  let value ← readEntry names s.value
  let draft : Draft :=
    { Draft.start kind target with
      channel, number, value, log := s.log, lowByte := s.lowByte, increment := s.increment }
  blame s.type do
    (← s.effectOptions.foldlM (fun d option => d.setOption option.1 option.2) draft).finish

end RuleSpec

end MidiRig
