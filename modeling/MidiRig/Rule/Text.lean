import MidiRig.Rule.Spec

/-!
# Rules in one line

`SOURCE[=TARGET] [key=value …]`, where each side is a kind and up to three ranges:
`kind:channel/number/value`. A range on the left is what the rule matches and one on the right is
what it gives; with only one of them, the left one passes its values on and the right one is
reached from the whole domain of the field.
-/

namespace MidiRig.Rule

/-- One side: a kind and the texts of its ranges. -/
structure Side where
  kind : Kind
  channel : Option String
  number : Option String
  value : Option String
  deriving Repr

/-- A range that is not left out. -/
def written (field : String) : Option String :=
  let text := Text.trim field
  if text.isEmpty then none else some text

/-- Reads one side. -/
def readSide (side : String) : Except Reason Side := do
  let (name, rest) := Text.cutAt ':' side
  let some kind := Kind.ofName? name | throw (.unknownKind name)
  let fields := (rest.map (Text.pieces '/')).getD []
  if 3 < fields.length then throw .tooManyFields
  let field (i : Nat) : Option String := fields[i]?.bind written
  return { kind, channel := field 0, number := field 1, value := field 2 }

/-- Whether a text starts with the name of a kind, up to a colon. -/
def opensSide (text : List Char) : Bool :=
  (Kind.ofName? (String.ofList (text.takeWhile (· != ':')))).isSome

/-- Splits at the first equals sign that a kind follows; `before` is what was passed over, last
character first. -/
def splitSides (before : List Char) : List Char → List Char × Option (List Char)
  | [] => (before.reverse, none)
  | c :: cs =>
    if c = '=' ∧ opensSide cs then (before.reverse, some cs) else splitSides (c :: before) cs

/-- A range that may be left out. -/
def readField (names : Names) : Option String → Except CompileError (Option Range)
  | some text => some <$> Range.read names text
  | none => .ok none

/-- The route of one field from the ranges on both sides. -/
def joinField (text : String) (domain : Option Range) :
    Option Range → Option Range → Except CompileError (Option Route)
  | some left, some right => do
    return some (← RuleSpec.blame text (Range.combine left right)).toRoute
  | some left, none => .ok (some left.toRoute)
  | none, some right =>
    match domain with
    | some domain => do
      return some (← RuleSpec.blame text (Range.combine domain right)).toRoute
    | none => .ok (some right.toRoute)
  | none, none => .ok none

/-- Reads and joins the ranges of one field. -/
def compileField (names : Names) (text : String) (domain : Option Range)
    (left right : Option String) : Except CompileError (Option Route) := do
  let left ← readField names left
  let right ← readField names right
  joinField text domain left right

/-- Takes in one option. -/
def readOption (d : Draft) (token : String) : Except Reason Draft :=
  match Text.cutAt '=' token with
  | (key, some value) => d.setOption key value
  | (_, none) => .error (.notAnOption token)

/-- Compiles a rule in one line. -/
def ofText (names : Names) (text : String) : Except CompileError Rule := do
  let head :: options := Text.words text | throw ⟨text, .emptyRule⟩
  let (leftText, rightText) := splitSides [] head.toList
  let left ← RuleSpec.blame text (readSide (String.ofList leftText))
  let right ← RuleSpec.blame text (rightText.mapM fun cs => readSide (String.ofList cs))
  let field (domain : Option Range) (get : Side → Option String) :=
    compileField names text domain (get left) (right.bind get)
  let channel ← field (Draft.channelDomain? left.kind) Side.channel
  let number ← field (Draft.numberDomain? left.kind) Side.number
  let value ← field (Draft.valueDomain? left.kind) Side.value
  let target := (right.map Side.kind).getD left.kind
  let draft : Draft := { Draft.start left.kind target with channel, number, value }
  RuleSpec.blame text do (← options.foldlM readOption draft).finish

end MidiRig.Rule
