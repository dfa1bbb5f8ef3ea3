import MidiRig.Event.Kind

/-!
# Faults

What can be wrong with a rule, a range, an event text, a player definition, a configuration or a
bank. A fault names its cause; `message` words it. Only loading can fail: once a rule or a player
is in place, every operation is total.
-/

namespace MidiRig

/-- Why a fragment of text is refused. -/
inductive Reason where
  /-- An event text that starts with no kind. -/
  | notAKind
  /-- A rule that names no kind. -/
  | unknownKind (name : String)
  | payloadNotHex
  | payloadOddLength
  | fieldCount (kind : Kind) (expected found : Nat)
  | notAnInteger (field : String)
  | notANumber (field : String)
  | unresolvedSymbol (word : String)
  | malformedRange
  /-- A left range that transforms and a right range at once. -/
  | twoTransforms
  | emptyRule
  | tooManyFields
  | notAnOption (token : String)
  | missingValue (key : String)
  | numberExpected (key value : String)
  | lowByteNotWhole
  | effectPort
  | unknownOption (key : String)
  /-- A field that neither kind of the rule carries. -/
  | idleField (field : String) (kind target : Kind)
  | curveOutOfRange
  | lowByteOutOfRange
  | incrementWithoutCounter
  deriving DecidableEq, Repr

namespace Reason

def message : Reason → String
  | notAKind => "unknown event type"
  | unknownKind name => "unknown event type '" ++ name ++ "'"
  | payloadNotHex => "sysex payload is not hexadecimal"
  | payloadOddLength => "sysex payload needs whole bytes"
  | fieldCount kind expected found =>
    kind.name ++ " events take " ++ toString expected ++ " fields, found " ++ toString found
  | notAnInteger field => "'" ++ field ++ "' is not an integer"
  | notANumber field => "'" ++ field ++ "' is not a number"
  | unresolvedSymbol word => "unresolved symbol '" ++ word ++ "'"
  | malformedRange => "malformed range, expected A, A-B, A-B*M+C or A-B=C-D"
  | twoTransforms => "a transforming match range cannot be combined with a destination range"
  | emptyRule => "empty rule"
  | tooManyFields => "expected at most chan/num/val"
  | notAnOption token => "expected key=value, got '" ++ token ++ "'"
  | missingValue key => key ++ " needs a value"
  | numberExpected key value => key ++ " expects a number, got '" ++ value ++ "'"
  | lowByteNotWhole => "lsb must be a controller number"
  | effectPort => "fx expects 'effect>port'"
  | unknownOption key => "unknown key '" ++ key ++ "'"
  | idleField field kind target =>
    field ++ " does not apply to " ++ kind.name ++ " or " ++ target.name
  | curveOutOfRange => "log must be a finite, non-zero number"
  | lowByteOutOfRange => "lsb must be between 0 and 127"
  | incrementWithoutCounter => "inc requires a counter"

end Reason

/-- A fragment that does not compile, and why. -/
structure CompileError where
  text : String
  reason : Reason
  deriving DecidableEq, Repr

def CompileError.message (e : CompileError) : String :=
  "cannot compile '" ++ e.text ++ "': " ++ e.reason.message

/-- What is wrong with a player definition. -/
inductive PlayerProblem where
  | noPatterns
  | emptyPattern (index : Nat)
  | noSubdivision
  | missingPattern (entry : Int)
  | neverPlays
  | loopLength
  | noFile
  | jumpBar
  deriving DecidableEq, Repr

def PlayerProblem.message : PlayerProblem → String
  | noPatterns => "no patterns"
  | emptyPattern index => "pattern " ++ toString index ++ " has no steps"
  | noSubdivision => "tdiv must be positive"
  | missingPattern entry => "order refers to missing pattern " ++ toString entry
  | neverPlays => "order never plays a pattern"
  | loopLength => "beats must be a positive number"
  | noFile => "no file given"
  | jumpBar => "jump bars are counted from 1"

/-- What is wrong with a configuration, or with a request to a bank. -/
inductive SetupProblem where
  | tickRate
  | tempo
  | tapRatio
  | noPatch (name : String)
  deriving DecidableEq, Repr

def SetupProblem.message : SetupProblem → String
  | tickRate => "ticks_per_second must be positive"
  | tempo => "default_tempo must be positive"
  | tapRatio => "tap_ratio must be between 0 and 1"
  | noPatch name => "no patch named '" ++ name ++ "'"

/-- Everything that loading can answer instead of a result. -/
inductive Fault where
  | compile (error : CompileError)
  | setup (problem : SetupProblem)
  | player (name : String) (problem : PlayerProblem)
  /-- A text that is no document, or a document of another shape. -/
  | document
  deriving DecidableEq, Repr

def Fault.message : Fault → String
  | compile error => error.message
  | setup problem => "Configuration error: " ++ problem.message
  | player name problem => "Invalid player '" ++ name ++ "': " ++ problem.message
  | document => "malformed document"

end MidiRig
