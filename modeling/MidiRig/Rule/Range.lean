import MidiRig.Data.Dict
import MidiRig.Fault
import MidiRig.Route
import MidiRig.Rule.NoteName

/-!
# Ranges

The text of one field of a rule:

* `A` or `A-B`, a domain whose values pass unchanged,
* `A-B*M+C`, a domain with a factor and an offset,
* `A-B=C-D`, a domain and the range onto which it is stretched.

`A` to `D` are numbers or note names with an optional sign, `M` and `C` are numbers. A missing `B`
is `A`, a missing `D` is `C`, and a missing offset is `0`. Blanks do not count. Words of the names
table are replaced before anything else is looked at.
-/

namespace MidiRig

/-- Names that stand for text in ranges. -/
abbrev Names := Dict String

/-- How a range maps its domain. -/
inductive Transform where
  | identity
  | affine (mul add : Float)
  | fromTo (toMin toMax : Float)
  deriving BEq, Repr

structure Range where
  min : Float
  max : Float
  transform : Transform
  deriving BEq, Repr

namespace Range

def identity (min max : Float) : Range := ⟨min, max, .identity⟩

/-- Whether values pass unchanged. -/
def isPlain (r : Range) : Bool :=
  match r.transform with
  | .identity => true
  | _ => false

def toRoute (r : Range) : Route :=
  match r.transform with
  | .identity => Route.identity r.min r.max
  | .affine mul add => Route.affine r.min r.max mul add
  | .fromTo toMin toMax => Route.fromTo r.min r.max toMin toMax

/-- Joins the range that a rule matches with the range that it gives. The left side has the
domain and must be plain; a plain right side is what the domain is stretched onto, any other
lends its transform. -/
def combine (left right : Range) : Except Reason Range :=
  if left.isPlain then
    .ok { left with
      transform :=
        match right.transform with
        | .identity => .fromTo right.min right.max
        | transform => transform }
  else .error .twoTransforms

/-! ## Words -/

def isWordStart (c : Char) : Bool := c.isAlpha || c == '_'

def isWordChar (c : Char) : Bool := c.isAlphanum || c == '_' || c == '.'

/-- A text cut into words and the single characters between them. -/
inductive Piece where
  | word (letters : List Char)
  | other (c : Char)
  deriving DecidableEq, Repr

/-- Cuts a text into pieces; `current` holds the letters of the word being read, last first. -/
def cut (current : List Char) : List Char → List Piece
  | [] => if current.isEmpty then [] else [.word current.reverse]
  | c :: cs =>
    if current.isEmpty then
      if isWordStart c then cut [c] cs else .other c :: cut [] cs
    else if isWordChar c then cut (c :: current) cs
    else .word current.reverse :: .other c :: cut [] cs

def wordsOf (cs : List Char) : List String :=
  (cut [] cs).filterMap fun
    | .word letters => some (String.ofList letters)
    | .other _ => none

/-- Replaces each word that has an entry in the table. -/
def substitute (names : Names) (cs : List Char) : List Char :=
  (cut [] cs).flatMap fun
    | .word letters =>
      match names.get? (String.ofList letters) with
      | some value => value.toList
      | none => letters
    | .other c => [c]

/-! ## The grammar -/

/-- A number without a sign in front of a text: digits, or digits, a point and digits, where the
digits before the point may be missing. -/
def splitNumber? (cs : List Char) : Option (Float × List Char) :=
  let (whole, rest) := Decimal.spanDigits cs
  let plain :=
    if whole.isEmpty then none else some (Decimal.scaled (Decimal.digitsValue whole) 0, rest)
  match rest with
  | '.' :: tail =>
    let (fraction, rest) := Decimal.spanDigits tail
    if fraction.isEmpty then plain
    else
      some (Decimal.scaled (Decimal.digitsValue (whole ++ fraction)) (-(fraction.length : Int)),
        rest)
  | _ => plain

def negateIf (negative : Bool) (x : Float) : Float := if negative then -x else x

/-- A number with an optional sign. -/
def splitSigned? (cs : List Char) : Option (Float × List Char) :=
  let (negative, cs) := Decimal.splitSign cs
  (splitNumber? cs).map fun (x, rest) => (negateIf negative x, rest)

/-- A number or note name with an optional sign. -/
def splitToken? (cs : List Char) : Option (Float × List Char) :=
  let (negative, body) := Decimal.splitSign cs
  match NoteName.split? body with
  | some (n, rest) => some (Float.ofInt (if negative then -n else n), rest)
  | none => splitSigned? cs

/-- One token, or two with a dash between them; the second is the first where it is missing. -/
def splitPair? (cs : List Char) : Option ((Float × Float) × List Char) := do
  let (first, rest) ← splitToken? cs
  match rest with
  | '-' :: tail =>
    let (second, rest) ← splitToken? tail
    return ((first, second), rest)
  | _ => return ((first, first), rest)

/-- The offset after a factor: nothing, or a number with its sign. -/
def readOffset? : List Char → Option Float
  | [] => some 0.0
  | c :: cs =>
    if c = '+' ∨ c = '-' then
      match splitSigned? (c :: cs) with
      | some (x, []) => some x
      | _ => none
    else none

/-- What follows the domain. -/
def readTransform? : List Char → Option Transform
  | [] => some .identity
  | '*' :: cs => do
    let (mul, rest) ← splitSigned? cs
    return .affine mul (← readOffset? rest)
  | '=' :: cs =>
    match splitPair? cs with
    | some ((toMin, toMax), []) => some (.fromTo toMin toMax)
    | _ => none
  | _ => none

/-- Reads a range that has no blanks and no names left. -/
def readResolved? (cs : List Char) : Option Range := do
  let ((min, max), rest) ← splitPair? cs
  return ⟨min, max, ← readTransform? rest⟩

/-- Why a resolved text is no range: a word that is no note name, or its form. -/
def refusal (cs : List Char) : Reason :=
  match (wordsOf cs).find? fun word => (NoteName.read? word).isNone with
  | some word => .unresolvedSymbol word
  | none => .malformedRange

/-- The text with its names replaced and its blanks taken out. -/
def resolve (names : Names) (text : String) : List Char :=
  let trimmed := Text.trimChars text.toList
  Text.squeeze (if names.isEmpty then trimmed else substitute names trimmed)

/-- Reads the text of a range. -/
def read (names : Names) (text : String) : Except CompileError Range :=
  let resolved := resolve names text
  match readResolved? resolved with
  | some range => .ok range
  | none => .error ⟨text, refusal resolved⟩

end Range

end MidiRig
