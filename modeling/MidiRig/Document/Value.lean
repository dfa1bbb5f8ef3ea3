import MidiRig.Number.Binary64

/-!
# Document values

What a configuration or bank file holds, whichever way it is written: scalars, lists and tables.
A table keeps the order in which its entries were written.
-/

namespace MidiRig

inductive Value where
  /-- Nothing, where a field may be left out. -/
  | null
  | bool (b : Bool)
  | int (n : Int)
  | float (x : Float)
  | text (s : String)
  /-- A date, a time or both, as written. -/
  | moment (s : String)
  | list (items : List Value)
  | table (entries : List (String × Value))
  deriving Inhabited, BEq, Repr

namespace Value

/-! ## Scalars -/

def bool? : Value → Option Bool
  | bool b => some b
  | _ => none

/-- An integer between `lo` and `hi`. -/
def intWithin? (lo hi : Int) : Value → Option Int
  | int n => if lo ≤ n ∧ n ≤ hi then some n else none
  | _ => none

def int32? (v : Value) : Option Int := v.intWithin? Binary64.minInt32 Binary64.maxInt32

def int64? (v : Value) : Option Int := v.intWithin? Binary64.minInt64 Binary64.maxInt64

def word32? (v : Value) : Option Nat := (v.intWithin? 0 Binary64.maxWord32).map Int.toNat

def word64? (v : Value) : Option Nat := (v.intWithin? 0 Binary64.maxWord64).map Int.toNat

/-- A number; an integer counts as the nearest double. -/
def float? : Value → Option Float
  | float x => some x
  | int n => some (Float.ofInt n)
  | _ => none

def text? : Value → Option String
  | text s => some s
  | _ => none

/-! ## Lists and tables -/

def listOf? {α : Type} (read : Value → Option α) : Value → Option (List α)
  | list items => items.mapM read
  | _ => none

/-- A table read entry by entry. -/
def tableOf? {α : Type} (read : Value → Option α) : Value → Option (List (String × α))
  | table entries => entries.mapM fun (key, v) => (read v).map fun a => (key, a)
  | _ => none

/-- A value that may be left out. -/
def maybe? {α : Type} (read : Value → Option α) : Value → Option (Option α)
  | null => some none
  | v => (read v).map some

/-! ## Structures -/

/-- The fields of a structure by name. A list gives the fields in the order of `known`. In a
`closed` structure no other field may be written. -/
def fields? (known : List String) (closed : Bool) : Value → Option (List (String × Value))
  | table entries =>
    if closed && !entries.all (fun entry => known.contains entry.1) then none else some entries
  | list items => if known.length < items.length then none else some (known.zip items)
  | _ => none

/-- A field that has a value of its own where it is not written. -/
def field? {α : Type} (fields : List (String × Value)) (name : String) (read : Value → Option α)
    (absent : α) : Option α :=
  match fields.lookup name with
  | some v => read v
  | none => some absent

/-- A field that must be written. -/
def required? {α : Type} (fields : List (String × Value)) (name : String)
    (read : Value → Option α) : Option α :=
  (fields.lookup name).bind read

/-- A field that may be left out. -/
def optional? {α : Type} (fields : List (String × Value)) (name : String)
    (read : Value → Option α) : Option (Option α) :=
  field? fields name (maybe? read) none

end Value

end MidiRig
