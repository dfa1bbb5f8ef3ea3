import MidiRig.Clock.Tempo

/-!
# The order of patterns

The order of a sequence is a list of entries. A positive entry plays that pattern, `0` stops, and
`-n` goes back by `n` entries, to the start at most. An entry that goes back does so once a pass
and is passed over after that. At the end of the list the next pass begins.
-/

namespace MidiRig

/-- A place in an order. -/
structure Cursor where
  position : Nat
  /-- For each entry whether it has gone back in this pass. -/
  jumped : List Bool
  /-- Passes that are left, this one included; `none` for ever. -/
  passes : Option Nat
  deriving DecidableEq, Repr

/-- What an order does at one place. -/
inductive Turn where
  | plays (pattern : Nat) (c : Cursor)
  | moves (c : Cursor)
  | ends
  deriving DecidableEq, Repr

namespace Cursor

/-- The first place, with no entry used. -/
def start (entries : Nat) (passes : Option Nat) : Cursor :=
  { position := 0, jumped := List.replicate entries false, passes }

/-- The entry after this one. -/
def next (c : Cursor) : Cursor := { c with position := c.position + 1 }

/-- At the end the next pass, if there is one. -/
def wrap? (c : Cursor) (entries : Nat) : Option Cursor :=
  if c.position < entries then some c
  else
    match c.passes with
    | none => some (start entries none)
    | some n => if n ≤ 1 then none else some (start entries (some (n - 1)))

/-- Goes back by `n` entries, unless this entry has done so before. -/
def goBack (c : Cursor) (n : Nat) : Cursor :=
  if c.jumped.getD c.position false then c.next
  else { c with jumped := c.jumped.set c.position true, position := c.position - n }

/-- Does what the entry says. -/
def follow (patterns : Nat) (entry : Int) (c : Cursor) : Turn :=
  if entry = 0 then .ends
  else if entry < 0 then .moves (c.goBack entry.natAbs)
  else if entry ≤ patterns then .plays (entry.toNat - 1) c
  else .moves c.next

/-- One turn: a new pass where one is due, then the entry. -/
def turn (order : List Int) (patterns : Nat) (c : Cursor) : Turn :=
  match c.wrap? order.length with
  | none => .ends
  | some c =>
    match order[c.position]? with
    | some entry => follow patterns entry c
    | none => .ends

/-- The next pattern, found within a number of turns. -/
def find? (order : List Int) (patterns : Nat) : (turns : Nat) → Cursor → Option (Nat × Cursor)
  | 0, _ => none
  | turns + 1, c =>
    match c.turn order patterns with
    | .plays pattern c => some (pattern, c)
    | .moves c => find? order patterns turns c
    | .ends => none

/-- Turns that a search for the next pattern may take. -/
def turnLimit (order : List Int) : Nat := 2 * order.length + 2

/-- The next pattern and the place of its entry, or nothing where the sequence ends. -/
def pattern? (order : List Int) (patterns : Nat) (c : Cursor) : Option (Nat × Cursor) :=
  find? order patterns (turnLimit order) c

end Cursor

end MidiRig
