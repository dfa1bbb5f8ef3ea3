import MidiRig.Proofs.Stage.Move

/-!
# What nobody looks at

An engine keeps a record of what it has played and routed, and a table of rules of its own. No
player and no effect looks at them. So all that happens on a stage happens in the same way after
another record (`Stage.after`), and is only added to it. What is left of a stage without record and
table is `Stage.blank`; two stages that are alike in this stay so whatever is done on both of them
(`Stage.blank_move`).
-/

namespace MidiRig

/-- What an engine has recorded, and its table. -/
structure Record where
  sent : List Sent
  routed : List Event
  native : List Rule

namespace Engine

def record (e : Engine) : Record := ⟨e.sent, e.routed, e.native⟩

/-- Without record and table. -/
def blank (e : Engine) : Engine := { e with sent := [], routed := [], native := [] }

/-- With another record before its own, and another table. -/
def after (e : Engine) (g : Record) : Engine :=
  { e with sent := g.sent ++ e.sent, routed := g.routed ++ e.routed, native := g.native }

variable (e : Engine) (g : Record)

theorem after_record : e.blank.after e.record = e := by
  unfold after blank record
  simp only [List.append_nil]

theorem act_after (player : Nat) (x : Action) :
    (e.after g).act player x = (e.act player x).after g := by
  cases x with
  | send event =>
    simp only [act, send, after, Bool.false_eq_true, if_false, List.append_assoc]
  | _ => rfl

theorem perform_after (player : Nat) (xs : List Action) :
    (e.after g).perform player xs = (e.perform player xs).after g := by
  induction xs generalizing e with
  | nil => rfl
  | cons x xs ih =>
    show ((e.after g).act player x).perform player xs = _
    rw [act_after]
    exact ih _

theorem foldl_perform_after (answer : Member → List Action) (members : List Member) :
    members.foldl (fun e m => e.perform m.id (answer m)) (e.after g) =
      (members.foldl (fun e m => e.perform m.id (answer m)) e).after g := by
  induction members generalizing e with
  | nil => rfl
  | cons m rest ih =>
    rw [List.foldl_cons, List.foldl_cons, perform_after]
    exact ih _

theorem send_after (event : Event) :
    (e.after g).send event false = (e.send event false).after g := act_after e g 0 (.send event)

theorem popDue?_after (limit : Nat) :
    (e.after g).popDue? limit = (e.popDue? limit).map fun found => (found.1, found.2.after g) := by
  have hfirst : (e.after g).queue.first? = e.queue.first? := rfl
  unfold popDue?
  rw [hfirst]
  cases e.queue.first? with
  | none => rfl
  | some item =>
    by_cases h : item.tick ≤ limit
    · simp only [if_pos h]
      rfl
    · simp only [if_neg h]
      rfl

end Engine

namespace Stage

def blank (s : Stage) : Stage := { s with engine := s.engine.blank }

def after (s : Stage) (g : Record) : Stage := { s with engine := s.engine.after g }

variable (s : Stage) (g : Record)

theorem after_record : s.blank.after s.engine.record = s := by
  unfold after blank
  simp only [Engine.after_record]

theorem ask?_after (asked : Member → Bool) (c : Call) :
    (s.after g).ask? asked c = (s.ask? asked c).map fun t => t.after g := by
  unfold ask?
  show (Member.ask? asked s.engine.moment c s.directory.members).map _ = _
  rw [Option.map_map]
  congr 1
  funext answer
  show Stage.mk ((s.engine.after g).perform answer.id answer.actions) _ = _
  rw [Engine.perform_after]
  rfl

theorem getD_ask?_after (asked : Member → Bool) (c : Call) :
    ((s.after g).ask? asked c).getD (s.after g) = ((s.ask? asked c).getD s).after g := by
  rw [ask?_after]
  cases s.ask? asked c <;> rfl

theorem call_after (name : String) (c : Call) : (s.after g).call name c = (s.call name c).after g :=
  getD_ask?_after s g _ c

theorem callId_after (id : Nat) (c : Call) : (s.after g).callId id c = (s.callId id c).after g :=
  getD_ask?_after s g _ c

theorem callAll_after (c : Call) : (s.after g).callAll c = (s.callAll c).after g := by
  unfold callAll
  show Stage.mk (s.directory.members.foldl _ (s.engine.after g)) _ = _
  rw [Engine.foldl_perform_after]
  rfl

theorem remove_after (name : String) : (s.after g).remove name = (s.remove name).after g := by
  unfold remove
  rw [call_after]
  rfl

theorem create_after (name : String) (d : PlayerDef) :
    (s.after g).create name d = (s.create name d).map fun made => (made.1, made.2.after g) := by
  unfold create
  rw [remove_after]
  cases d.validate name with
  | error fault => rfl
  | ok _ => rfl

theorem add_after (name : String) (d : PlayerDef) :
    (s.after g).add name d = (s.add name d).map fun added => (added.1, added.2.after g) := by
  have hfind : (s.after g).directory.find? name = s.directory.find? name := rfl
  unfold add
  rw [create_after, hfind]
  cases s.directory.find? name with
  | none => rfl
  | some member =>
    by_cases h : member.definition == d
    · simp only [if_pos h]
      rfl
    · simp only [if_neg h]

theorem deliver_after (item : Item) : (s.after g).deliver item = (s.deliver item).after g := by
  unfold deliver
  cases item.due with
  | callback player => exact callId_after s g player .wake
  | event player e =>
    show Stage.mk ((s.engine.after g).send e false) _ = _
    rw [Engine.send_after]
    rfl

end Stage

/-- Moves that at most add to the record, and leave the table alone. -/
def Move.Adds : Move → Prop
  | .use (.send _ routed) => routed = false
  | .use .clearSent | .table _ => False
  | _ => True

namespace Stage

variable {s : Stage}

/-- The record does not matter for what is done, and what is done is added to it. -/
theorem move_after (s : Stage) (g : Record) {mv : Move} (h : mv.Adds) :
    (s.after g).move mv = (s.move mv).after g := by
  cases mv with
  | call name c => exact call_after s g name c
  | wake id => exact callId_after s g id .wake
  | report position => exact callAll_after s g _
  | add name d =>
    simp only [move, add_after]
    cases s.add name d <;> rfl
  | remove name => exact remove_after s g name
  | use u =>
    cases u with
    | send event routed =>
      obtain rfl : routed = false := h
      exact congrArg (fun engine => ({ s with engine } : Stage))
        (Engine.send_after s.engine g event)
    | clearSent => exact h.elim
    | _ => rfl
  | table rules => exact h.elim
  | deliver limit =>
    have hpop := Engine.popDue?_after s.engine g limit
    simp only [move]
    rw [show (s.after g).engine.popDue? limit = _ from hpop]
    cases s.engine.popDue? limit with
    | none => rfl
    | some found => exact deliver_after { s with engine := found.2 } g found.1

/-- Without record and table, a move does what it does with them. -/
theorem blank_move (s : Stage) (mv : Move) : (s.move mv).blank = (s.blank.move mv).blank := by
  by_cases h : mv.Adds
  · have hmove := move_after s.blank s.engine.record h
    rw [after_record] at hmove
    rw [hmove]
    rfl
  · cases mv with
    | use u => cases u <;> rfl
    | table rules => rfl
    | _ => exact absurd trivial h

end Stage

/-! ## The table -/

/-- Moves that leave the table of the engine alone. -/
def Move.KeepsTable (mv : Move) : Prop := ∀ rules, mv ≠ .table rules

namespace Stage

variable {s : Stage}

theorem native_move {mv : Move} (h : mv.KeepsTable) :
    (s.move mv).engine.native = s.engine.native := by
  by_cases hadds : mv.Adds
  · have hmove := move_after s.blank s.engine.record hadds
    rw [after_record] at hmove
    rw [hmove]
    rfl
  · cases mv with
    | use u => cases u <;> rfl
    | table rules => exact absurd rfl (h rules)
    | _ => exact absurd trivial hadds

theorem native_run {moves : List Move} (h : ∀ mv ∈ moves, mv.KeepsTable) :
    (s.run moves).engine.native = s.engine.native := by
  induction moves generalizing s with
  | nil => rfl
  | cons mv rest ih =>
    rw [run, ih fun x hx => h x (List.mem_cons_of_mem _ hx), native_move (h mv List.mem_cons_self)]

end Stage

end MidiRig
