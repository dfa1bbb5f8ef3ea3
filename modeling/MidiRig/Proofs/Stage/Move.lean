import MidiRig.Proofs.Stage.Members
import MidiRig.Stage.Drain

/-!
# What happens on a stage, one thing at a time

Whatever a session does to its stage is a list of moves: a player is called, added or removed, the
engine is used directly, its table is filled, an item that is due is delivered. `Stage.ledger` is
what players play in a move: events of the queue that are delivered, and events that are sent at
once. The engine's own record does not tell whose an event is, so this is where it is kept; apart
from that the two agree (`Stage.sent_move`).
-/

namespace MidiRig

/-! ## Moves -/

/-- Uses of the engine that leave its queue and its table alone. -/
inductive EngineUse where
  | setTick (tick : Nat)
  | send (e : Event) (routed : Bool)
  | clearSent
  | setting (name : String) (value : Float)
  | port (effect port : String) (value : Float)
  | resolution (ticks : Nat)
  | filePlay (path : Path)
  | fileStop
  | fileSeek (position : Nat)
  | fileTempo (bpm : Float)

def Engine.use (e : Engine) : EngineUse → Engine
  | .setTick tick => e.setTick tick
  | .send event routed => e.send event routed
  | .clearSent => e.clearSent
  | .setting name value => e.setSetting name value
  | .port effect port value => e.setPort effect port value
  | .resolution ticks => e.setFileResolution ticks
  | .filePlay path => e.filePlay path
  | .fileStop => e.fileStop
  | .fileSeek position => e.fileSeek position
  | .fileTempo bpm => e.fileTempo bpm

inductive Move where
  | call (name : String) (c : Call)
  | wake (id : Nat)
  /-- All players hear of a position of the file. -/
  | report (position : Nat)
  | add (name : String) (d : PlayerDef)
  | remove (name : String)
  | use (u : EngineUse)
  | table (rules : List Rule)
  /-- The first item is delivered, if it is due. -/
  | deliver (limit : Nat)

/-- Moves that deliver nothing, leave the clock and do not clear the record. -/
def Move.Plain : Move → Prop
  | .deliver _ | .use (.setTick _) | .use .clearSent => False
  | _ => True

/-- An event that a player has played: taken from the queue when it was due, or sent at once. -/
structure Played where
  tick : Nat
  event : Event
  queued : Bool

/-- Who has played what, first event first. -/
abbrev Ledger := List (Nat × Played)

/-- What one player has played. -/
def Ledger.of (l : Ledger) (id : Nat) : List Played := (l.filter fun x => x.1 == id).map Prod.snd

theorem Ledger.of_append (l k : Ledger) (id : Nat) :
    Ledger.of (l ++ k) id = l.of id ++ k.of id := by
  simp [Ledger.of]

/-- What a player sends at once. -/
def atOnce (now : Nat) (actions : List Action) : List Played :=
  actions.filterMap fun x =>
    match x with
    | .send e => some ⟨now, e, false⟩
    | _ => none

/-- Entries of one player. -/
def Ledger.entries (id : Nat) (played : List Played) : Ledger := played.map fun x => (id, x)

theorem Ledger.of_entries_self (id : Nat) (played : List Played) :
    (Ledger.entries id played).of id = played := by
  induction played with
  | nil => rfl
  | cons x xs ih => simpa [Ledger.entries, Ledger.of] using ih

theorem Ledger.of_entries_other {id other : Nat} (h : id ≠ other) (played : List Played) :
    (Ledger.entries id played).of other = [] := by
  simp [Ledger.entries, Ledger.of, h]

namespace Stage

variable {s : Stage}

/-- What the first player asked for sends at once when it answers. -/
def askLedger (s : Stage) (asked : Member → Bool) (c : Call) : Ledger :=
  match Member.ask? asked s.engine.moment c s.directory.members with
  | some answer => Ledger.entries answer.id (atOnce s.engine.now answer.actions)
  | none => []

/-- What players play in a move. A new player plays nothing, but one that gives way to it may. -/
def ledger (s : Stage) : Move → Ledger
  | .call name c => s.askLedger (fun m => m.name == name) c
  | .wake id => s.askLedger (fun m => m.id == id) .wake
  | .report position =>
    s.directory.members.flatMap fun m =>
      Ledger.entries m.id
        (atOnce s.engine.now (m.player.respond s.engine.moment (.fileTick position)).2)
  | .add name d =>
    match s.add name d with
    | .ok (id, _) =>
      if id = s.directory.nextId then s.askLedger (fun m => m.name == name) .dismiss else []
    | .error _ => []
  | .remove name => s.askLedger (fun m => m.name == name) .dismiss
  | .deliver limit =>
    match s.engine.popDue? limit with
    | some (item, popped) =>
      match item.due with
      | .event player e => [(player, ⟨popped.now, e, true⟩)]
      | .callback player => { s with engine := popped }.askLedger (fun m => m.id == player) .wake
    | none => []
  | .use _ | .table _ => []

def move (s : Stage) : Move → Stage
  | .call name c => s.call name c
  | .wake id => s.callId id .wake
  | .report position => s.callAll (.fileTick position)
  | .add name d =>
    match s.add name d with
    | .ok (_, added) => added
    | .error _ => s
  | .remove name => s.remove name
  | .use u => { s with engine := s.engine.use u }
  | .table rules => { s with engine := { s.engine with native := rules } }
  | .deliver limit =>
    match s.engine.popDue? limit with
    | some (item, popped) => { s with engine := popped }.deliver item
    | none => s

/-- Makes moves in turn. -/
def run (s : Stage) : List Move → Stage
  | [] => s
  | mv :: rest => (s.move mv).run rest

/-- What players play in moves made in turn. -/
def runLedger (s : Stage) : List Move → Ledger
  | [] => []
  | mv :: rest => s.ledger mv ++ (s.move mv).runLedger rest

theorem run_append (xs ys : List Move) : s.run (xs ++ ys) = (s.run xs).run ys := by
  induction xs generalizing s with
  | nil => rfl
  | cons x xs ih => exact ih

theorem runLedger_append (xs ys : List Move) :
    s.runLedger (xs ++ ys) = s.runLedger xs ++ (s.run xs).runLedger ys := by
  induction xs generalizing s with
  | nil => rfl
  | cons mv rest ih =>
    rw [List.cons_append, runLedger, runLedger, ih, List.append_assoc]
    rfl

end Stage

theorem Engine.popDue?_eq_some {e popped : Engine} {limit : Nat} {item : Item}
    (h : e.popDue? limit = some (item, popped)) :
    e.queue.first? = some item ∧ item.tick ≤ limit ∧
      popped = { e.setTick item.tick with queue := e.queue.rest } := by
  unfold popDue? at h
  split at h
  · next first hfirst =>
    split at h
    · next hdue =>
      cases h
      exact ⟨hfirst, hdue, rfl⟩
    · cases h
  · cases h

/-! ## The directory -/

namespace Stage

variable {s : Stage}

theorem move_deliver {limit : Nat} {item : Item} {popped : Engine}
    (h : s.engine.popDue? limit = some (item, popped)) :
    s.move (.deliver limit) = { s with engine := popped }.deliver item := by
  simp only [move, h]

theorem sound_callAll (hs : s.directory.Sound) (c : Call) : (s.callAll c).directory.Sound := by
  refine ⟨?_, ?_, fun m hm => ?_⟩
  · simpa [callAll, List.map_map, Function.comp_def] using hs.ids
  · simpa [callAll, Directory.names, List.map_map, Function.comp_def] using hs.names
  · obtain ⟨old, hold, rfl⟩ := List.mem_map.mp hm
    exact hs.known old hold

theorem sound_ask (hs : s.directory.Sound) (asked : Member → Bool) (c : Call) :
    ((s.ask? asked c).getD s).directory.Sound := by
  cases h : s.ask? asked c with
  | none => exact hs
  | some t =>
    obtain ⟨before, member, after, hmem, -, -, rfl⟩ := ask?_eq_some h
    exact sound_answered hmem hs

/-- To add a player changes nothing where it is there already or refused. -/
theorem move_add (hs : s.directory.Sound) (name : String) (d : PlayerDef) :
    (s.move (.add name d) = s ∧ s.ledger (.add name d) = []) ∨
      (d.problem? = none ∧ s.move (.add name d) = (s.remove name).joined name d ∧
        s.ledger (.add name d) = s.askLedger (fun m => m.name == name) .dismiss) := by
  rcases s.add_eq name d with ⟨member, hfind, -, h⟩ | ⟨problem, -, h⟩ | ⟨hvalid, -, h⟩
  · have hne : member.id ≠ s.directory.nextId :=
      Nat.ne_of_lt (hs.known member (List.mem_of_find?_eq_some hfind))
    exact .inl ⟨by simp only [move, h], by simp only [ledger, h, if_neg hne]⟩
  · exact .inl ⟨by simp only [move, h], by simp only [ledger, h]⟩
  · exact .inr ⟨hvalid, by simp only [move, h], by simp only [ledger, h, if_true]⟩

theorem sound_move (hs : s.directory.Sound) (mv : Move) : (s.move mv).directory.Sound := by
  cases mv with
  | call name c => exact sound_ask hs _ c
  | wake id => exact sound_ask hs _ .wake
  | report position => exact sound_callAll hs _
  | add name d =>
    rcases move_add hs name d with ⟨h, -⟩ | ⟨-, h, -⟩
    · rwa [h]
    · rw [h]
      exact sound_joined (sound_remove hs name) (not_mem_names_remove hs name) d
  | remove name => exact sound_remove hs name
  | use u => exact hs
  | table rules => exact hs
  | deliver limit =>
    simp only [move]
    cases h : s.engine.popDue? limit with
    | none => exact hs
    | some found =>
      obtain ⟨⟨tick, serial, due⟩, popped⟩ := found
      cases due with
      | event player e => exact hs
      | callback player => exact sound_ask (s := { s with engine := popped }) hs _ .wake

end Stage

/-! ## The record of the engine -/

/-- How the engine records what a player plays. -/
def Played.sent (x : Played) : Sent := ⟨x.tick, x.event, false⟩

theorem Engine.sent_perform (e : Engine) (player : Nat) (xs : List Action) :
    (e.perform player xs).sent = e.sent ++ (atOnce e.now xs).map Played.sent := by
  induction xs generalizing e with
  | nil => exact (List.append_nil _).symm
  | cons x xs ih =>
    show ((e.act player x).perform player xs).sent = _
    rw [ih, now_act]
    cases x with
    | send event =>
      show (e.sent ++ [_]) ++ _ = _
      rw [List.append_assoc]
      rfl
    | _ => rfl

theorem Ledger.map_entries (id : Nat) (played : List Played) :
    (Ledger.entries id played).map (fun x => x.2.sent) = played.map Played.sent := by
  unfold Ledger.entries
  rw [List.map_map]
  rfl

/-- Moves other than to play an event or to forget what has been played. -/
def Move.Records : Move → Prop
  | .use (.send _ _) | .use .clearSent => False
  | _ => True

namespace Stage

variable {s : Stage}

theorem sent_ask (s : Stage) (asked : Member → Bool) (c : Call) :
    ((s.ask? asked c).getD s).engine.sent =
      s.engine.sent ++ (s.askLedger asked c).map fun x => x.2.sent := by
  unfold ask? askLedger
  cases Member.ask? asked s.engine.moment c s.directory.members with
  | none => exact (List.append_nil _).symm
  | some answer =>
    show (s.engine.perform answer.id answer.actions).sent = _
    rw [Engine.sent_perform]
    exact congrArg _ (Ledger.map_entries answer.id _).symm

theorem sent_foldl (answer : Member → List Action) (members : List Member) (e : Engine) :
    (members.foldl (fun e m => e.perform m.id (answer m)) e).sent =
      e.sent ++ (members.flatMap fun m =>
        Ledger.entries m.id (atOnce e.now (answer m))).map fun x => x.2.sent := by
  induction members generalizing e with
  | nil => exact (List.append_nil _).symm
  | cons m rest ih =>
    rw [List.foldl_cons, ih, Engine.now_perform, Engine.sent_perform, List.flatMap_cons,
      List.map_append, Ledger.map_entries, List.append_assoc]

/-- The ledger is what the engine records. -/
theorem sent_move (hs : s.directory.Sound) {mv : Move} (hmv : mv.Records) :
    (s.move mv).engine.sent = s.engine.sent ++ (s.ledger mv).map fun x => x.2.sent := by
  have hnil : s.engine.sent = s.engine.sent ++ ([] : Ledger).map fun x => x.2.sent :=
    (List.append_nil _).symm
  cases mv with
  | call name c => exact sent_ask s _ c
  | wake id => exact sent_ask s _ .wake
  | report position => exact sent_foldl _ _ _
  | add name d =>
    rcases move_add hs name d with ⟨h, hledger⟩ | ⟨-, h, hledger⟩
    · rw [h, hledger]
      exact hnil
    · rw [h, hledger]
      exact sent_ask s _ .dismiss
  | remove name => exact sent_ask s _ .dismiss
  | use u =>
    cases u with
    | send _ _ => exact hmv.elim
    | clearSent => exact hmv.elim
    | _ => exact hnil
  | table rules => exact hnil
  | deliver limit =>
    simp only [move, ledger]
    cases h : s.engine.popDue? limit with
    | none => exact hnil
    | some found =>
      obtain ⟨⟨tick, serial, due⟩, popped⟩ := found
      obtain ⟨-, -, hpopped⟩ := Engine.popDue?_eq_some h
      have hsent : popped.sent = s.engine.sent := by rw [hpopped]; rfl
      cases due with
      | event player e => exact congrArg (· ++ [_]) hsent
      | callback player =>
        rw [← hsent]
        exact sent_ask { s with engine := popped } _ .wake

theorem sound_run (hs : s.directory.Sound) (moves : List Move) : (s.run moves).directory.Sound := by
  induction moves generalizing s with
  | nil => exact hs
  | cons mv rest ih => exact ih (sound_move hs mv)

/-- Unless it is cleared, the record has everything that is in the ledger. -/
theorem sublist_sent_move (hs : s.directory.Sound) {mv : Move} (h : mv ≠ .use .clearSent) :
    (s.engine.sent ++ (s.ledger mv).map fun x => x.2.sent).Sublist (s.move mv).engine.sent := by
  by_cases hrecords : mv.Records
  · rw [sent_move hs hrecords]
  · cases mv with
    | use u =>
      cases u with
      | send e routed => exact (List.append_nil s.engine.sent).symm ▸ List.sublist_append_left _ _
      | clearSent => exact absurd rfl h
      | _ => exact absurd trivial hrecords
    | _ => exact absurd trivial hrecords

theorem sublist_sent_run (hs : s.directory.Sound) {moves : List Move}
    (h : ∀ mv ∈ moves, mv ≠ .use .clearSent) :
    (s.engine.sent ++ (s.runLedger moves).map fun x => x.2.sent).Sublist
      (s.run moves).engine.sent := by
  induction moves generalizing s with
  | nil => rw [runLedger, List.map_nil, List.append_nil]; exact .refl _
  | cons mv rest ih =>
    have hfirst := sublist_sent_move hs (h mv List.mem_cons_self)
    have hrest := ih (sound_move hs mv) fun x hx => h x (List.mem_cons_of_mem _ hx)
    rw [runLedger, List.map_append, ← List.append_assoc]
    exact (hfirst.append_right _).trans hrest

end Stage

end MidiRig
