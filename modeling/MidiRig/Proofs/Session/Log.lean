import MidiRig.Proofs.Session.Operation
import MidiRig.Proofs.Stage.Log

/-!
# The log of a player in a session

`Session.log` is all that a player is told in a run of a session, from whatever operation it comes.
What the player has become, has queued and has played is what has come of it (`Session.past_run`).
-/

namespace MidiRig

namespace Session

variable {s : Session} {r : Conduct} {born : Nat → Option PlayerDef} {l : Ledger} {id : Nat}
  {played : List Played} {told : List Told}

/-- What the player of a number is told in operations in turn. -/
def log (s : Session) (id : Nat) : List Op → List Told
  | [] => []
  | op :: rest => s.stage.log id (s.moves op) ++ (s.step op).log id rest

theorem log_append (s : Session) (id : Nat) (xs ys : List Op) :
    s.log id (xs ++ ys) = s.log id xs ++ (s.run xs).log id ys := by
  induction xs generalizing s with
  | nil => rfl
  | cons op rest ih => rw [List.cons_append, log, log, ih, List.append_assoc]; rfl

theorem recalls_run (h : s.stage.Lives r born false l) {ops : List Op}
    (hops : ∀ op ∈ ops, op.Fits r) (hp : s.stage.Recalls r false id played told) :
    (s.run ops).stage.Recalls r false id (played ++ (s.ledger ops).of id)
      (told ++ s.log id ops) := by
  induction ops generalizing s born l played told with
  | nil =>
    rw [ledger, Session.log, List.append_nil]
    exact (List.append_nil played).symm ▸ hp
  | cons op rest ih =>
    obtain ⟨born', -, hnext⟩ := lives_step h (hops op List.mem_cons_self)
    have hfirst := hp.run h (makesAll_moves h (hops op List.mem_cons_self))
    rw [← stage_step] at hfirst
    have hrest := ih hnext (fun x hx => hops x (List.mem_cons_of_mem _ hx)) hfirst
    rw [ledger, Ledger.of_append, ← List.append_assoc, Session.log, ← List.append_assoc]
    exact hrest

/-- In every session that can be reached each number has a past. -/
theorem past_run (r : Conduct) (rate : Float) (config : Config) {ops : List Op}
    (hops : ∀ op ∈ ops, op.Fits r) (id : Nat) :
    Past r false ((start rate config).run ops).stage.engine.now
      (((start rate config).run ops).stage.part id) (((start rate config).ledger ops).of id)
      ((start rate config).log id ops) :=
  (recalls_run (s := start rate config) (Stage.lives_make r rate config.sequencer) hops
    ⟨.unborn _ _, fun _ => ⟨rfl, rfl⟩⟩).past

end Session

end MidiRig
