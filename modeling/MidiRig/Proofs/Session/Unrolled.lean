import MidiRig.Proofs.Session.Log

/-!
# Runs that can be computed

A drain ends for a reason that no evaluation follows, so nothing computes through an advance. Here
it is tried whether anything is due, only so many times (`Stage.deliveries?`), and each delivery is
written as an operation of its own (`Session.unrolled`). The run, its ledger and its logs stay the
same.
-/

namespace MidiRig

namespace Stage

/-- How many items are delivered up to a tick, unless they are more than `most`. -/
def deliveries? (s : Stage) (limit : ℕ) : ℕ → Option ℕ
  | 0 => if (s.engine.popDue? limit).isNone then some 0 else none
  | most + 1 =>
    if (s.engine.popDue? limit).isNone then some 0
    else ((s.move (.deliver limit)).deliveries? limit most).map (· + 1)

theorem length_drain_of_deliveries? {s : Stage} {limit most n : ℕ}
    (h : s.deliveries? limit most = some n) : (s.drain limit).1.length = n := by
  have hnone : ∀ {s : Stage}, (s.engine.popDue? limit).isNone = true →
      (s.drain limit).1.length = 0 := fun hdue => by
    rw [drain_of_none (Option.isNone_iff_eq_none.mp hdue)]
    rfl
  induction most generalizing s n with
  | zero =>
    rw [deliveries?] at h
    split at h
    · next hdue =>
      cases h
      exact hnone hdue
    · cases h
  | succ most ih =>
    rw [deliveries?] at h
    split at h
    · next hdue =>
      cases h
      exact hnone hdue
    · next hdue =>
      obtain ⟨k, hk, rfl⟩ := Option.map_eq_some_iff.mp h
      obtain ⟨⟨item, popped⟩, hpop⟩ := Option.ne_none_iff_exists'.mp
        (mt Option.isNone_iff_eq_none.mpr hdue)
      rw [drain_of_some hpop, List.length_cons, ← move_deliver hpop, ih hk]

end Stage

namespace Session

variable {s : Session}

/-- An advance with its deliveries one by one, if there are at most so many and nobody listens. -/
def unroll (most : ℕ) (s : Session) : Op → List Op
  | .advance tick =>
    match s.stage.deliveries? tick most with
    | some n =>
      if s.monitoring || s.channel.isSome then [.advance tick]
      else List.replicate n (.deliver tick) ++ [.use (.setTick tick)]
    | none => [.advance tick]
  | op => [op]

/-- The operations with all their advances unrolled. -/
def unrolled (most : ℕ) (s : Session) : List Op → List Op
  | [] => []
  | op :: rest => s.unroll most op ++ unrolled most (s.run (s.unroll most op)) rest

/-- Operations that come to the same as others. -/
structure Matches (s : Session) (xs ys : List Op) : Prop where
  run : s.run xs = s.run ys
  ledger : s.ledger xs = s.ledger ys
  log (id : ℕ) : s.log id xs = s.log id ys

theorem Matches.append {xs ys us vs : List Op} (h : s.Matches xs ys)
    (h' : (s.run xs).Matches us vs) : s.Matches (xs ++ us) (ys ++ vs) where
  run := by rw [run_append, run_append, h'.run, h.run]
  ledger := by rw [ledger_append, ledger_append, h.ledger, h'.ledger, h.run]
  log id := by rw [log_append, log_append, h.log, h'.log, h.run]

/-- Deliveries in turn and a later clock, as what the stage does. -/
theorem deliveries_eq (s : Session) (tick n : ℕ) :
    let ops : List Op := List.replicate n (.deliver tick) ++ [.use (.setTick tick)]
    let moves : List Move := List.replicate n (.deliver tick) ++ [.use (.setTick tick)]
    s.run ops = { s with stage := s.stage.run moves } ∧
      s.ledger ops = s.stage.runLedger moves ∧ ∀ id, s.log id ops = s.stage.log id moves := by
  induction n generalizing s with
  | zero => exact ⟨rfl, List.append_nil _, fun id => List.append_nil _⟩
  | succ n ih =>
    obtain ⟨hrun, hledger, hlog⟩ := ih (s.step (.deliver tick))
    refine ⟨hrun, ?_, fun id => ?_⟩
    · show (s.stage.ledger _ ++ []) ++ _ = _
      rw [List.append_nil]
      exact congrArg _ hledger
    · show ((s.stage.logged? id _).toList ++ []) ++ _ = _
      rw [List.append_nil]
      exact congrArg _ (hlog id)

/-- Where nobody listens, time changes the stage only. -/
theorem advance_eq_of_quiet (s : Session) (tick : ℕ)
    (h : s.monitoring = false ∧ s.channel = none) :
    { s with stage := (s.advance tick).stage } = s.advance tick := by
  obtain ⟨stage, router, names, config, monitoring, seen, channel⟩ := s
  obtain ⟨rfl, rfl⟩ := h
  rfl

theorem matches_unroll (most : ℕ) (s : Session) (op : Op) : s.Matches (s.unroll most op) [op] := by
  have hsame : s.Matches [op] [op] := ⟨rfl, rfl, fun _ => rfl⟩
  cases op with
  | advance tick =>
    rw [unroll]
    split
    · next n hn =>
      split
      · exact hsame
      · next hquiet =>
        have hlength := Stage.length_drain_of_deliveries? hn
        obtain ⟨hrun, hledger, hlog⟩ := s.deliveries_eq tick n
        have hmoves : s.moves (.advance tick) =
            List.replicate n (.deliver tick) ++ [.use (.setTick tick)] := by rw [moves, hlength]
        refine ⟨?_, ?_, fun id => ?_⟩
        · rw [hrun, ← hmoves, ← s.stage_advance tick]
          exact s.advance_eq_of_quiet tick (by simpa using hquiet)
        · rw [hledger, ← hmoves]
          exact (List.append_nil _).symm
        · rw [hlog, ← hmoves]
          exact (List.append_nil _).symm
    · exact hsame
  | _ => exact hsame

/-- The run, its ledger and its logs are those of the operations that were unrolled. -/
theorem matches_unrolled (most : ℕ) (s : Session) (ops : List Op) :
    s.Matches (s.unrolled most ops) ops := by
  induction ops generalizing s with
  | nil => exact ⟨rfl, rfl, fun _ => rfl⟩
  | cons op rest ih => exact (s.matches_unroll most op).append (ih _)

end Session

end MidiRig
