import MidiRig.Proofs.Stage.Drain
import MidiRig.Session

/-!
# Letting time pass in a session

An advance delivers finitely many items, although players ask to be woken again and again, and
leaves nothing that is due (`Session.advance_finishes`). In how many advances the time is cut makes
no difference, to the queue and the players as little as to those who listen
(`Session.advance_sliced`).
-/

namespace MidiRig

namespace Session

variable (s : Session) (tick : Nat)

/-- Finitely many items are delivered, one after the other, and then nothing more is due: however
often players ask to be woken again, no run of deliveries is endless. The clock stands at the limit
then, unless it was later before. -/
theorem advance_finishes :
    (∃ items last, Stage.Delivered tick s.stage items last ∧
      (¬ ∃ item t, Stage.Delivers tick last item t) ∧
      s.advance tick = Session.report
        { s with stage := { last with engine := last.engine.setTick tick } } (played items)) ∧
    (¬ ∃ f : Nat → Stage, f 0 = s.stage ∧
      ∀ n, ∃ item, Stage.Delivers tick (f n) item (f (n + 1))) ∧
    (∀ i ∈ (s.advance tick).stage.engine.queue.items, tick < i.tick) ∧
    (s.advance tick).stage.engine.now = max s.stage.engine.now tick := by
  obtain ⟨hrun, hnone⟩ := Stage.delivered_drain s.stage tick
  refine ⟨⟨(s.stage.drain tick).1, (s.stage.drain tick).2, hrun, ?_, rfl⟩, ?_,
    fun i hi => Stage.lt_of_popDue?_eq_none hnone i hi, Stage.now_advance s.stage tick⟩
  · rintro ⟨item, t, popped, hpop, -⟩
    rw [hnone] at hpop
    cases hpop
  · rintro ⟨f, -, hf⟩
    obtain ⟨n, hn⟩ := Stage.not_endless tick f
    exact hn (hf n)

theorem played_append (xs ys : List Item) : played (xs ++ ys) = played xs ++ played ys :=
  List.filterMap_append

/-- To hear two things one after the other is to hear both. -/
theorem report_append (xs ys : List Event) : s.report (xs ++ ys) = (s.report xs).report ys := by
  unfold report
  cases s.monitoring <;> cases s.channel <;> simp

/-- To let time pass until one tick and then until a later one is to let it pass until the later one
at once. -/
theorem advance_sliced {a b : Nat} (h : a ≤ b) : (s.advance a).advance b = s.advance b := by
  have hwhole : s.advance b = Session.report { s with stage := (s.stage.advance b).2 }
      (played (s.stage.advance b).1) := rfl
  rw [hwhole, Stage.advance_advance s.stage h, played_append, report_append]
  rfl

/-- A key of an arpeggio is held; the time is cut between its steps. -/
theorem advance_sliced_held_key :
    let s := (((make .default).addPlayer "bells" (.arpeggio .default)).toOption.bind fun added =>
      added.2.call? "bells" (.add (Event.note 1 60 100.0))).getD (make .default)
    s.stage.directory.names = ["bells"] ∧ (100 ≤ 1000) ∧
      (s.advance 100).advance 1000 = s.advance 1000 := by
  intro s
  exact ⟨rfl, by decide, advance_sliced s (by decide)⟩

end Session

end MidiRig
