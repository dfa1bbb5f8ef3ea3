import Mathlib.Order.WellFounded
import MidiRig.Proofs.Stage.Life

/-!
# Deliveries in turn

`Stage.Delivers` is one delivery and `Stage.Delivered` some of them in turn. However often players
ask to be woken again there is no endless run of deliveries up to a tick (`Stage.not_endless`), and
`Stage.drain` is the run after which nothing is due. It does not matter for it whether a later limit
is known from the beginning (`Stage.drain_drain`), nor whether the clock has been moved on meanwhile
to a tick by which nothing is due (`Stage.advance_setTick`).
-/

namespace MidiRig

namespace Stage

variable {s t u : Stage} {limit : Nat} {item : Item} {items : List Item} {popped : Engine}

/-! ## Deliveries end -/

/-- An item that is due leaves the queue and is delivered. -/
def Delivers (limit : Nat) (s : Stage) (item : Item) (t : Stage) : Prop :=
  ∃ popped, s.engine.popDue? limit = some (item, popped) ∧
    t = { s with engine := popped }.deliver item

/-- Items that are due are delivered one after the other. -/
inductive Delivered (limit : Nat) : Stage → List Item → Stage → Prop where
  | nil (s : Stage) : Delivered limit s [] s
  | cons {s t u : Stage} {item : Item} {items : List Item} (h : Delivers limit s item t)
      (hrest : Delivered limit t items u) : Delivered limit s (item :: items) u

/-- Each delivery lessens the work of the players, or leaves it and takes an item from those that
are due. -/
theorem wellFounded_delivers (limit : Nat) :
    WellFounded fun t s => ∃ item, Delivers limit s item t := by
  have hload : WellFounded fun t s : Stage =>
      Prod.Lex (· < ·) (· < ·) (t.load limit) (s.load limit) :=
    InvImage.wf (fun s : Stage => s.load limit) (Prod.lex Nat.lt_wfRel Nat.lt_wfRel).wf
  refine Subrelation.wf ?_ hload
  rintro t s ⟨item, popped, hpop, rfl⟩
  exact load_deliver hpop

/-- However often players ask to be woken again, some stage is the last one. -/
theorem not_endless (limit : Nat) (f : Nat → Stage) :
    ∃ n, ¬ ∃ item, Delivers limit (f n) item (f (n + 1)) := by
  have hwf : IsWellFounded Stage fun t s => ∃ item, Delivers limit s item t :=
    ⟨wellFounded_delivers limit⟩
  exact WellFounded.not_rel_apply_succ (h := hwf) f

/-! ## What a drain is -/

theorem drain_of_none (h : s.engine.popDue? limit = none) : s.drain limit = ([], s) := by
  rw [drain]
  split
  · rfl
  · next hsome => rw [h] at hsome; cases hsome

theorem drain_of_some (h : s.engine.popDue? limit = some (item, popped)) :
    s.drain limit = (item :: (({ s with engine := popped }.deliver item).drain limit).1,
      (({ s with engine := popped }.deliver item).drain limit).2) := by
  rw [drain]
  split
  · next hnone => rw [h] at hnone; cases hnone
  · next hsome =>
    obtain ⟨rfl, rfl⟩ : _ ∧ _ := by simpa [h] using hsome
    rfl

/-- To deliver all that is due is to deliver the first item as often as there is one. -/
theorem drain_eq_run (s : Stage) (limit : Nat) :
    (s.drain limit).2 = s.run (List.replicate (s.drain limit).1.length (.deliver limit)) := by
  fun_induction drain s limit with
  | case1 s h => rfl
  | case2 s item popped h items last hrest ih =>
    rw [hrest] at ih
    rw [List.length_cons, List.replicate_succ, run, move_deliver h]
    exact ih

/-- A drain delivers until nothing is due. -/
theorem delivered_drain (s : Stage) (limit : Nat) :
    Delivered limit s (s.drain limit).1 (s.drain limit).2 ∧
      (s.drain limit).2.engine.popDue? limit = none := by
  fun_induction drain s limit with
  | case1 s h => exact ⟨.nil s, h⟩
  | case2 s item popped h items last hrest ih =>
    rw [hrest] at ih
    exact ⟨.cons ⟨popped, h, rfl⟩ ih.1, ih.2⟩

/-- The clock of an engine stops at the item that leaves it. -/
theorem now_delivers (h : Delivers limit s item t) :
    t.engine.now = max s.engine.now item.tick ∧ item.tick ≤ limit := by
  obtain ⟨popped, hpop, rfl⟩ := h
  obtain ⟨-, hdue, hpopped⟩ := Engine.popDue?_eq_some hpop
  exact ⟨by rw [← move_deliver hpop, now_deliver hpop, hpopped]; rfl, hdue⟩

theorem now_delivered (h : Delivered limit s items t) :
    s.engine.now ≤ t.engine.now ∧ t.engine.now ≤ max s.engine.now limit := by
  induction h with
  | nil s => omega
  | cons hfirst _ ih =>
    obtain ⟨hnow, hdue⟩ := now_delivers hfirst
    omega

/-- After an advance the clock is at the limit, unless it was later before. -/
theorem now_advance (s : Stage) (limit : Nat) :
    (s.advance limit).2.engine.now = max s.engine.now limit := by
  obtain ⟨hle, hge⟩ := now_delivered (delivered_drain s limit).1
  show max (s.drain limit).2.engine.now limit = _
  omega

theorem lt_of_popDue?_eq_none {e : Engine} (h : e.popDue? limit = none) :
    ∀ i ∈ e.queue.items, limit < i.tick := by
  unfold Engine.popDue? at h
  intro i hi
  cases hfirst : e.queue.first? with
  | none =>
    rw [List.head?_eq_none_iff.mp hfirst] at hi
    cases hi
  | some item =>
    simp only [hfirst] at h
    have hlate : limit < item.tick := by
      split at h
      · cases h
      · omega
    obtain ⟨rest, hitems⟩ := List.head?_eq_some_iff.mp hfirst
    have hordered := e.queue.ordered
    rw [hitems] at hi hordered
    rcases List.mem_cons.mp hi with rfl | hi
    · exact hlate
    · rcases (List.pairwise_cons.mp hordered).1 i hi with h | ⟨h, -⟩ <;> omega

theorem lt_agenda_of_popDue? {e : Engine} (h : e.popDue? limit = none) (id : Nat) :
    ∀ x ∈ e.queue.agenda id, limit < x.tick := by
  intro x hx
  obtain ⟨i, hi, rfl⟩ := List.mem_map.mp hx
  exact lt_of_popDue?_eq_none h i (List.mem_filter.mp hi).1

/-! ## Time in slices -/

theorem popDue?_mono {e : Engine} {a b : Nat} (h : a ≤ b)
    (hpop : e.popDue? a = some (item, popped)) : e.popDue? b = some (item, popped) := by
  obtain ⟨hfirst, hdue, rfl⟩ := Engine.popDue?_eq_some hpop
  simp only [Engine.popDue?, hfirst, if_pos (Nat.le_trans hdue h)]

/-- To drain up to a tick is to drain up to an earlier one first. -/
theorem drain_drain (s : Stage) {a b : Nat} (h : a ≤ b) :
    s.drain b = ((s.drain a).1 ++ ((s.drain a).2.drain b).1, ((s.drain a).2.drain b).2) := by
  fun_induction drain s a with
  | case1 s hnone => rfl
  | case2 s item popped hpop items last hrest ih =>
    rw [hrest] at ih
    rw [drain_of_some (popDue?_mono h hpop), ih]
    rfl

/-- The next item moves the clock further than to a tick by which nothing is due. -/
theorem popDue?_setTick {e : Engine} {a : Nat} (hnone : e.popDue? a = none) (b : Nat) :
    (e.setTick a).popDue? b = e.popDue? b := by
  have hqueue : (e.setTick a).queue = e.queue := rfl
  unfold Engine.popDue?
  rw [hqueue]
  cases hfirst : e.queue.first? with
  | none => rfl
  | some item =>
    have hlate : a < item.tick := lt_of_popDue?_eq_none hnone item (List.mem_of_head? hfirst)
    have hclock : (e.setTick a).setTick item.tick = e.setTick item.tick := by
      simp only [Engine.setTick, Nat.max_assoc, Nat.max_eq_right (Nat.le_of_lt hlate)]
    simp only [hclock]

/-- An advance from a tick by which nothing is due goes as if the clock had not come there yet. -/
theorem advance_setTick {a b : Nat} (h : a ≤ b) (hnone : s.engine.popDue? a = none) :
    Stage.advance { s with engine := s.engine.setTick a } b = s.advance b := by
  have hsame := popDue?_setTick hnone b
  unfold advance
  cases hpop : s.engine.popDue? b with
  | none =>
    rw [drain_of_none hpop, drain_of_none (hsame.trans hpop)]
    have hclock : (s.engine.setTick a).setTick b = s.engine.setTick b := by
      simp only [Engine.setTick, Nat.max_assoc, Nat.max_eq_right h]
    exact congrArg (fun engine => ([], ({ s with engine } : Stage))) hclock
  | some found => rw [drain_of_some hpop, drain_of_some (hsame.trans hpop)]

/-- To let time pass until a tick is to let it pass until an earlier one first. -/
theorem advance_advance (s : Stage) {a b : Nat} (h : a ≤ b) :
    s.advance b =
      ((s.advance a).1 ++ ((s.advance a).2.advance b).1, ((s.advance a).2.advance b).2) := by
  have hnone := (delivered_drain s a).2
  have hrest : (s.advance a).2.advance b = (s.drain a).2.advance b := advance_setTick h hnone
  rw [hrest]
  unfold advance
  rw [drain_drain s h]

end Stage

end MidiRig
