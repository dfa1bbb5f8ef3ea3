import MidiRig.Proofs.Engine.Agenda

/-!
# Runs of the timer

What can be asked of the timer, in any order: to queue an event or a callback, to drop all that is
queued for a player, to move the clock, and to hand over the first item that is due. `Engine.Timed`
says what one such request does, and everything else here is derived from it. Three invariants
carry the runs:

- `Served`: what has left the queue left it in order, and all that waits or is still to come is
  later;
- `Waiting`: an item is in the queue, the only one of its serial number;
- `Gone`: no item of a serial number is in the queue, and none will be again.
-/

namespace MidiRig

inductive TimerOp where
  | event (player tick : Nat) (e : Event)
  | callback (player tick : Nat)
  | cancel (player : Nat)
  | setTick (tick : Nat)
  /-- Hand over the first item that is due by `limit`. -/
  | pop (limit : Nat)

/-- What is to be queued, and the tick that is asked for. -/
def TimerOp.request? : TimerOp → Option (Nat × Due)
  | .event player tick e => some (tick, .event player e)
  | .callback player tick => some (tick, .callback player)
  | _ => none

theorem Item.Before.irrefl {i : Item} (h : i.Before i) : False := by
  simp only [Item.Before] at h
  omega

namespace Queue

variable {q : Queue} {item : Item}

theorem first_before_rest (h : q.first? = some item) : ∀ j ∈ q.rest.items, item.Before j := by
  obtain ⟨items, hq⟩ := List.head?_eq_some_iff.mp h
  have hordered := q.ordered
  rw [hq] at hordered
  simpa [rest, hq] using (List.pairwise_cons.mp hordered).1

theorem eq_or_mem_rest (h : q.first? = some item) {j : Item} (hj : j ∈ q.items) :
    j = item ∨ j ∈ q.rest.items := by
  obtain ⟨items, hq⟩ := List.head?_eq_some_iff.mp h
  simpa [rest, hq] using hj

theorem first_before (h : q.first? = some item) : ∀ j ∈ q.items, j = item ∨ item.Before j :=
  fun j hj => (eq_or_mem_rest h hj).imp_right (first_before_rest h j)

end Queue

namespace Engine

def timer (e : Engine) : TimerOp → Engine
  | .event player tick event => e.schedule player tick event
  | .callback player tick => e.scheduleCallback player tick
  | .cancel player => e.cancel player
  | .setTick tick => e.setTick tick
  | .pop limit => ((e.popDue? limit).map Prod.snd).getD e

/-- What is handed over. -/
def popped? (e : Engine) : TimerOp → Option Item
  | .pop limit => (e.popDue? limit).map Prod.fst
  | _ => none

def runTimer (e : Engine) (ops : List TimerOp) : Engine := ops.foldl timer e

/-- What is handed over in a run, first item first. -/
def pops (e : Engine) : List TimerOp → List Item
  | [] => []
  | op :: ops => (e.popped? op).toList ++ (e.timer op).pops ops

/-- The item that a request puts into the queue. -/
def asked (e : Engine) (tick : Nat) (due : Due) : Item := ⟨max tick e.now, e.queue.nextSerial, due⟩

@[simp] theorem runTimer_nil (e : Engine) : e.runTimer [] = e := rfl

@[simp] theorem runTimer_cons (e : Engine) (op : TimerOp) (ops : List TimerOp) :
    e.runTimer (op :: ops) = (e.timer op).runTimer ops := rfl

theorem runTimer_append (e : Engine) (ops more : List TimerOp) :
    e.runTimer (ops ++ more) = (e.runTimer ops).runTimer more := List.foldl_append

@[simp] theorem pops_nil (e : Engine) : e.pops [] = [] := rfl

@[simp] theorem pops_cons (e : Engine) (op : TimerOp) (ops : List TimerOp) :
    e.pops (op :: ops) = (e.popped? op).toList ++ (e.timer op).pops ops := rfl

theorem pops_append (e : Engine) (ops more : List TimerOp) :
    e.pops (ops ++ more) = e.pops ops ++ (e.runTimer ops).pops more := by
  induction ops generalizing e with
  | nil => rfl
  | cons op ops ih => simp [ih]

theorem timer_of_request {op : TimerOp} {tick : Nat} {due : Due}
    (h : op.request? = some (tick, due)) (e : Engine) : e.timer op = e.enqueue tick due := by
  cases op <;> cases h <;> rfl

/-! ## One request -/

/-- What the timer does for one request: what it hands over, and how it goes on. -/
inductive Timed (e : Engine) : TimerOp → Option Item → Engine → Prop
  | queued {op : TimerOp} {tick : Nat} {due : Due} (h : op.request? = some (tick, due)) :
    Timed e op none (e.enqueue tick due)
  | dropped (player : Nat) : Timed e (.cancel player) none (e.cancel player)
  | moved (tick : Nat) : Timed e (.setTick tick) none (e.setTick tick)
  | handed {limit : Nat} {item : Item} (first : e.queue.first? = some item)
    (due : item.tick ≤ limit) :
    Timed e (.pop limit) (some item) { e.setTick item.tick with queue := e.queue.rest }
  | idle {limit : Nat} (early : ∀ i ∈ e.queue.items, limit < i.tick) :
    Timed e (.pop limit) none e

theorem timed (e : Engine) (op : TimerOp) : e.Timed op (e.popped? op) (e.timer op) := by
  cases op with
  | event player tick event => exact .queued rfl
  | callback player tick => exact .queued rfl
  | cancel player => exact .dropped player
  | setTick tick => exact .moved tick
  | pop limit =>
    simp only [popped?, timer, popDue?]
    cases hfirst : e.queue.first? with
    | none =>
      have hnil : e.queue.items = [] := List.head?_eq_none_iff.mp hfirst
      exact .idle (by simp [hnil])
    | some item =>
      by_cases hdue : item.tick ≤ limit
      · simpa [hdue] using Timed.handed hfirst hdue
      · have hearly : ∀ i ∈ e.queue.items, limit < i.tick := by
          intro i hi
          rcases Queue.first_before hfirst i hi with rfl | hbefore | ⟨heq, -⟩ <;> omega
        simpa [hdue] using Timed.idle hearly

variable {e e' : Engine} {op : TimerOp} {item : Option Item}

theorem Timed.now_le (h : e.Timed op item e') : e.now ≤ e'.now := by
  cases h with
  | moved | handed => exact Nat.le_max_left _ _
  | _ => exact Nat.le_refl _

/-- Serial numbers count what has been queued. -/
theorem Timed.nextSerial (h : e.Timed op item e') :
    e'.queue.nextSerial = e.queue.nextSerial + if op.request?.isSome then 1 else 0 := by
  cases h with
  | queued h => rw [h]; rfl
  | _ => rfl

theorem Timed.serial_le (h : e.Timed op item e') :
    e.queue.nextSerial ≤ e'.queue.nextSerial := by
  rw [h.nextSerial]
  exact Nat.le_add_right _ _

theorem now_le_runTimer (e : Engine) (ops : List TimerOp) : e.now ≤ (e.runTimer ops).now := by
  induction ops generalizing e with
  | nil => exact Nat.le_refl _
  | cons op ops ih => exact Nat.le_trans (e.timed op).now_le (ih (e.timer op))

theorem nextSerial_runTimer (e : Engine) (ops : List TimerOp) :
    (e.runTimer ops).queue.nextSerial =
      e.queue.nextSerial + ops.countP fun op => op.request?.isSome := by
  induction ops generalizing e with
  | nil => rfl
  | cons op ops ih =>
    rw [runTimer_cons, ih, (e.timed op).nextSerial, List.countP_cons]
    omega

/-- The timer hands something over exactly when something is due, and then what comes first. -/
theorem popped?_pop (e : Engine) (limit : Nat) :
    ((e.popped? (.pop limit)).isSome ↔ ∃ i ∈ e.queue.items, i.tick ≤ limit) ∧
      ∀ i, e.popped? (.pop limit) = some i → i ∈ e.queue.items ∧ i.tick ≤ limit ∧
        ∀ j ∈ e.queue.items, j = i ∨ i.Before j := by
  generalize hpop : e.popped? (.pop limit) = found
  have h := e.timed (.pop limit)
  rw [hpop] at h
  generalize e.timer (.pop limit) = e' at h
  cases h with
  | queued h => cases h
  | idle early =>
    refine ⟨⟨fun h => absurd h (by simp), fun ⟨i, hi, hle⟩ => ?_⟩, by simp⟩
    exact absurd hle (Nat.not_le_of_lt (early i hi))
  | @handed _ item first due =>
    have hmem : item ∈ e.queue.items := List.mem_of_mem_head? first
    refine ⟨⟨fun _ => ⟨item, hmem, due⟩, fun _ => rfl⟩, ?_⟩
    rintro i ⟨⟩
    exact ⟨hmem, due, Queue.first_before first⟩

/-! ## Order -/

/-- What has left the queue did so in order, not ahead of the clock, and before all that waits. -/
structure Served (done : List Item) (e : Engine) : Prop where
  inOrder : done.Pairwise Item.Before
  reached : ∀ d ∈ done, d.tick ≤ e.now
  older : ∀ d ∈ done, d.serial < e.queue.nextSerial
  ahead : ∀ d ∈ done, ∀ i ∈ e.queue.items, d.Before i

theorem served_nil (e : Engine) : Served [] e := ⟨.nil, by simp, by simp, by simp⟩

theorem Served.timed {done : List Item} (hs : Served done e) (h : e.Timed op item e') :
    Served (done ++ item.toList) e' := by
  cases h with
  | queued h =>
    rw [Option.toList_none, List.append_nil]
    refine ⟨hs.inOrder, hs.reached, fun d hd => Nat.lt_succ_of_lt (hs.older d hd), ?_⟩
    intro d hd i hi
    rcases mem_insertItem.mp hi with rfl | hi
    · -- the clock has passed what was handed over, so the new item is due no earlier
      have hreached := hs.reached d hd
      have holder := hs.older d hd
      simp only [Item.Before]
      omega
    · exact hs.ahead d hd i hi
  | dropped player =>
    rw [Option.toList_none, List.append_nil]
    exact ⟨hs.inOrder, hs.reached, hs.older,
      fun d hd i hi => hs.ahead d hd i (List.mem_filter.mp hi).1⟩
  | moved tick =>
    rw [Option.toList_none, List.append_nil]
    exact ⟨hs.inOrder, fun d hd => Nat.le_trans (hs.reached d hd) (Nat.le_max_left _ _), hs.older,
      hs.ahead⟩
  | @handed _ item first due =>
    have hmem : item ∈ e.queue.items := List.mem_of_mem_head? first
    have hlast : ∀ d ∈ done ++ [item], d ∈ done ∨ d = item := by simp
    refine ⟨?_, ?_, ?_, ?_⟩
    · exact List.pairwise_append.mpr
        ⟨hs.inOrder, List.pairwise_singleton _ _, fun d hd i hi => by
          rw [List.mem_singleton.mp hi]; exact hs.ahead d hd item hmem⟩
    · intro d hd
      rcases hlast d hd with hd | rfl
      · exact Nat.le_trans (hs.reached d hd) (Nat.le_max_left _ _)
      · exact Nat.le_max_right _ _
    · intro d hd
      rcases hlast d hd with hd | rfl
      · exact hs.older d hd
      · exact e.queue.fresh d hmem
    · intro d hd i hi
      rcases hlast d hd with hd | rfl
      · exact hs.ahead d hd i (List.mem_of_mem_tail hi)
      · exact Queue.first_before_rest first i hi
  | idle early => rwa [Option.toList_none, List.append_nil]

theorem Served.run {done : List Item} (hs : Served done e) (ops : List TimerOp) :
    Served (done ++ e.pops ops) (e.runTimer ops) := by
  induction ops generalizing e done with
  | nil => simpa using hs
  | cons op ops ih => simpa using ih (hs.timed (e.timed op))

theorem served_pops (e : Engine) (ops : List TimerOp) : Served (e.pops ops) (e.runTimer ops) := by
  simpa using (served_nil e).run ops

/-! ## One item -/

/-- An item is in the queue, the only one of its serial number. -/
structure Waiting (i : Item) (e : Engine) : Prop where
  mem : i ∈ e.queue.items
  sole : ∀ j ∈ e.queue.items, j.serial = i.serial → j = i

/-- No item of a serial number is in the queue, and the number is not given again. -/
structure Gone (serial : Nat) (e : Engine) : Prop where
  given : serial < e.queue.nextSerial
  absent : ∀ j ∈ e.queue.items, j.serial ≠ serial

theorem waiting_asked (e : Engine) (tick : Nat) (due : Due) :
    Waiting (e.asked tick due) (e.enqueue tick due) := by
  refine ⟨mem_insertItem.mpr (.inl rfl), fun j hj hserial => ?_⟩
  rcases mem_insertItem.mp hj with rfl | hj
  · rfl
  · exact absurd hserial (Nat.ne_of_lt (e.queue.fresh j hj))

theorem Gone.timed {serial : Nat} (hg : Gone serial e) (h : e.Timed op item e') :
    Gone serial e' ∧ ∀ j, item = some j → j.serial ≠ serial := by
  have hgiven := Nat.lt_of_lt_of_le hg.given h.serial_le
  cases h with
  | queued h =>
    refine ⟨⟨hgiven, fun j hj => ?_⟩, by simp⟩
    rcases mem_insertItem.mp hj with rfl | hj
    · exact Nat.ne_of_gt hg.given
    · exact hg.absent j hj
  | dropped player =>
    exact ⟨⟨hgiven, fun j hj => hg.absent j (List.mem_filter.mp hj).1⟩, by simp⟩
  | moved tick => exact ⟨⟨hgiven, hg.absent⟩, by simp⟩
  | @handed _ item first due =>
    refine ⟨⟨hgiven, fun j hj => hg.absent j (List.mem_of_mem_tail hj)⟩, ?_⟩
    rintro _ ⟨⟩
    exact hg.absent item (List.mem_of_mem_head? first)
  | idle early => exact ⟨hg, by simp⟩

theorem Gone.run {serial : Nat} (hg : Gone serial e) (ops : List TimerOp) :
    Gone serial (e.runTimer ops) ∧ ∀ j ∈ e.pops ops, j.serial ≠ serial := by
  induction ops generalizing e with
  | nil => exact ⟨hg, by simp⟩
  | cons op ops ih =>
    obtain ⟨hnext, hother⟩ := hg.timed (e.timed op)
    obtain ⟨hlast, hothers⟩ := ih hnext
    refine ⟨hlast, fun j hj => ?_⟩
    rcases List.mem_append.mp hj with hj | hj
    · exact hother j (Option.mem_toList.mp hj)
    · exact hothers j hj

variable {i : Item}

/-- An item waits on, or is handed over, or is dropped with all that is its player's. -/
theorem Waiting.timed (hw : Waiting i e) (h : e.Timed op item e') :
    (Waiting i e' ∧ ∀ j, item = some j → j.serial ≠ i.serial) ∨ (Gone i.serial e' ∧ item = some i) ∨
      (Gone i.serial e' ∧ item = none ∧ op = .cancel i.player) := by
  have hgiven := Nat.lt_of_lt_of_le (e.queue.fresh i hw.mem) h.serial_le
  cases h with
  | queued h =>
    refine .inl ⟨⟨mem_insertItem.mpr (.inr hw.mem), fun j hj hserial => ?_⟩, by simp⟩
    rcases mem_insertItem.mp hj with rfl | hj
    · exact absurd hserial (Nat.ne_of_gt (e.queue.fresh i hw.mem))
    · exact hw.sole j hj hserial
  | dropped player =>
    by_cases hown : i.player = player
    · refine .inr (.inr ⟨⟨hgiven, fun j hj hserial => ?_⟩, rfl, by rw [hown]⟩)
      obtain ⟨hj, hother⟩ := List.mem_filter.mp hj
      rw [hw.sole j hj hserial] at hother
      simp [hown] at hother
    · exact .inl ⟨⟨List.mem_filter.mpr ⟨hw.mem, by simpa using hown⟩,
        fun j hj => hw.sole j (List.mem_filter.mp hj).1⟩, by simp⟩
  | moved tick => exact .inl ⟨⟨hw.mem, hw.sole⟩, by simp⟩
  | @handed _ item first due =>
    have hhead : item ∈ e.queue.items := List.mem_of_mem_head? first
    by_cases hsame : item = i
    · subst hsame
      refine .inr (.inl ⟨⟨hgiven, fun j hj hserial => ?_⟩, rfl⟩)
      have hbefore := Queue.first_before_rest first j hj
      rw [hw.sole j (List.mem_of_mem_tail hj) hserial] at hbefore
      exact hbefore.irrefl
    · refine .inl ⟨⟨?_, fun j hj => hw.sole j (List.mem_of_mem_tail hj)⟩, ?_⟩
      · exact (Queue.eq_or_mem_rest first hw.mem).resolve_left (Ne.symm hsame)
      · rintro _ ⟨⟩ hserial
        exact hsame (hw.sole item hhead hserial)
  | idle early => exact .inl ⟨hw, by simp⟩

/-- Whatever is handed over under an item's serial number is that item. -/
theorem Waiting.sole_pops (hw : Waiting i e) (ops : List TimerOp) :
    ∀ j ∈ e.pops ops, j.serial = i.serial → j = i := by
  induction ops generalizing e with
  | nil => simp
  | cons op ops ih =>
    intro j hj hserial
    rcases hw.timed (e.timed op) with ⟨hnext, hother⟩ | ⟨hgone, hitem⟩ | ⟨hgone, hitem, -⟩ <;>
      rcases List.mem_append.mp hj with hj | hj
    · exact absurd hserial (hother j (Option.mem_toList.mp hj))
    · exact ih hnext j hj hserial
    · simpa [hitem, eq_comm] using hj
    · exact absurd hserial ((hgone.run ops).2 j hj)
    · simp [hitem] at hj
    · exact absurd hserial ((hgone.run ops).2 j hj)

/-- An item is in the queue until it is handed over, or all that is its player's is dropped. -/
theorem Waiting.run (hw : Waiting i e) (ops : List TimerOp) :
    (Waiting i (e.runTimer ops) ∧ i ∉ e.pops ops) ∨
      (Gone i.serial (e.runTimer ops) ∧ (i ∈ e.pops ops ∨ .cancel i.player ∈ ops)) := by
  induction ops generalizing e with
  | nil => exact .inl ⟨hw, by simp⟩
  | cons op ops ih =>
    rcases hw.timed (e.timed op) with ⟨hnext, hother⟩ | ⟨hgone, hitem⟩ | ⟨hgone, -, rfl⟩
    · have hnot : i ∉ (e.popped? op).toList := fun hi => hother i (Option.mem_toList.mp hi) rfl
      rcases ih hnext with ⟨hlast, hpops⟩ | ⟨hlast, hpops⟩
      · exact .inl ⟨hlast, by simp [hnot, hpops]⟩
      · exact .inr ⟨hlast, hpops.imp (by simp +contextual) (List.mem_cons_of_mem op)⟩
    · exact .inr ⟨(hgone.run ops).1, .inl (by simp [hitem])⟩
    · exact .inr ⟨(hgone.run ops).1, .inr List.mem_cons_self⟩

/-- What is still in the queue when all that is its player's is dropped is never handed over. -/
theorem Waiting.dropped (hw : Waiting i e) {before : List TimerOp} (hnot : i ∉ e.pops before)
    (after : List TimerOp) : i ∉ e.pops (before ++ .cancel i.player :: after) := by
  have hgone : Gone i.serial ((e.runTimer before).timer (.cancel i.player)) := by
    rcases hw.run before with ⟨hlast, -⟩ | ⟨hlast, -⟩
    · rcases hlast.timed (Engine.timed _ (.cancel i.player)) with
        ⟨hnext, -⟩ | ⟨hgone, -⟩ | ⟨hgone, -⟩
      · have hother := (List.mem_filter.mp hnext.mem).2
        simp at hother
      · exact hgone
      · exact hgone
    · exact (hlast.timed (Engine.timed _ _)).1
  rw [pops_append, List.mem_append]
  rintro (hi | hi)
  · exact hnot hi
  · exact (hgone.run after).2 i (by simpa [popped?] using hi) rfl

/-- What becomes of an item in a run that starts when it has just been queued. -/
structure Fate (i : Item) (e : Engine) (ops : List TimerOp) : Prop where
  /-- Nothing is lost: what has not been handed over still waits. -/
  kept : ∀ before after, ops = before ++ after → .cancel i.player ∉ before →
    (i ∈ (e.runTimer before).queue.items ↔ i ∉ e.pops before)
  dropped : ∀ before after, ops = before ++ .cancel i.player :: after → i ∉ e.pops before →
    i ∉ e.pops ops

theorem Waiting.fate (hw : Waiting i e) (ops : List TimerOp) : Fate i e ops where
  kept before after _ hkeep := by
    rcases hw.run before with ⟨hlast, hpops⟩ | ⟨hlast, hpops⟩
    · exact iff_of_true hlast.mem hpops
    · have hpops : i ∈ e.pops before := hpops.resolve_right hkeep
      exact iff_of_false (fun hmem => hlast.absent i hmem rfl) (not_not_intro hpops)
  dropped before after hops hnot := hops ▸ hw.dropped hnot after

/-- An item is handed over at most once, since nothing is before itself. -/
theorem Waiting.once (hw : Waiting i e) (ops : List TimerOp) :
    (e.pops ops).filter (fun j => j.serial == i.serial) = [] ∨
      (e.pops ops).filter (fun j => j.serial == i.serial) = [i] := by
  have hsole : ∀ j ∈ (e.pops ops).filter (fun j => j.serial == i.serial), j = i := by
    intro j hj
    obtain ⟨hj, hserial⟩ := List.mem_filter.mp hj
    exact hw.sole_pops ops j hj (beq_iff_eq.mp hserial)
  have hordered := (served_pops e ops).inOrder.filter fun j => j.serial == i.serial
  generalize (e.pops ops).filter (fun j => j.serial == i.serial) = found at hsole hordered
  match found with
  | [] => exact .inl rfl
  | [j] => exact .inr (by rw [hsole j List.mem_cons_self])
  | j :: k :: _ =>
    have hbefore : j.Before k := (List.pairwise_cons.mp hordered).1 k List.mem_cons_self
    rw [hsole j (by simp), hsole k (by simp)] at hbefore
    exact hbefore.irrefl.elim

/-! ## The whole run -/

/-- The timer neither loses nor doubles nor reorders. In every run

- what is handed over is strictly ordered by tick and, within a tick, by when it was queued;
- the clock never goes back, and is never behind what has been handed over;
- something is handed over exactly when something is due by the limit, and it is what comes first;
- dropping what is queued for a player leaves what is queued for any other;
- what is queued leaves at the tick that was asked for, or at the clock if that was later, at most
  once, and is kept until it does, unless all that is its player's is dropped first: then it never
  leaves. -/
theorem timer_exact (e : Engine) (ops : List TimerOp) :
    (e.pops ops).Pairwise Item.Before ∧
    (∀ before after, ops = before ++ after →
      (e.runTimer before).now ≤ (e.runTimer ops).now ∧
        ∀ i ∈ e.pops before, i.tick ≤ (e.runTimer before).now) ∧
    (∀ before limit after, ops = before ++ .pop limit :: after →
      let now := e.runTimer before
      ((now.popped? (.pop limit)).isSome ↔ ∃ i ∈ now.queue.items, i.tick ≤ limit) ∧
        ∀ i, now.popped? (.pop limit) = some i → i ∈ now.queue.items ∧ i.tick ≤ limit ∧
          ∀ j ∈ now.queue.items, j = i ∨ i.Before j) ∧
    (∀ before player after, ops = before ++ .cancel player :: after → ∀ other, player ≠ other →
      ((e.runTimer before).timer (.cancel player)).queue.itemsOf other =
        (e.runTimer before).queue.itemsOf other) ∧
    (∀ before op after tick due, ops = before ++ op :: after → op.request? = some (tick, due) →
      let i := (e.runTimer before).asked tick due
      i.serial = e.queue.nextSerial + before.countP (fun op => op.request?.isSome) ∧
      ((e.pops ops).filter (fun j => j.serial == i.serial) = [] ∨
        (e.pops ops).filter (fun j => j.serial == i.serial) = [i]) ∧
        Fate i ((e.runTimer before).timer op) after) := by
  refine ⟨(served_pops e ops).inOrder, ?_, ?_, ?_, ?_⟩
  · rintro before after rfl
    rw [runTimer_append]
    exact ⟨now_le_runTimer _ after, (served_pops e before).reached⟩
  · exact fun before limit after _ => popped?_pop (e.runTimer before) limit
  · exact fun before player after _ other hne => Queue.itemsOf_removePlayer_other _ hne
  · rintro before op after tick due rfl hrequest i
    have hw : Waiting i ((e.runTimer before).timer op) :=
      timer_of_request hrequest _ ▸ waiting_asked _ tick due
    -- what was handed over before has an older serial number
    have holder : (e.pops before).filter (fun j => j.serial == i.serial) = [] := by
      refine List.filter_eq_nil_iff.mpr fun j hj => ?_
      exact fun h => Nat.ne_of_lt ((served_pops e before).older j hj) (beq_iff_eq.mp h)
    have hnone : (e.runTimer before).popped? op = none := by cases op <;> cases hrequest <;> rfl
    rw [pops_append, List.filter_append, holder, List.nil_append, pops_cons, hnone]
    exact ⟨nextSerial_runTimer e before, hw.once after, hw.fate after⟩

end Engine

end MidiRig
