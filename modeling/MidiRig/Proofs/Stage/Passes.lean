import MidiRig.Proofs.Player.Order
import MidiRig.Proofs.Stage.Waiting

/-!
# Passes of a loop

A loop that plays waits for one callback after the other, each for an entry or for the end of the
pass, and comes to the next of these with each (`Loop.wake_waiting_entry`, `Loop.wake_waiting_end`).
By itself, with time passing, it plays entry for entry and pass for pass
(`Loop.playsOut_of_lasts`). The callback for the end of the last pass stops it and drops what is
queued, so of all entries of all passes it plays those that are due by that callback
(`Loop.playsOut_counted`).
-/

namespace MidiRig

namespace Loop

variable {l : Loop} {length start next now limit last : ℕ} {left : Option ℕ} {x : Float × Event}

/-! ## Waiting -/

/-- In a pass that began at a tick, with some entries behind it and some passes to play. -/
def standing (l : Loop) (start next : ℕ) (left : Option ℕ) : Loop :=
  { l with playing := true, atEnd := false, passStart := start, next, passes := left }

/-- As it has asked for the callback to come. -/
def waiting (l : Loop) (start next : ℕ) (left : Option ℕ) : Loop := (l.standing start next left).arm.1

/-- Tick at which an entry is due, or the end of the pass behind the last one. -/
def due (l : Loop) (length start next : ℕ) : ℕ :=
  match l.timeline[next]? with
  | some x => start + l.tempo.roundTicks x.1
  | none => start + length

/-- Passes that are left after this one, if it is not the last. -/
def leftAfter? : Option ℕ → Option (Option ℕ)
  | none => some none
  | some left => if left ≤ 1 then none else some (some (left - 1))

theorem due_entry (length start : ℕ) (hx : l.timeline[next]? = some x) :
    l.due length start next = start + l.tempo.roundTicks x.1 := by
  rw [due, hx]

theorem due_end (length start : ℕ) (hnone : l.timeline[next]? = none) :
    l.due length start next = start + length := by
  rw [due, hnone]

theorem le_due (l : Loop) (length start next : ℕ) : start ≤ l.due length start next := by
  unfold due
  split <;> omega

theorem waiting_entry (hlength : l.passTicks? = some length) (start : ℕ) (left : Option ℕ)
    (hx : l.timeline[next]? = some x) : l.waiting start next left = l.standing start next left := by
  have hsame : (l.standing start next left).passTicks? = some length := hlength
  have hentry : (l.standing start next left).timeline[(l.standing start next left).next]? =
    some x := hx
  unfold waiting arm
  rw [hsame]
  simp only [hentry]

theorem waiting_end (hlength : l.passTicks? = some length) (start : ℕ) (left : Option ℕ)
    (hnone : l.timeline[next]? = none) :
    l.waiting start next left = { l.standing start next left with atEnd := true } := by
  have hsame : (l.standing start next left).passTicks? = some length := hlength
  have hend : (l.standing start next left).timeline[(l.standing start next left).next]? =
    none := hnone
  unfold waiting arm
  rw [hsame]
  simp only [hend]

theorem waiting_eq (hlength : l.passTicks? = some length) (start next : ℕ) (left : Option ℕ) :
    l.waiting start next left =
      { l.standing start next left with atEnd := l.timeline[next]?.isNone } := by
  cases hentry : l.timeline[next]? with
  | none => exact waiting_end hlength start left hentry
  | some x => exact waiting_entry hlength start left hentry

theorem arm_standing (hlength : l.passTicks? = some length) (start next : ℕ) (left : Option ℕ) :
    (l.standing start next left).arm =
      (l.waiting start next left, [.callback (l.due length start next - l.lag)]) := by
  have hsame : (l.standing start next left).passTicks? = some length := hlength
  refine Prod.ext rfl ?_
  unfold arm
  rw [hsame]
  show Prod.snd (match l.timeline[next]? with
    | some entry => (_, [Action.callback ((l.standing start next left).tickOf entry.1 - l.lag)])
    | none => (_, [Action.callback (start + length - l.lag)])) = _
  unfold due
  cases l.timeline[next]? <;> rfl

/-- The callback for an entry queues it, and asks for the next one. -/
theorem wake_waiting_entry (hlength : l.passTicks? = some length) (start : ℕ) (left : Option ℕ)
    (hx : l.timeline[next]? = some x) :
    (l.waiting start next left).wake = (l.waiting start (next + 1) left,
      [.event x.2 (start + l.tempo.roundTicks x.1),
        .callback (l.due length start (next + 1) - l.lag)]) := by
  have hsame : (l.standing start next left).passTicks? = some length := hlength
  have hentry : (l.standing start next left).timeline[(l.standing start next left).next]? =
    some x := hx
  have harm := arm_standing hlength start (next + 1) left
  rw [waiting_entry hlength start left hx]
  unfold wake
  simp only [hsame]
  show (l.standing start next left).playNext = _
  unfold playNext
  simp only [hentry]
  show ((l.standing start (next + 1) left).arm.1,
    Action.event x.2 (start + l.tempo.roundTicks x.1) ::
      (l.standing start (next + 1) left).arm.2) = _
  rw [harm]

theorem wake_waiting_none (hlength : l.passTicks? = some length) (start : ℕ) (left : Option ℕ)
    (hnone : l.timeline[next]? = none) :
    (l.waiting start next left).wake =
      Loop.turnOver { l.standing start next left with atEnd := true } length := by
  have hsame : ({ l.standing start next left with atEnd := true } : Loop).passTicks? =
    some length := hlength
  rw [waiting_end hlength start left hnone]
  unfold wake
  simp only [hsame]
  rfl

/-- The callback for the end of a pass begins the next one. -/
theorem wake_waiting_end (hlength : l.passTicks? = some length) (start : ℕ) {after : Option ℕ}
    (hleft : leftAfter? left = some after) (hnone : l.timeline[next]? = none) :
    (l.waiting start next left).wake = (l.waiting (start + length) 0 after,
      [.callback (l.due length (start + length) 0 - l.lag)]) := by
  rw [wake_waiting_none hlength start left hnone, ← arm_standing hlength]
  cases left with
  | none =>
    cases hleft
    rfl
  | some left =>
    by_cases hlast : left ≤ 1
    · rw [leftAfter?, if_pos hlast] at hleft
      cases hleft
    · rw [leftAfter?, if_neg hlast] at hleft
      cases hleft
      exact if_neg hlast

/-- The callback for the end of the last pass stops the loop. -/
theorem wake_waiting_last (hlength : l.passTicks? = some length) (start : ℕ)
    (hleft : leftAfter? left = none) (hnone : l.timeline[next]? = none) :
    ∃ k : Loop, (l.waiting start next left).wake = (k, [.cancel]) ∧ k.playing = false := by
  rw [wake_waiting_none hlength start left hnone]
  cases left with
  | none => cases hleft
  | some left =>
    by_cases hlast : left ≤ 1
    · exact ⟨(Loop.stop _).1, if_pos hlast, rfl⟩
    · rw [leftAfter?, if_neg hlast] at hleft
      cases hleft

/-- A call to play begins the first pass. -/
theorem play_eq (hlength : l.passTicks? = some length) {loops : Float}
    (hloops : playCount? loops = some left) (m : Moment) :
    l.play loops m = (l.waiting m.now 0 left,
      [.cancel, .callback (l.due length m.now 0 - l.lag)]) := by
  obtain ⟨beats, hbeats, -⟩ := passTicks?_eq hlength
  have hknown : l.beats.isNone = false := by rw [hbeats]; rfl
  have harm := arm_standing hlength m.now 0 left
  unfold play
  rw [hloops]
  simp only [hknown, Bool.false_eq_true, if_false]
  show ((l.standing m.now 0 left).arm.1, Action.cancel :: (l.standing m.now 0 left).arm.2) = _
  rw [harm]

/-! ## Entries of the passes -/

/-- The entries from one on in a pass that began at a tick. -/
def entries (l : Loop) (start next : ℕ) : List Timed :=
  (l.timeline.drop next).map fun x => ⟨start + l.tempo.roundTicks x.1, x.2⟩

/-- All entries of some passes. -/
def passEntries (l : Loop) (length start passes : ℕ) : List Timed :=
  (List.range passes).flatMap fun k => l.entries (start + k * length) 0

theorem passEntries_add (l : Loop) (length start passes more : ℕ) :
    l.passEntries length start (passes + more) =
      l.passEntries length start passes ++
        l.passEntries length (start + passes * length) more := by
  unfold passEntries
  rw [List.range_add, List.flatMap_append, List.flatMap_map]
  congr 1
  refine List.flatMap_congr fun k _ => ?_
  rw [Nat.add_mul, Nat.add_assoc]

theorem passEntries_one (l : Loop) (length start : ℕ) :
    l.passEntries length start 1 = l.entries start 0 := by
  simp [passEntries]

theorem passEntries_succ (l : Loop) (length start passes : ℕ) :
    l.passEntries length start (passes + 1) =
      l.entries start 0 ++ l.passEntries length (start + length) passes := by
  rw [Nat.add_comm, passEntries_add, passEntries_one, Nat.one_mul]

theorem le_of_mem_passEntries {passes : ℕ} {y : Timed}
    (hy : y ∈ l.passEntries length start passes) : start ≤ y.tick := by
  obtain ⟨k, -, hy⟩ := List.mem_flatMap.mp hy
  obtain ⟨x, -, rfl⟩ := List.mem_map.mp hy
  show start ≤ start + k * length + l.tempo.roundTicks x.1
  omega

/-- As many passes as there is time for, however many there are. -/
theorem upTo_passEntries_congr {passes more : ℕ} (hpasses : limit < start + passes * length)
    (hmore : limit < start + more * length) :
    Timed.upTo limit (l.passEntries length start passes) =
      Timed.upTo limit (l.passEntries length start more) := by
  have hextra : ∀ passes extra, limit < start + passes * length →
      Timed.upTo limit (l.passEntries length start (passes + extra)) =
        Timed.upTo limit (l.passEntries length start passes) := by
    intro passes extra hlimit
    have hlate : ∀ y ∈ l.passEntries length (start + passes * length) extra, limit < y.tick :=
      fun y hy => hlimit.trans_le (le_of_mem_passEntries hy)
    rw [passEntries_add, Timed.upTo_append, Timed.upTo_eq_nil hlate, List.append_nil]
  rcases Nat.le_total passes more with hle | hle
  · obtain ⟨extra, rfl⟩ := Nat.exists_eq_add_of_le hle
    exact (hextra passes extra hpasses).symm
  · obtain ⟨extra, rfl⟩ := Nat.exists_eq_add_of_le hle
    exact hextra more extra hmore

theorem entries_of_some (start : ℕ) (hx : l.timeline[next]? = some x) :
    l.entries start next = ⟨start + l.tempo.roundTicks x.1, x.2⟩ :: l.entries start (next + 1) := by
  obtain ⟨hlt, rfl⟩ := List.getElem?_eq_some_iff.mp hx
  unfold entries
  rw [List.drop_eq_getElem_cons hlt, List.map_cons]

theorem entries_of_none (start : ℕ) (hnone : l.timeline[next]? = none) :
    l.entries start next = [] := by
  unfold entries
  rw [List.drop_eq_nil_iff.mpr (List.getElem?_eq_none_iff.mp hnone), List.map_nil]

/-! ## Runs of passes -/

/-- Of these events, those that are due by the last tick play, and the player comes to such an
end. -/
def PlaysOut (ends : Solo → Prop) (limit last now : ℕ) (p : Part) (events : List Timed) : Prop :=
  ∃ t, ends t ∧ Solo.Drains limit ⟨now, p⟩ ((Timed.upTo last events).map Timed.played) t

variable {ends : Solo → Prop} {queued rest : List Timed}

/-- What is queued plays up to the callback, and the rest after it. -/
theorem PlaysOut.wake {m : Moment} (hordered : Timed.Ordered queued)
    (hqueued : ∀ y ∈ queued, now ≤ y.tick) (hnow : now ≤ m.now) (hlast : m.now ≤ last)
    (hlimit : last ≤ limit) (hquiet : atOnce m.now l.wake.2 = [])
    (h : PlaysOut ends limit last m.now ⟨some (.loop l.wake.1),
      Agenda.perform m.now ((Timed.after m.now queued).map Timed.slot) l.wake.2⟩
      (Timed.after m.now queued ++ rest)) :
    PlaysOut ends limit last now
      ⟨some (.loop l), Agenda.put ⟨m.now, none⟩ (queued.map Timed.slot)⟩ (queued ++ rest) := by
  obtain ⟨t, ht, hdrains⟩ := h
  have hwake := Solo.Drains.wake (p := .loop l) hordered hnow hqueued (hlast.trans hlimit) hdrains
  have hnothing : atOnce m.now ((Player.loop l).respond m .wake).2 = [] := hquiet
  rw [hnothing, List.nil_append, ← List.map_append, Timed.upTo_after_append hordered hlast] at hwake
  exact ⟨t, ht, hwake⟩

/-- Where neither the callback nor the rest is due, what is queued plays. -/
theorem playsOut_of_late {p : Option Player} {callback : ℕ} (hordered : Timed.Ordered queued)
    (hqueued : ∀ y ∈ queued, now ≤ y.tick) (hlate : limit < callback)
    (hrest : ∀ y ∈ rest, limit < y.tick) :
    PlaysOut (fun _ => True) limit limit now
      ⟨p, Agenda.put ⟨callback, none⟩ (queued.map Timed.slot)⟩ (queued ++ rest) := by
  obtain ⟨t, ht⟩ := Solo.Drains.events (p := p) hordered hqueued hlate
  refine ⟨t, trivial, ?_⟩
  rwa [Timed.upTo_append, Timed.upTo_eq_nil hrest, List.append_nil]

/-- As it waits, with events queued around the callback. -/
def waitingPart (l : Loop) (length start next : ℕ) (left : Option ℕ) (now : ℕ)
    (queued : List Timed) : Part :=
  ⟨some (.loop (l.waiting start next left)),
    Agenda.put ⟨max now (l.due length start next - l.lag), none⟩ (queued.map Timed.slot)⟩

/-- What is queued comes in order and no later than what the loop waits for, and all that lies
ahead. -/
structure Awaits (l : Loop) (length start next now : ℕ) (queued : List Timed) : Prop where
  ordered : Timed.Ordered queued
  ahead : ∀ y ∈ queued, now ≤ y.tick
  before : ∀ y ∈ queued, y.tick ≤ l.due length start next
  now_le : now ≤ l.due length start next

/-- From the end of a pass to the first entry of the next one. -/
theorem Awaits.turnOver {woken : ℕ} (ha : l.Awaits length start next now queued)
    (hwoken : woken = max now (l.due length start next - l.lag))
    (hnone : l.timeline[next]? = none) :
    l.Awaits length (start + length) 0 woken (Timed.after woken queued) := by
  have hfirst := l.le_due length (start + length) 0
  have hnow := ha.now_le
  rw [due_end length start hnone] at hwoken hnow
  refine ⟨ha.ordered.filter _, fun y hy => (Timed.mem_after.mp hy).2.le, fun y hy => ?_, by omega⟩
  have hbefore := ha.before y (Timed.mem_after.mp hy).1
  rw [due_end length start hnone] at hbefore
  exact hbefore.trans hfirst

/-- An entry that is queued comes behind what is queued, and a callback is asked for. -/
theorem perform_entry {tick : ℕ} (hqueued : ∀ y ∈ queued, y.tick ≤ max tick now) (e : Event)
    (callback : ℕ) :
    Agenda.perform now (queued.map Timed.slot) [.event e tick, .callback callback] =
      Agenda.put ⟨max now callback, none⟩
        ((queued ++ [(⟨max tick now, e⟩ : Timed)]).map Timed.slot) := by
  have hlast : ∀ y ∈ queued.map Timed.slot, y.tick ≤ (⟨max tick now, some e⟩ : Slot).tick := by
    intro y hy
    obtain ⟨z, hz, rfl⟩ := List.mem_map.mp hy
    exact hqueued z hz
  show Agenda.put ⟨max callback now, none⟩ (Agenda.put ⟨max tick now, some e⟩ _) = _
  rw [Agenda.put_of_le hlast, Nat.max_comm callback, List.map_append]
  rfl

/-- The callback for the end of a pass that is not the last. -/
theorem playsOut_end (hlength : l.passTicks? = some length) {after : Option ℕ}
    (hleft : leftAfter? left = some after) (hnone : l.timeline[next]? = none) (hlimit : last ≤ limit)
    (hdue : max now (l.due length start next - l.lag) ≤ last)
    (ha : l.Awaits length start next now queued)
    (hnext : PlaysOut ends limit last (max now (l.due length start next - l.lag))
      (l.waitingPart length (start + length) 0 after (max now (l.due length start next - l.lag))
        (Timed.after (max now (l.due length start next - l.lag)) queued))
      (Timed.after (max now (l.due length start next - l.lag)) queued ++ rest)) :
    PlaysOut ends limit last now (l.waitingPart length start next left now queued)
      (queued ++ rest) := by
  have hwake := wake_waiting_end hlength start hleft hnone
  refine .wake (m := ⟨max now (l.due length start next - l.lag), 0⟩) ha.ordered ha.ahead
    (Nat.le_max_left _ _) hdue hlimit ?_ ?_
  · rw [hwake]
    rfl
  · rw [hwake]
    show PlaysOut _ _ _ _ ⟨_, Agenda.put ⟨max _ _, none⟩ _⟩ _
    rw [Nat.max_comm (l.due length (start + length) 0 - l.lag)]
    exact hnext

section Ordered

variable {beats : Float} (h : l.Ordered) (hbeats : l.beats = some beats) (hfits : l.Fits beats)
  (hlength : l.passTicks? = some length)

include h hbeats hfits hlength

theorem due_le (start next : ℕ) : l.due length start next ≤ start + length := by
  unfold due
  split
  · next x hx =>
    have := h.offset_le hbeats hfits hlength x (List.mem_of_getElem? hx)
    omega
  · exact le_rfl

theorem due_le_due_succ (start : ℕ) (hx : l.timeline[next]? = some x) :
    l.due length start next ≤ l.due length start (next + 1) := by
  cases hy : l.timeline[next + 1]? with
  | none =>
    rw [due_end length start hy]
    exact due_le h hbeats hfits hlength start next
  | some y =>
    rw [due_entry length start hx, due_entry length start hy]
    obtain ⟨hlt, rfl⟩ := List.getElem?_eq_some_iff.mp hx
    obtain ⟨hlt', rfl⟩ := List.getElem?_eq_some_iff.mp hy
    have := List.pairwise_iff_getElem.mp (h.offsets hfits) next (next + 1) hlt hlt' (by omega)
    omega

omit hbeats hlength in
theorem due_le_of_mem_entries (start : ℕ) {y : Timed} (hy : y ∈ l.entries start next) :
    l.due length start next ≤ y.tick := by
  obtain ⟨x, hx, rfl⟩ := List.mem_map.mp hy
  obtain ⟨i, hi, rfl⟩ := List.mem_iff_getElem.mp hx
  rw [List.length_drop] at hi
  rw [due_entry length start (List.getElem?_eq_getElem (show next < l.timeline.length by omega)),
    List.getElem_drop]
  refine Nat.add_le_add_left ?_ start
  rcases Nat.eq_zero_or_pos i with rfl | hpos
  · exact le_rfl
  · exact List.pairwise_iff_getElem.mp (h.offsets hfits) next (next + i) (by omega) (by omega)
      (by omega)

/-- From one entry to the next, or to the end of the pass. -/
theorem Awaits.entry {woken : ℕ} (ha : l.Awaits length start next now queued)
    (hwoken : woken = max now (l.due length start next - l.lag))
    (hx : l.timeline[next]? = some x) :
    l.Awaits length start (next + 1) woken
      (Timed.after woken queued ++ [⟨start + l.tempo.roundTicks x.1, x.2⟩]) := by
  have hstep := due_le_due_succ h hbeats hfits hlength start hx
  have hnow := ha.now_le
  rw [due_entry length start hx] at hwoken hstep hnow
  have hsub : ∀ y ∈ Timed.after woken queued,
      woken < y.tick ∧ y.tick ≤ start + l.tempo.roundTicks x.1 := by
    intro y hy
    obtain ⟨hmem, hlate⟩ := Timed.mem_after.mp hy
    exact ⟨hlate, due_entry length start hx ▸ ha.before y hmem⟩
  refine ⟨?_, ?_, ?_, by omega⟩
  · refine List.pairwise_append.mpr ⟨ha.ordered.filter _, List.pairwise_singleton _ _, ?_⟩
    intro y hy z hz
    rw [List.mem_singleton.mp hz]
    exact (hsub y hy).2
  · intro y hy
    rcases List.mem_append.mp hy with hy | hy
    · exact (hsub y hy).1.le
    · rw [List.mem_singleton.mp hy]
      show woken ≤ start + l.tempo.roundTicks x.1
      omega
  · intro y hy
    rcases List.mem_append.mp hy with hy | hy
    · exact (hsub y hy).2.trans hstep
    · rw [List.mem_singleton.mp hy]
      exact hstep

/-- What plays in the pass in progress, where it is known what plays from its end on, and what
plays if a callback before it is not due. `keeps` is what is known of the clock at each callback. -/
theorem playsOut_pass (keeps : ℕ → Prop) (hlimit : last ≤ limit)
    (hkeeps : ∀ next now, keeps now → keeps (max now (l.due length start next - l.lag)))
    (hlate : ∀ next now queued, keeps now → l.Awaits length start next now queued →
      last < max now (l.due length start next - l.lag) →
      PlaysOut ends limit last now (l.waitingPart length start next left now queued)
        (queued ++ (l.entries start next ++ rest)))
    (hend : ∀ next now queued, keeps now → l.Awaits length start next now queued →
      l.timeline[next]? = none →
      PlaysOut ends limit last now (l.waitingPart length start next left now queued)
        (queued ++ rest))
    (hnow : keeps now) (ha : l.Awaits length start next now queued) :
    PlaysOut ends limit last now (l.waitingPart length start next left now queued)
      (queued ++ (l.entries start next ++ rest)) := by
  induction hcount : l.timeline.length - next generalizing next now queued with
  | zero =>
    have hnone : l.timeline[next]? = none := List.getElem?_eq_none_iff.mpr (by omega)
    rw [entries_of_none start hnone, List.nil_append]
    exact hend next now queued hnow ha hnone
  | succ count ih =>
    by_cases hdue : last < max now (l.due length start next - l.lag)
    · exact hlate next now queued hnow ha hdue
    have hx := List.getElem?_eq_getElem (show next < l.timeline.length by omega)
    have hahead := ha.now_le
    have hplays := ih (hkeeps next now hnow) (ha.entry h hbeats hfits hlength rfl hx) (by omega)
    rw [List.append_assoc, List.singleton_append, ← List.cons_append, ← entries_of_some start hx]
      at hplays
    have hwake := wake_waiting_entry hlength start left hx
    refine .wake (m := ⟨max now (l.due length start next - l.lag), 0⟩) ha.ordered ha.ahead
      (Nat.le_max_left _ _) (not_lt.mp hdue) hlimit ?_ ?_
    · rw [hwake]
      rfl
    · have hbehind := due_entry length start hx
      have hlater : max (start + l.tempo.roundTicks l.timeline[next].1)
          (max now (l.due length start next - l.lag)) =
            start + l.tempo.roundTicks l.timeline[next].1 := by omega
      rw [hwake, perform_entry, hlater]
      · exact hplays
      · intro y hy
        rw [hlater, ← hbehind]
        exact ha.before y (Timed.mem_after.mp hy).1

/-- As `playsOut_pass`, where the last callback comes no earlier than that for the end of this pass,
unless the clock has gone further. -/
theorem playsOut_pass_until {final : ℕ} (hfinal : start + length - l.lag ≤ final)
    (hlimit : last ≤ limit)
    (hend : ∀ next now queued, last = max now final → l.Awaits length start next now queued →
      l.timeline[next]? = none →
      PlaysOut ends limit last now (l.waitingPart length start next left now queued)
        (queued ++ rest))
    (hlast : last = max now final) (ha : l.Awaits length start next now queued) :
    PlaysOut ends limit last now (l.waitingPart length start next left now queued)
      (queued ++ (l.entries start next ++ rest)) := by
  have hdue : ∀ next, l.due length start next - l.lag ≤ final := fun next =>
    (Nat.sub_le_sub_right (due_le h hbeats hfits hlength start next) _).trans hfinal
  refine playsOut_pass h hbeats hfits hlength (fun now => last = max now final) hlimit
    (fun next now hnow => ?_) (fun next now queued hnow _ hlate => ?_) hend hlast ha
  · have := hdue next
    omega
  · have := hdue next
    omega

/-- A loop with so many passes left plays all of them in order, as far as it comes to the callback
for the end of the last one, and has stopped then. -/
theorem playsOut_counted (passes : ℕ)
    (hlast : last = max now (start + (passes + 1) * length - l.lag)) (hlimit : last ≤ limit)
    (ha : l.Awaits length start next now queued) :
    PlaysOut (fun t => ∃ k : Loop, k.playing = false ∧ t = ⟨last, some (.loop k), []⟩) limit last
      now (l.waitingPart length start next (some (passes + 1)) now queued)
      (queued ++ (l.entries start next ++ l.passEntries length (start + length) passes)) := by
  induction passes generalizing start next now queued with
  | zero =>
    refine playsOut_pass_until h hbeats hfits hlength (by omega) hlimit ?_ hlast ha
    intro next now queued hlast ha hnone
    obtain ⟨k, hwake, hstopped⟩ := 
      wake_waiting_last hlength start (show leftAfter? (some 1) = none from rfl) hnone
    have hwoken : last = max now (l.due length start next - l.lag) := by
      rw [due_end length start hnone]
      omega
    refine .wake (m := ⟨max now (l.due length start next - l.lag), 0⟩) ha.ordered ha.ahead
      (Nat.le_max_left _ _) hwoken.ge hlimit ?_ ?_
    · rw [hwake]
      rfl
    · -- nothing is left that the last callback has not dropped
      rw [hwake, ← hwoken]
      refine ⟨_, ⟨k, hstopped, rfl⟩, ?_⟩
      have hnothing : Timed.upTo last (Timed.after last queued ++ []) = [] := by
        rw [List.append_nil]
        exact Timed.upTo_eq_nil fun y hy => (Timed.mem_after.mp hy).2
      rw [show l.passEntries length (start + length) 0 = [] from rfl, hnothing]
      exact .rest nofun
  | succ passes ih =>
    have hend : start + length + (passes + 1) * length = start + (passes + 1 + 1) * length := by
      ring
    have hfinal : start + length - l.lag ≤ start + (passes + 1 + 1) * length - l.lag := by
      rw [← hend]
      exact Nat.sub_le_sub_right (Nat.le_add_right _ _) _
    rw [passEntries_succ]
    refine playsOut_pass_until h hbeats hfits hlength hfinal hlimit ?_ hlast ha
    intro next now queued hlast ha hnone
    have hdue := due_end length start hnone
    refine playsOut_end hlength rfl hnone hlimit (by rw [hdue]; omega) ha ?_
    exact ih (by rw [hend, hdue]; omega) (ha.turnOver rfl hnone)

/-- Where the callback is not due, no entry to come is. -/
theorem Awaits.playsOut_of_late (ha : l.Awaits length start next now queued)
    (hlate : limit < max now (l.due length start next - l.lag)) (passes : ℕ) :
    PlaysOut (fun _ => True) limit limit now (l.waitingPart length start next left now queued)
      (queued ++ (l.entries start next ++ l.passEntries length (start + length) passes)) := by
  have hdue : limit < l.due length start next := by
    have := ha.now_le
    omega
  refine Loop.playsOut_of_late ha.ordered ha.ahead hlate fun y hy => ?_
  rcases List.mem_append.mp hy with hy | hy
  · exact hdue.trans_le (due_le_of_mem_entries h hfits start hy)
  · have hend := due_le h hbeats hfits hlength start next
    exact hdue.trans_le (hend.trans (le_of_mem_passEntries hy))

/-- A loop with so many passes left after this one plays this one and those in order, up to any tick
before the callback for the end of the last of them. -/
theorem playsOut_of_lasts (passes : ℕ) (hleft : ∀ n, left = some n → passes ≤ n - 1)
    (hlimit : limit + l.lag < start + (passes + 1) * length)
    (ha : l.Awaits length start next now queued) :
    PlaysOut (fun _ => True) limit limit now (l.waitingPart length start next left now queued)
      (queued ++ (l.entries start next ++ l.passEntries length (start + length) passes)) := by
  induction passes generalizing start next now queued left with
  | zero =>
    refine playsOut_pass h hbeats hfits hlength (fun _ => True) le_rfl (fun _ _ _ => trivial)
      (fun _ _ _ _ ha hlate => ha.playsOut_of_late h hbeats hfits hlength hlate 0) ?_ trivial ha
    intro next now queued _ ha hnone
    have hdue := due_end length start hnone
    have hlate : limit < max now (l.due length start next - l.lag) := by
      rw [hdue]
      omega
    have hrest : PlaysOut _ limit limit now (l.waitingPart length start next left now queued) _ :=
      ha.playsOut_of_late h hbeats hfits hlength hlate 0
    rwa [entries_of_none start hnone, List.nil_append] at hrest
  | succ passes ih =>
    refine playsOut_pass h hbeats hfits hlength (fun _ => True) le_rfl (fun _ _ _ => trivial)
      (fun _ _ _ _ ha hlate => ha.playsOut_of_late h hbeats hfits hlength hlate _) ?_ trivial ha
    intro next now queued _ ha hnone
    by_cases hlate : limit < max now (l.due length start next - l.lag)
    · have hrest : PlaysOut _ limit limit now (l.waitingPart length start next left now queued) _ :=
        ha.playsOut_of_late h hbeats hfits hlength hlate (passes + 1)
      rwa [entries_of_none start hnone, List.nil_append] at hrest
    obtain ⟨after, hafter, hlasts⟩ : ∃ after, leftAfter? left = some after ∧
        ∀ n, after = some n → passes ≤ n - 1 := by
      cases left with
      | none => exact ⟨none, rfl, nofun⟩
      | some n =>
        have hmore := hleft n rfl
        refine ⟨some (n - 1), if_neg (by omega), ?_⟩
        rintro _ ⟨⟩
        omega
    have hend : start + length + (passes + 1) * length = start + (passes + 1 + 1) * length := by
      ring
    rw [passEntries_succ]
    exact playsOut_end hlength hafter hnone le_rfl (not_lt.mp hlate) ha
      (ih hlasts (by rw [hend]; exact hlimit) (ha.turnOver rfl hnone))

/-- Up to any tick before the callback for the end of the last pass. -/
theorem Awaits.playsOut (ha : l.Awaits length start next now queued)
    (hleft : ∀ n, left = some n → limit + l.lag < start + n * length) {passes : ℕ}
    (hlimit : limit + l.lag < start + (passes + 1) * length) :
    PlaysOut (fun _ => True) limit limit now (l.waitingPart length start next left now queued)
      (queued ++ (l.entries start next ++ l.passEntries length (start + length) passes)) := by
  obtain ⟨more, hmore, hlater⟩ : ∃ more, (∀ n, left = some n → more ≤ n - 1) ∧
      limit + l.lag < start + (more + 1) * length := by
    cases left with
    | none => exact ⟨passes, nofun, hlimit⟩
    | some n =>
      have hle : n * length ≤ (n - 1 + 1) * length := Nat.mul_le_mul_right _ (by omega)
      refine ⟨n - 1, ?_, by have := hleft n rfl; omega⟩
      rintro _ ⟨⟩
      exact le_rfl
  have hplays := playsOut_of_lasts h hbeats hfits hlength more hmore hlater ha
  rw [Nat.succ_mul] at hlimit hlater
  unfold PlaysOut at hplays ⊢
  rwa [Timed.upTo_append, Timed.upTo_append,
    upTo_passEntries_congr (by omega) (show limit < start + length + passes * length by omega),
    ← Timed.upTo_append,
    ← Timed.upTo_append] at hplays

end Ordered

end Loop

end MidiRig
