import MidiRig.Proofs.Player.Edits
import MidiRig.Proofs.Player.Pass
import MidiRig.Proofs.Player.Sums

/-!
# How far ahead players count

A player counts on from one tick (`Player.front`), by one length at a callback, and asks for the
next callback no more than the lag before that tick. So a callback finds it no further ahead than
the lag and one length for each callback behind it (`Agenda.Follows`), and with the lengths all sums
are bounded (`Player.Follows.sums_le`). Nothing that a player is told changes that
(`Player.Follows.respond`).
-/

namespace MidiRig

/-! ## Callbacks and the tick counted on from -/

namespace Agenda

/-- Each callback is at most the lag behind, and a length for each callback that comes after it. -/
def Near (lag length front : Nat) : Agenda → Prop
  | [] => True
  | x :: rest =>
    (x.event = none → front ≤ x.tick + lag + callbacks rest * length) ∧ Near lag length front rest

/-- So are the callbacks of a queue, and now. -/
structure Follows (lag length front now : Nat) (a : Agenda) : Prop where
  sorted : a.Sorted
  near : Near lag length front a
  now : front ≤ now + lag + a.callbacks * length

variable {a : Agenda} {lag length front next now tick : Nat}

theorem near_of_late (h : ∀ x ∈ a, front ≤ x.tick + lag) : Near lag length front a := by
  induction a with
  | nil => trivial
  | cons x rest ih =>
    obtain ⟨hx, hrest⟩ := List.forall_mem_cons.mp h
    exact ⟨fun _ => hx.trans (Nat.le_add_right _ _), ih hrest⟩

theorem Near.put_event (h : Near lag length front a) (tick : Nat) (e : Event) :
    Near lag length front (put ⟨tick, some e⟩ a) := by
  induction a with
  | nil => exact ⟨nofun, trivial⟩
  | cons x rest ih =>
    unfold put
    split
    · refine ⟨?_, ih h.2⟩
      rw [callbacks_put]
      exact h.1
    · exact ⟨nofun, h⟩

/-- A callback that is put in adds a length to those before it, and those behind it are late. -/
theorem Near.put_callback (h : Near lag length front a) (hsorted : a.Sorted)
    (hstep : next ≤ front + length) (htick : next ≤ tick + lag) :
    Near lag length next (put ⟨tick, none⟩ a) := by
  induction a with
  | nil => exact ⟨fun _ => htick.trans (Nat.le_add_right _ _), trivial⟩
  | cons x rest ih =>
    obtain ⟨hfirst, hrest⟩ := List.pairwise_cons.mp hsorted
    unfold put
    split
    · refine ⟨fun hx => ?_, ih h.2 hrest⟩
      have hnear := h.1 hx
      have hmore : callbacks (put ⟨tick, none⟩ rest) = callbacks rest + 1 := callbacks_put _ rest
      rw [hmore, Nat.succ_mul]
      omega
    · next hlate =>
      change ¬ x.tick ≤ tick at hlate
      refine ⟨fun _ => htick.trans (Nat.le_add_right _ _), near_of_late ?_⟩
      refine List.forall_mem_cons.mpr ⟨by omega, fun y hy => ?_⟩
      have := hfirst y hy
      omega

namespace Follows

theorem nil (h : front ≤ now + lag) : Follows lag length front now [] :=
  ⟨.nil, trivial, by simpa using h⟩

theorem mono {later : Nat} (h : Follows lag length front now a) (hle : now ≤ later) :
    Follows lag length front later a :=
  ⟨h.sorted, h.near, h.now.trans (by omega)⟩

theorem tail {e : Event} (h : Follows lag length front now (⟨tick, some e⟩ :: a)) :
    Follows lag length front now a :=
  ⟨h.sorted.of_cons, h.near.2, by simpa using h.now⟩

/-- A callback that is due does not stand for more than those behind it. -/
theorem due (h : Follows lag length front now (⟨tick, none⟩ :: a)) (hdue : tick ≤ now) :
    Follows lag length front now a := by
  refine ⟨h.sorted.of_cons, h.near.2, ?_⟩
  have hnear : front ≤ tick + lag + callbacks a * length := h.near.1 rfl
  omega

theorem event (h : Follows lag length front now a) (tick : Nat) (e : Event) :
    Follows lag length front now (act now a (.event e tick)) :=
  ⟨sorted_act now h.sorted _, h.near.put_event _ e, by simpa using h.now⟩

/-- To count on by no more than a length goes with a callback. -/
theorem callback (h : Follows lag length front now a) (hstep : next ≤ front + length)
    (htick : next ≤ tick + lag) : Follows lag length next now (act now a (.callback tick)) := by
  refine ⟨sorted_act now h.sorted _, h.near.put_callback h.sorted hstep (by omega), ?_⟩
  have hnow := h.now
  rw [callbacks_act_callback, Nat.succ_mul]
  omega

theorem strikes (h : Follows lag length front now a) (ticks tick : Nat) (events : List Event) :
    Follows lag length front now (perform now a (events.flatMap (strike ticks tick))) := by
  induction events generalizing a with
  | nil => exact h
  | cons e rest ih =>
    rw [List.flatMap_cons, perform_append]
    refine ih ?_
    unfold strike noteOffs
    split
    · exact (h.event tick e).event _ _
    · exact h.event tick e

end Follows

end Agenda

/-! ## Sequences and arpeggios -/

namespace Stepper

variable {p : Stepper} {a : Agenda} {length ticks now tick : Nat}

def Follows (length now : Nat) (a : Agenda) (p : Stepper) : Prop :=
  p.playing = true → a.Follows p.lag length p.nextTick now

theorem follows_started (p : Stepper) (now length : Nat) :
    (p.started now).Follows length now (Agenda.perform now [] [.callback now]) := fun _ =>
  (Agenda.Follows.nil (Nat.le_refl _)).callback (Nat.le_add_right _ _) (Nat.le_refl _)

theorem follows_stepped (h : a.Follows p.lag length tick now) (hticks : ticks ≤ length)
    (events : List Event) :
    (p.stepped events tick ticks).Follows length now
      (a.perform now (p.stepActions events tick ticks)) := by
  intro _
  unfold stepActions
  rw [Agenda.perform_append]
  refine (h.strikes ticks tick events).callback (Nat.add_le_add_left hticks _) ?_
  show tick + ticks ≤ tick + ticks - p.lag + p.lag
  omega

end Stepper

namespace Sequence

variable {s : Sequence} {a : Agenda} {m : Moment} {length : Nat}

theorem stepTicks_choose? {chosen : Sequence} (h : s.choose? = some chosen) :
    chosen.stepTicks = s.stepTicks := by
  unfold choose? at h
  split at h
  · obtain ⟨found, -, rfl⟩ := Option.map_eq_some_iff.mp h
    rfl
  · cases h
    rfl

theorem follows_play (hrest : s.playing = false → a = []) (loops : Float) :
    (s.play loops m).1.stepper.Follows length m.now (a.perform m.now (s.play loops m).2) := by
  obtain ⟨hstops, hsilent⟩ := s.stops_or_rests m
  have hnil := Stepper.rest_does hstops hrest hsilent
  unfold play
  cases playCount? loops with
  | none => exact fun hplaying => absurd (hsilent.symm.trans hplaying) nofun
  | some passes =>
    simp only
    rw [Agenda.perform_append, hnil]
    exact Stepper.follows_started (s.stopIfPlaying m).1.stepper m.now length

theorem follows_wake (hlength : ∀ step, s.stepping.stepTicks s.tempo step ≤ length)
    (h : s.stepper.Follows length m.now a) :
    (s.wake m).1.stepper.Follows length m.now (a.perform m.now (s.wake m).2) := by
  unfold wake
  split
  · exact h
  next hsilent =>
  have hplaying : s.playing = true := by simpa using hsilent
  simp only
  split
  · next chosen hchoose =>
    have hstepper : chosen.stepper = s.stepper.pruned m.now := stepper_choose? hchoose
    have hon : chosen.playing = true := (congrArg Stepper.playing hstepper).trans hplaying
    have hticks : chosen.stepTicks ≤ length := (stepTicks_choose? hchoose).trans_le (hlength s.step)
    rw [actions_emit, stepper_emit hon, hstepper]
    exact Stepper.follows_stepped (p := s.stepper.pruned m.now) (h hplaying) hticks _
  · exact nofun

theorem follows_respond (hrest : s.playing = false → a = [])
    (hlength : ∀ step, s.stepping.stepTicks s.tempo step ≤ length)
    (h : s.stepper.Follows length m.now a) (c : Call) :
    (s.respond m c).1.stepper.Follows length m.now (a.perform m.now (s.respond m c).2) := by
  cases c with
  | play loops => exact follows_play hrest loops
  | dismiss => exact fun hplaying => absurd ((s.stops_or_rests m).2.symm.trans hplaying) nofun
  | wake => exact follows_wake hlength h
  | _ => exact h

theorem sums_le (hlength : ∀ step, s.stepping.stepTicks s.tempo step ≤ length)
    (h : s.stepper.Follows length m.now a) (c : Call) :
    ∀ n ∈ s.sums m c, n ≤ m.now + s.lag + (a.callbacks + 1) * length := by
  cases c with
  | play loops =>
    simp only [sums, playSums]
    split
    · exact List.forall_mem_nil _
    · exact List.forall_mem_singleton.mpr (Nat.le_add_right _ _)
  | wake =>
    simp only [sums, wakeSums]
    split
    · exact List.forall_mem_nil _
    next hsilent =>
    split
    · next chosen hchoose =>
      have hplaying : s.playing = true := by simpa using hsilent
      have hnow := (h hplaying).now
      have hnext : chosen.nextTick = s.nextTick := (choose?_eq_some hchoose).2.2
      have hticks : chosen.stepTicks ≤ length :=
        (stepTicks_choose? hchoose).trans_le (hlength s.step)
      refine List.forall_mem_singleton.mpr ?_
      change s.nextTick ≤ m.now + s.lag + a.callbacks * length at hnow
      rw [hnext, Nat.succ_mul]
      omega
    · exact List.forall_mem_nil _
  | _ => exact List.forall_mem_nil _

end Sequence

namespace Arpeggio

variable {p : Arpeggio} {a : Agenda} {m : Moment} {length : Nat}

theorem follows_emit (hplaying : p.playing = true)
    (hlength : ∀ step, p.stepping.stepTicks p.tempo step ≤ length)
    (h : a.Follows p.lag length p.nextTick m.now) :
    p.emit.1.stepper.Follows length m.now (a.perform m.now p.emit.2) := by
  by_cases hnotes : p.notes = []
  · rw [show p.emit = (p, []) from by simp [emit, hnotes]]
    exact fun _ => h
  · rw [actions_emit hnotes, stepper_emit hnotes hplaying]
    exact Stepper.follows_stepped (p := p.stepper) h (hlength p.step) p.stepEvents

theorem follows_start (hlength : ∀ step, p.stepping.stepTicks p.tempo step ≤ length) :
    (p.start m).1.stepper.Follows length m.now (Agenda.perform m.now [] (p.start m).2) := by
  unfold start
  simp only
  split
  · exact follows_emit rfl hlength (Agenda.Follows.nil (Nat.le_add_right _ _))
  · exact Stepper.follows_started p.stepper m.now length

theorem follows_add (hkeyed : p.Keyed) (hrest : p.playing = false → a = [])
    (hlength : ∀ step, p.stepping.stepTicks p.tempo step ≤ length)
    (h : p.stepper.Follows length m.now a) (e : Event) :
    (p.add e m).1.stepper.Follows length m.now (a.perform m.now (p.add e m).2) := by
  unfold add
  split
  · exact h
  simp only
  cases hbefore : p.held.isEmpty <;> cases hafter : (holdKey p.held e).isEmpty
  · exact h
  · exact nofun
  · rw [hrest (by rw [hkeyed.playing, hbefore]; rfl)]
    exact follows_start hlength
  · exact h

theorem follows_respond (hkeyed : p.Keyed) (hrest : p.playing = false → a = [])
    (hlength : ∀ step, p.stepping.stepTicks p.tempo step ≤ length)
    (h : p.stepper.Follows length m.now a) (c : Call) :
    (p.respond m c).1.stepper.Follows length m.now (a.perform m.now (p.respond m c).2) := by
  have hletGo : (p.letGo m).1.stepper.Follows length m.now (a.perform m.now (p.letGo m).2) :=
    fun hplaying => absurd ((p.does_letGo m).2.1.symm.trans hplaying) nofun
  cases c with
  | play loops =>
    simp only [respond]
    split
    · exact hletGo
    · exact h
  | add e => exact follows_add hkeyed hrest hlength h e
  | dismiss => exact hletGo
  | wake =>
    simp only [respond, wake]
    split
    · next hplaying => exact follows_emit hplaying hlength (h hplaying)
    · exact h
  | _ => exact h

theorem emitSums_le {most : Nat} (hlength : ∀ step, p.stepping.stepTicks p.tempo step ≤ length)
    (hnext : p.nextTick ≤ most) : ∀ n ∈ p.emitSums, n ≤ most + length := by
  unfold emitSums
  split
  · exact List.forall_mem_nil _
  · exact List.forall_mem_singleton.mpr (Nat.add_le_add hnext (hlength p.step))

theorem sums_le (hlength : ∀ step, p.stepping.stepTicks p.tempo step ≤ length)
    (h : p.stepper.Follows length m.now a) (c : Call) :
    ∀ n ∈ p.sums m c, n ≤ m.now + p.lag + (a.callbacks + 1) * length := by
  rw [Nat.succ_mul, ← Nat.add_assoc]
  cases c with
  | add e =>
    simp only [sums, addSums]
    split
    · exact List.forall_mem_nil _
    split
    · unfold startSums
      split
      · exact emitSums_le hlength (by show m.now ≤ _; omega)
      · exact List.forall_mem_singleton.mpr (by show m.now + p.lag ≤ _; omega)
    · exact List.forall_mem_nil _
  | wake =>
    simp only [sums, wakeSums]
    split
    · next hplaying => exact emitSums_le hlength (h hplaying).now
    · exact List.forall_mem_nil _
  | _ => exact List.forall_mem_nil _

end Arpeggio

/-! ## Loops -/

namespace Loop

variable {l k : Loop} {a : Agenda} {m : Moment} {now length most ticks : Nat}

/-- Pass and entries last no longer than this. -/
structure Within (length : Nat) (l : Loop) : Prop where
  pass : ∀ ticks ∈ l.passTicks?, ticks ≤ length
  entry : ∀ x ∈ l.timeline, l.tempo.roundTicks x.1 ≤ length

theorem passTicks?_congr (htempo : k.tempo = l.tempo) (hbeats : k.beats = l.beats) :
    k.passTicks? = l.passTicks? := by
  unfold passTicks?
  rw [htempo, hbeats]

theorem Within.congr (h : l.Within length) (htempo : k.tempo = l.tempo) (htape : k.tape = l.tape) :
    k.Within length := by
  have hpass := passTicks?_congr htempo (congrArg Tape.beats htape)
  have htimeline : k.timeline = l.timeline := congrArg Tape.timeline htape
  refine ⟨hpass ▸ h.pass, ?_⟩
  rw [htimeline, htempo]
  exact h.entry

theorem within_of_startPlaying (h : (l.startPlaying m).1.Within length) : l.Within length :=
  h.congr (congrArg Prod.fst (clock_startPlaying l m)).symm (tape_startPlaying l m).symm

theorem within_of_resync (h : (l.resync m).1.Within length) : l.Within length :=
  h.congr (steady_resync l m).tempo.symm (tape_resync l m).symm

/-- While it plays it counts on with its callbacks; without a pass it has begun. -/
structure Follows (length now : Nat) (a : Agenda) (l : Loop) : Prop where
  counts : l.playing = true → a.Follows l.lag length l.front now
  begun : l.playing = true → l.passTicks? = none → l.passStart ≤ now

theorem follows_of_silent (h : l.playing = false) : l.Follows length now a :=
  ⟨fun hplaying => absurd (h.symm.trans hplaying) nofun,
    fun hplaying => absurd (h.symm.trans hplaying) nofun⟩

/-- What is asked for comes the lag before the tick that is counted on from then, or later. -/
theorem arm_counts (hwithin : l.Within length) (hinside : l.atEnd = false)
    (hknown : l.passTicks? = some ticks) :
    ∃ tick, l.arm.2 = [.callback tick] ∧ l.arm.1.front ≤ tick + l.lag ∧
      l.arm.1.front ≤ l.passStart + length := by
  have hticks : ticks ≤ length := hwithin.pass ticks hknown
  unfold arm
  rw [hknown]
  cases l.timeline[l.next]? with
  | some entry =>
    refine ⟨l.tickOf entry.1 - l.lag, rfl, ?_⟩
    show l.front ≤ _ ∧ l.front ≤ _
    rw [front, hinside, if_neg nofun, tickOf]
    omega
  | none =>
    refine ⟨l.passStart + ticks - l.lag, rfl, ?_⟩
    show l.passStart + l.passTicks?.getD 0 ≤ _ ∧ l.passStart + l.passTicks?.getD 0 ≤ _
    rw [hknown, Option.getD_some]
    omega

theorem follows_arm (hwithin : l.Within length) (hinside : l.atEnd = false)
    (hknown : l.passTicks? = some ticks) (h : a.Follows l.lag length l.passStart now) :
    l.arm.1.Follows length now (a.perform now l.arm.2) := by
  obtain ⟨tick, hasks, hlate, hstep⟩ := arm_counts hwithin hinside hknown
  refine ⟨fun _ => ?_, fun _ hnone => ?_⟩
  · rw [hasks, (arm_frame l).2.1]
    exact h.callback hstep hlate
  · rw [passTicks?_arm, hknown] at hnone
    cases hnone

theorem arm_of_none (h : l.passTicks? = none) : l.arm = (l, []) := by
  rw [arm, h]

/-- Nothing is queued but what is asked for now. -/
theorem follows_rearm (hwithin : l.Within length) (hstart : l.passStart ≤ now) :
    l.rearm.1.Follows length now (a.perform now l.rearm.2) := by
  obtain ⟨inside, hinside⟩ : ∃ k : Loop, k = { l with atEnd := false } := ⟨_, rfl⟩
  have hwithin : inside.Within length := by
    rw [hinside]
    exact hwithin.congr rfl rfl
  have hstart : inside.passStart ≤ now := by rwa [hinside]
  have hfront : inside.front = inside.passStart := by rw [hinside]; rfl
  have hnil : Agenda.Follows inside.lag length inside.passStart now [] := .nil (by omega)
  rw [rearm, ← hinside]
  show inside.arm.1.Follows length now (Agenda.perform now [] inside.arm.2)
  cases hknown : inside.passTicks? with
  | some ticks => exact follows_arm hwithin (by rw [hinside]) hknown hnil
  | none =>
    rw [arm_of_none hknown]
    exact ⟨fun _ => hfront ▸ hnil, fun _ _ => hstart⟩

theorem follows_startPlaying (hwithin : l.Within length) :
    (l.startPlaying m).1.Follows length m.now (a.perform m.now (l.startPlaying m).2) :=
  follows_rearm (hwithin.congr rfl rfl) (Nat.le_refl _)

theorem align_le (hknown : l.passTicks? = some ticks) : (l.align now).passStart ≤ now := by
  have hpos := passTicks?_pos hknown
  unfold align
  rw [hknown]
  simp only
  split
  · show l.passStart - _ ≤ now
    have hsplit := Nat.div_add_mod (l.passStart - now + (ticks - 1)) ticks
    have hrest := Nat.mod_lt (l.passStart - now + (ticks - 1)) hpos
    rw [Nat.mul_comm] at hsplit
    omega
  · show l.passStart + _ ≤ now
    have := Nat.div_mul_le_self (now - l.passStart) ticks
    omega

theorem follows_resync (hwithin : l.Within length)
    (hstart : l.passTicks? = none → l.passStart ≤ m.now) :
    (l.resync m).1.Follows length m.now (a.perform m.now (l.resync m).2) := by
  refine follows_rearm (hwithin.congr (tempo_align l m.now) (tape_align l m.now)) ?_
  show (l.align m.now).passStart ≤ m.now
  cases hknown : l.passTicks? with
  | some ticks => exact align_le hknown
  | none =>
    rw [align, hknown]
    exact hstart hknown

theorem follows_wake (hwithin : l.Within length) (h : l.Follows length now a) :
    l.wake.1.Follows length now (a.perform now l.wake.2) := by
  unfold wake
  cases hplaying : l.playing with
  | false => exact follows_of_silent hplaying
  | true =>
    cases hknown : l.passTicks? with
    | none => exact h
    | some ticks =>
      have hcounts := h.counts hplaying
      simp only
      cases hend : l.atEnd with
      | true =>
        have hfront : l.front = l.passStart + ticks := by
          rw [front, hend, hknown]
          rfl
        rw [hfront] at hcounts
        rw [if_pos rfl]
        unfold turnOver
        cases l.passes with
        | none => exact follows_arm (hwithin.congr rfl rfl) rfl hknown hcounts
        | some left =>
          simp only
          split
          · exact follows_of_silent rfl
          · exact follows_arm (hwithin.congr rfl rfl) rfl hknown hcounts
      | false =>
        have hfront : l.front = l.passStart := by
          rw [front, hend]
          rfl
        rw [hfront] at hcounts
        rw [if_neg nofun]
        unfold playNext
        cases l.timeline[l.next]? with
        | none => exact follows_arm hwithin hend hknown hcounts
        | some entry => exact follows_arm (hwithin.congr rfl rfl) hend hknown (hcounts.event _ _)

/-- The length of a pass that is known does not change with a recording. -/
theorem passTicks?_endLayer (l : Loop) (m : Moment) (h : l.passTicks? ≠ none) :
    (l.endLayer m).passTicks? = l.passTicks? := by
  unfold endLayer
  simp only
  split
  · next hfirst =>
    simp only [Bool.and_eq_true, Option.isNone_iff_eq_none] at hfirst
    exact absurd (by rw [passTicks?, hfirst.2]; rfl) h
  · rfl

theorem follows_play (hwithin : l.Within length) (h : l.Follows length m.now a) (loops : Float) :
    (l.play loops m).1.Follows length m.now (a.perform m.now (l.play loops m).2) := by
  unfold play
  split
  · exact follows_of_silent rfl
  · next passes _ =>
    split
    · exact h
    · exact follows_startPlaying (l := { l with passes }) (hwithin.congr rfl rfl)

theorem follows_setTempo {bpm : Float} (hafter : (l.setTempo bpm m).1.Within length) :
    (l.setTempo bpm m).1.Follows length m.now (a.perform m.now (l.setTempo bpm m).2) := by
  unfold setTempo at hafter ⊢
  cases hplaying : l.playing with
  | false => exact follows_of_silent rfl
  | true =>
    simp only [hplaying, Bool.not_true, Bool.false_eq_true, if_false] at hafter ⊢
    exact follows_resync (within_of_resync hafter) fun _ => Nat.sub_le _ _

theorem follows_startRecording (hwithin : l.Within length) (h : l.Follows length m.now a) :
    (l.startRecording m).1.Follows length m.now (a.perform m.now (l.startRecording m).2) := by
  unfold startRecording
  split
  · exact h
  · simp only
    split
    · exact ⟨h.counts, h.begun⟩
    · next hsilent =>
      split
      · have hbegun := follows_startPlaying (a := a) (m := m) hwithin
        exact ⟨hbegun.counts, hbegun.begun⟩
      · exact follows_of_silent (by simpa using hsilent)

theorem follows_stopRecording {keep : Option Nat}
    (hafter : (l.stopRecording keep m).1.Within length) (h : l.Follows length m.now a) :
    (l.stopRecording keep m).1.Follows length m.now
      (a.perform m.now (l.stopRecording keep m).2) := by
  obtain ⟨kept, hkept⟩ : ∃ k, k = (l.endLayer m).keepLayers keep := ⟨_, rfl⟩
  have hsame : kept.playing = l.playing := by
    rw [hkept]
    exact playing_endLayer l m
  have hstart : kept.passStart = l.passStart := by
    rw [hkept]
    exact congrArg Prod.snd (clock_endLayer l m)
  have hpass : l.passTicks? ≠ none → kept.passTicks? = l.passTicks? := by
    rw [hkept]
    exact l.passTicks?_endLayer m
  unfold stopRecording at hafter ⊢
  rw [← hkept] at hafter ⊢
  simp only at hafter ⊢
  split_ifs at hafter ⊢ with hempty hplaying hrecording
  · refine follows_of_silent ?_
    unfold becomeEmpty
    simp only
    split
    · rfl
    · next hsilent => simpa using hsilent
  · refine follows_resync (within_of_resync hafter) fun hnone => ?_
    rw [hstart]
    refine h.begun (hsame.symm.trans hplaying) ?_
    by_contra hknown
    exact hknown ((hpass hknown).symm.trans hnone)
  · exact follows_startPlaying (l := { kept with passes := none }) (within_of_startPlaying hafter)
  · exact follows_of_silent (by simpa using hplaying)

theorem follows_respond {c : Call} (hwithin : l.Within length)
    (hafter : (l.respond m c).1.Within length) (h : l.Follows length m.now a) :
    (l.respond m c).1.Follows length m.now (a.perform m.now (l.respond m c).2) := by
  cases c with
  | play loops => exact follows_play hwithin h loops
  | tempo bpm => exact follows_setTempo hafter
  | record value =>
    simp only [respond, record] at hafter ⊢
    split_ifs at hafter ⊢
    · exact follows_startRecording hwithin h
    · exact follows_stopRecording hafter h
    · exact follows_stopRecording hafter h
    · exact h
  | add e =>
    show (l.add e m).Follows length m.now a
    unfold add
    split
    · exact ⟨h.counts, h.begun⟩
    · exact h
  | dismiss => exact follows_of_silent rfl
  | wake => exact follows_wake hwithin h
  | _ => exact h

/-! ### Sums of loops -/

theorem armSums_le (hwithin : l.Within length) (hstart : l.passStart ≤ most) :
    ∀ n ∈ l.armSums, n ≤ most + length := by
  unfold armSums
  split
  · exact List.forall_mem_nil _
  · next ticks hknown =>
    split
    · next entry hentry =>
      exact List.forall_mem_singleton.mpr
        (Nat.add_le_add hstart (hwithin.entry entry (List.mem_of_getElem? hentry)))
    · exact List.forall_mem_singleton.mpr (Nat.add_le_add hstart (hwithin.pass ticks hknown))

theorem alignSums_le (hwithin : l.Within length) (hstart : l.passStart ≤ most) (hnow : now ≤ most) :
    ∀ n ∈ l.alignSums now, n ≤ most + length := by
  unfold alignSums
  split
  · exact List.forall_mem_nil _
  next ticks hknown =>
  have hticks := hwithin.pass ticks hknown
  split
  · refine List.forall_mem_singleton.mpr ?_
    have := Nat.div_mul_le_self (l.passStart - now + (ticks - 1)) ticks
    omega
  · have := Nat.div_mul_le_self (now - l.passStart) ticks
    exact List.forall_mem_cons.mpr ⟨by omega, List.forall_mem_singleton.mpr (by omega)⟩

theorem startPlayingSums_le (hwithin : l.Within length) (hnow : m.now ≤ most) :
    ∀ n ∈ l.startPlayingSums m, n ≤ most + length :=
  armSums_le (l := { l with passStart := m.now, next := 0 }) (hwithin.congr rfl rfl) hnow

theorem resyncSums_le (hwithin : l.Within length) (hstart : l.passStart ≤ most)
    (hnow : m.now ≤ most) : ∀ n ∈ l.resyncSums m, n ≤ most + length := by
  refine List.forall_mem_append.mpr ⟨alignSums_le hwithin hstart hnow, armSums_le ?_ ?_⟩
  · exact hwithin.congr (tempo_align l m.now) (tape_align l m.now)
  · exact (steady_align l m.now).start.trans (max_le hstart hnow)

theorem wakeSums_le (hwithin : l.Within length) (h : l.playing = true → l.front ≤ most) :
    ∀ n ∈ l.wakeSums, n ≤ most + length := by
  unfold wakeSums
  split
  · next ticks hplaying hknown =>
    have hfront := h hplaying
    split
    · next hend =>
      rw [front, if_pos hend, hknown, Option.getD_some] at hfront
      have hnext : ∀ n ∈ (l.nextPass ticks).armSums, n ≤ most + length :=
        armSums_le (hwithin.congr rfl rfl) hfront
      refine List.forall_mem_cons.mpr ⟨hfront.trans (Nat.le_add_right _ _), ?_⟩
      split
      · exact hnext
      · split
        · exact List.forall_mem_nil _
        · exact hnext
    · next hinside =>
      rw [front, if_neg hinside, Nat.add_zero] at hfront
      unfold playNextSums
      split
      · next entry hentry =>
        exact List.forall_mem_cons.mpr
          ⟨Nat.add_le_add hfront (hwithin.entry entry (List.mem_of_getElem? hentry)),
            armSums_le (l := { l with next := l.next + 1 }) (hwithin.congr rfl rfl) hfront⟩
      · exact armSums_le hwithin hfront
  · exact List.forall_mem_nil _

theorem setTempoSums_le {bpm : Float} (hwithin : l.Within length)
    (hafter : (l.setTempo bpm m).1.Within length) (hstart : l.playing = true → l.passStart ≤ most)
    (hnow : m.now ≤ most) : ∀ n ∈ l.setTempoSums bpm m, n ≤ most + length := by
  unfold setTempoSums
  unfold setTempo at hafter
  cases hplaying : l.playing with
  | false => exact List.forall_mem_nil _
  | true =>
    simp only [hplaying, Bool.not_true, Bool.false_eq_true, if_false] at hafter ⊢
    refine List.forall_mem_append.mpr ⟨alignSums_le hwithin (hstart hplaying) hnow, ?_⟩
    exact resyncSums_le (within_of_resync hafter) ((Nat.sub_le _ _).trans hnow) hnow

theorem stopRecordingSums_le {keep : Option Nat}
    (hafter : (l.stopRecording keep m).1.Within length)
    (hstart : l.playing = true → l.passStart ≤ most) (hnow : m.now ≤ most) :
    ∀ n ∈ l.stopRecordingSums keep m, n ≤ most + length := by
  unfold stopRecordingSums
  unfold stopRecording at hafter
  simp only at hafter ⊢
  split_ifs at hafter ⊢ with hempty hplaying hrecording
  · exact List.forall_mem_nil _
  · refine resyncSums_le (within_of_resync hafter) ?_ hnow
    have hsame : ((l.endLayer m).keepLayers keep).passStart = l.passStart :=
      congrArg Prod.snd (clock_endLayer l m)
    rw [hsame]
    exact hstart ((playing_endLayer l m).symm.trans hplaying)
  · exact startPlayingSums_le ((within_of_startPlaying hafter).congr rfl rfl) hnow
  · exact List.forall_mem_nil _

theorem passStart_le_front (l : Loop) : l.passStart ≤ l.front := Nat.le_add_right _ _

theorem sums_le {c : Call} (hwithin : l.Within length) (hafter : (l.respond m c).1.Within length)
    (h : l.Follows length m.now a) :
    ∀ n ∈ l.sums m c, n ≤ m.now + l.lag + (a.callbacks + 1) * length := by
  rw [Nat.succ_mul, ← Nat.add_assoc]
  have hnow : m.now ≤ m.now + l.lag + a.callbacks * length := by omega
  have hfront : l.playing = true → l.front ≤ m.now + l.lag + a.callbacks * length :=
    fun hplaying => (h.counts hplaying).now
  have hstart : l.playing = true → l.passStart ≤ m.now + l.lag + a.callbacks * length :=
    fun hplaying => l.passStart_le_front.trans (hfront hplaying)
  cases c with
  | play loops =>
    simp only [sums, playSums]
    split
    · exact List.forall_mem_nil _
    · split
      · exact List.forall_mem_nil _
      · exact startPlayingSums_le hwithin hnow
  | tempo bpm => exact setTempoSums_le hwithin hafter hstart hnow
  | record value =>
    simp only [sums, recordSums, respond, record] at hafter ⊢
    split_ifs at hafter ⊢
    · unfold startRecordingSums
      split
      · exact List.forall_mem_nil _
      · exact startPlayingSums_le hwithin hnow
    · exact stopRecordingSums_le hafter hstart hnow
    · exact stopRecordingSums_le hafter hstart hnow
    · exact List.forall_mem_nil _
  | wake => exact wakeSums_le hwithin hfront
  | _ => exact List.forall_mem_nil _

end Loop

/-! ## All players -/

namespace Player

variable {p : Player} {a : Agenda} {m : Moment} {c : Call} {length now : Nat}

/-- Steps, passes and entries of passes last no longer than this many ticks. -/
def Within (length : Nat) : Player → Prop
  | sequence s => ∀ step, s.stepping.stepTicks s.tempo step ≤ length
  | arpeggio p => ∀ step, p.stepping.stepTicks p.tempo step ≤ length
  | loop l => l.Within length
  | track _ => True

/-- The tick that a player counts on from follows its callbacks, while it plays. -/
def Follows (length now : Nat) (a : Agenda) : Player → Prop
  | sequence s => s.stepper.Follows length now a
  | arpeggio p => p.stepper.Follows length now a
  | loop l => l.Follows length now a
  | track _ => True

theorem follows_make (d : PlayerDef) (config : SequencerConfig) (rate : Float) :
    (make d config rate).Follows length now [] := by
  cases d with
  | sequence | arpeggio => exact nofun
  | loop => exact Loop.follows_of_silent rfl
  | track => trivial

namespace Follows

/-- It is enough to look at queues while the player plays. -/
theorem imp {later : Nat} {b : Agenda} (h : p.Follows length now a) (hle : now ≤ later)
    (hb : ∀ lag front, a.Follows lag length front now → b.Follows lag length front later) :
    p.Follows length later b := by
  cases p with
  | sequence | arpeggio => exact fun hplaying => hb _ _ (h hplaying)
  | loop l =>
    exact ⟨fun hplaying => hb _ _ (h.counts hplaying),
      fun hplaying hnone => (h.begun hplaying hnone).trans hle⟩
  | track => trivial

theorem mono {later : Nat} (h : p.Follows length now a) (hle : now ≤ later) :
    p.Follows length later a := h.imp hle fun _ _ ha => ha.mono hle

theorem tail {tick : Nat} {e : Event} (h : p.Follows length now (⟨tick, some e⟩ :: a)) :
    p.Follows length now a := h.imp (Nat.le_refl _) fun _ _ ha => ha.tail

theorem due {tick : Nat} (h : p.Follows length now (⟨tick, none⟩ :: a)) (hdue : tick ≤ now) :
    p.Follows length now a := h.imp (Nat.le_refl _) fun _ _ ha => ha.due hdue

theorem respond (h : p.Follows length m.now a) (htidy : p.Tidy a) (hbefore : p.Within length)
    (hafter : (p.respond m c).1.Within length) :
    (p.respond m c).1.Follows length m.now (a.perform m.now (p.respond m c).2) := by
  cases p with
  | sequence s => exact Sequence.follows_respond htidy hbefore h c
  | arpeggio p => exact Arpeggio.follows_respond htidy.1 htidy.2 hbefore h c
  | loop l => exact Loop.follows_respond hbefore hafter h
  | track => trivial

theorem sums_le (h : p.Follows length m.now a) (hbefore : p.Within length)
    (hafter : (p.respond m c).1.Within length) :
    ∀ n ∈ p.sums m c, n ≤ m.now + p.lag + (a.callbacks + 1) * length := by
  cases p with
  | sequence s => exact Sequence.sums_le hbefore h c
  | arpeggio p => exact Arpeggio.sums_le hbefore h c
  | loop l => exact Loop.sums_le hbefore hafter h
  | track => exact List.forall_mem_nil _

end Follows

end Player

end MidiRig
