import MidiRig.Player.Basic
import MidiRig.Player.Work

/-!
# Sequences and arpeggios alike

Both step ahead of the clock in the same way, whatever it is that they play. `Stepper` is what they
have in common, and `Stepper.Does` and `Stepper.Wakes` say all that an operation and a callback can
do to it: begin, strike, stop, step on. An arpeggio fits this because it plays exactly while keys
are held (`Arpeggio.Keyed`), so that a step never finds it without notes.
-/

namespace MidiRig

structure Stepper where
  playing : Bool
  lag : Nat
  /-- Tick of the step to come. -/
  nextTick : Nat
  sounding : Sounding

namespace Stepper

def stopped (p : Stepper) : Stepper := { p with playing := false, sounding := [] }

/-- Waits for the first callback. -/
def started (p : Stepper) (now : Nat) : Stepper :=
  { p with playing := true, nextTick := now + p.lag }

/-- After a step at `tick` that lasts `length`. -/
def stepped (p : Stepper) (events : List Event) (tick length : Nat) : Stepper :=
  { p with
    playing := true
    nextTick := tick + length
    sounding := p.sounding ++ events.flatMap (noteOffs length tick) }

def stepActions (p : Stepper) (events : List Event) (tick length : Nat) : List Action :=
  events.flatMap (strike length tick) ++ [.callback (tick + length - p.lag)]

def pruned (p : Stepper) (now : Nat) : Stepper := { p with sounding := p.sounding.prune now }

/-- What operations do, callbacks apart. -/
inductive Does (now : Nat) : Stepper → List Action → Stepper → Prop where
  | rests (p : Stepper) : Does now p [] p
  | stops {p : Stepper} (h : p.playing = true) :
      Does now p (.cancel :: p.sounding.release now) p.stopped
  | starts {p : Stepper} (h : p.playing = false) : Does now p [.callback now] (p.started now)
  | strikes {p : Stepper} (h : p.playing = false) (events : List Event) {length : Nat}
      (hpos : 0 < length) :
      Does now p (p.stepActions events now length) (p.stepped events now length)
  | seq {p q r : Stepper} {xs ys : List Action} (hxs : Does now p xs q) (hys : Does now q ys r) :
      Does now p (xs ++ ys) r

/-- What callbacks do. -/
inductive Wakes (now : Nat) : Stepper → List Action → Stepper → Prop where
  | sleeps {p : Stepper} (h : p.playing = false) : Wakes now p [] p
  | steps {p : Stepper} (h : p.playing = true) (events : List Event) {length : Nat}
      (hpos : 0 < length) : Wakes now p (p.stepActions events p.nextTick length)
        ((p.pruned now).stepped events p.nextTick length)
  | ends {p : Stepper} (h : p.playing = true) :
      Wakes now p (.cancel :: (p.pruned now).sounding.release now) p.stopped

end Stepper

/-! ## Sequences -/

namespace Sequence

variable {s : Sequence}

def stepper (s : Sequence) : Stepper := ⟨s.playing, s.lag, s.nextTick, s.sounding⟩

theorem stops_or_rests (s : Sequence) (m : Moment) :
    Stepper.Does m.now s.stepper (s.stopIfPlaying m).2 (s.stopIfPlaying m).1.stepper ∧
      (s.stopIfPlaying m).1.playing = false := by
  unfold stopIfPlaying
  split
  · next h => exact ⟨.stops h, rfl⟩
  · next h => exact ⟨.rests _, Bool.eq_false_iff.mpr h⟩

theorem does_play (s : Sequence) (loops : Float) (m : Moment) :
    Stepper.Does m.now s.stepper (s.play loops m).2 (s.play loops m).1.stepper := by
  obtain ⟨hstops, hsilent⟩ := s.stops_or_rests m
  unfold play
  cases playCount? loops with
  | none => exact hstops
  | some passes => exact hstops.seq (.starts hsilent)

theorem does_respond (s : Sequence) (m : Moment) {c : Call} (hc : c ≠ .wake) :
    Stepper.Does m.now s.stepper (s.respond m c).2 (s.respond m c).1.stepper := by
  cases c with
  | play loops => exact s.does_play loops m
  | dismiss => exact (s.stops_or_rests m).1
  | wake => exact absurd rfl hc
  | _ => exact .rests _

theorem actions_emit (s : Sequence) :
    s.emit.2 = s.stepper.stepActions s.stepEvents s.stepper.nextTick s.stepTicks := rfl

theorem stepper_emit (h : s.playing = true) :
    s.emit.1.stepper = s.stepper.stepped s.stepEvents s.stepper.nextTick s.stepTicks := by
  obtain ⟨hplaying, hlag⟩ := s.stepOn_frame
  unfold emit stepper Stepper.stepped
  simp only [hplaying, hlag, h]

theorem stepper_choose? {chosen : Sequence} (h : s.choose? = some chosen) :
    chosen.stepper = s.stepper := by
  unfold choose? at h
  split at h
  · obtain ⟨found, -, rfl⟩ := Option.map_eq_some_iff.mp h
    rfl
  · cases h
    rfl

theorem wakes_wake (s : Sequence) (m : Moment) :
    Stepper.Wakes m.now s.stepper (s.wake m).2 (s.wake m).1.stepper := by
  unfold wake
  split
  · next h => exact .sleeps (p := s.stepper) (show s.playing = false by simpa using h)
  next h =>
  have hplaying : s.playing = true := by simpa using h
  simp only
  split
  · next chosen hchoose =>
    have hstepper : chosen.stepper = s.stepper.pruned m.now := stepper_choose? hchoose
    have hon : chosen.playing = true := (congrArg Stepper.playing hstepper).trans hplaying
    have hpos : 0 < chosen.stepTicks := chosen.stepping.stepTicks_pos chosen.tempo chosen.step
    rw [actions_emit, stepper_emit hon, hstepper]
    exact Stepper.Wakes.steps (p := s.stepper) hplaying chosen.stepEvents hpos
  · exact .ends (p := s.stepper) hplaying

end Sequence

/-! ## Arpeggios -/

namespace Arpeggio

variable {p : Arpeggio}

def stepper (p : Arpeggio) : Stepper := ⟨p.playing, p.lag, p.nextTick, p.sounding⟩

/-- An arpeggio plays exactly while keys are held, and then it has notes. -/
structure Keyed (p : Arpeggio) : Prop where
  playing : p.playing = !p.held.isEmpty
  notes : p.held ≠ [] → p.notes ≠ []

theorem keyed_make (d : ArpeggioDef) (config : SequencerConfig) (rate : Float) :
    (Arpeggio.make d config rate).Keyed := ⟨rfl, fun h => absurd rfl h⟩

theorem arrange_ne_nil (style : ArpeggioStyle) {held : List Event} (h : held ≠ []) :
    style.arrange held ≠ [] := by
  have hup : ArpeggioStyle.upward held ≠ [] := by
    intro hnil
    have hlength := (List.mergeSort_perm held ArpeggioStyle.below).length_eq
    rw [show held.mergeSort ArpeggioStyle.below = [] from hnil] at hlength
    exact h (List.eq_nil_of_length_eq_zero hlength.symm)
  cases style with
  | manual => exact h
  | down => simpa [ArpeggioStyle.arrange] using hup
  | both => simp [ArpeggioStyle.arrange, hup]
  | up => exact hup
  | chord => exact hup

/-- A step with notes is played. -/
theorem actions_emit (h : p.notes ≠ []) :
    p.emit.2 = p.stepper.stepActions p.stepEvents p.stepper.nextTick p.stepTicks := by
  unfold emit
  rw [if_neg (by simpa using h)]
  rfl

theorem stepper_emit (h : p.notes ≠ []) (hplaying : p.playing = true) :
    p.emit.1.stepper = p.stepper.stepped p.stepEvents p.stepper.nextTick p.stepTicks := by
  unfold emit
  rw [if_neg (by simpa using h)]
  simp only [stepper, Stepper.stepped, hplaying]

theorem keyed_emit (h : p.Keyed) : p.emit.1.Keyed := by
  unfold emit
  split
  · exact h
  · exact ⟨h.playing, h.notes⟩

theorem does_start (hnotes : p.notes ≠ []) (hsilent : p.playing = false) (m : Moment) :
    Stepper.Does m.now p.stepper (p.start m).2 (p.start m).1.stepper := by
  unfold start
  simp only
  split
  · rw [actions_emit (by exact hnotes), stepper_emit (by exact hnotes) rfl]
    exact Stepper.Does.strikes (p := p.stepper) hsilent _ (Stepping.stepTicks_pos _ _ _)
  · exact Stepper.Does.starts (p := p.stepper) hsilent

theorem keyed_start (hheld : p.held ≠ []) (hnotes : p.notes ≠ []) (m : Moment) :
    (p.start m).1.Keyed := by
  have hplaying : true = !p.held.isEmpty := by simpa using hheld
  unfold start
  simp only
  split
  · exact keyed_emit ⟨hplaying, fun _ => hnotes⟩
  · exact ⟨hplaying, fun _ => hnotes⟩

theorem does_letGo (p : Arpeggio) (m : Moment) :
    Stepper.Does m.now p.stepper (p.letGo m).2 (p.letGo m).1.stepper ∧
      (p.letGo m).1.playing = false ∧ (p.letGo m).1.Keyed := by
  unfold letGo
  simp only
  split
  · next h => exact ⟨.stops (p := p.stepper) h, rfl, rfl, fun h => absurd rfl h⟩
  · next h =>
    have hsilent : p.playing = false := Bool.eq_false_iff.mpr h
    exact ⟨.rests _, hsilent, hsilent, fun h => absurd rfl h⟩

/-- The first key finds an arpeggio silent, and the last release finds it playing. -/
theorem does_add (h : p.Keyed) (e : Event) (m : Moment) :
    Stepper.Does m.now p.stepper (p.add e m).2 (p.add e m).1.stepper ∧ (p.add e m).1.Keyed := by
  unfold add
  split
  · exact ⟨.rests _, h⟩
  simp only
  have hnotes : holdKey p.held e ≠ [] → p.style.arrange (holdKey p.held e) ≠ [] :=
    arrange_ne_nil p.style
  by_cases hbefore : p.held = []
  · have hsilent : p.playing = false := by rw [h.playing, hbefore]; rfl
    rw [if_pos (by simpa using hbefore)]
    by_cases hafter : holdKey p.held e = []
    · rw [if_pos (by simpa using hafter)]
      refine ⟨.rests _, ?_, hnotes⟩
      show p.playing = !(holdKey p.held e).isEmpty
      rw [hsilent, hafter]
      rfl
    · rw [if_neg (by simpa using hafter)]
      have hstart := does_start
        (p := { p with held := holdKey p.held e, notes := p.style.arrange (holdKey p.held e) })
        (hnotes hafter) hsilent m
      exact ⟨hstart, keyed_start hafter (hnotes hafter) m⟩
  · have hplaying : p.playing = true := by rw [h.playing]; simpa using hbefore
    rw [if_neg (by simpa using hbefore)]
    by_cases hafter : holdKey p.held e = []
    · rw [if_pos (by simpa using hafter)]
      refine ⟨.stops (p := p.stepper) hplaying, ?_, hnotes⟩
      show false = !(holdKey p.held e).isEmpty
      rw [hafter]
      rfl
    · rw [if_neg (by simpa using hafter)]
      refine ⟨.rests _, ?_, hnotes⟩
      show p.playing = !(holdKey p.held e).isEmpty
      rw [hplaying]
      simpa using hafter

theorem does_respond (h : p.Keyed) (m : Moment) {c : Call} (hc : c ≠ .wake) :
    Stepper.Does m.now p.stepper (p.respond m c).2 (p.respond m c).1.stepper ∧
      (p.respond m c).1.Keyed := by
  cases c with
  | play loops =>
    simp only [respond]
    split
    · exact ⟨(p.does_letGo m).1, (p.does_letGo m).2.2⟩
    · exact ⟨.rests _, h⟩
  | add e => exact does_add h e m
  | dismiss => exact ⟨(p.does_letGo m).1, (p.does_letGo m).2.2⟩
  | wake => exact absurd rfl hc
  | tempo bpm => exact ⟨.rests _, h.playing, h.notes⟩
  | swing share => exact ⟨.rests _, h.playing, h.notes⟩
  | groove accents => exact ⟨.rests _, h.playing, h.notes⟩
  | _ => exact ⟨.rests _, h⟩

theorem wakes_wake (h : p.Keyed) (m : Moment) :
    Stepper.Wakes m.now p.stepper (p.wake m).2 (p.wake m).1.stepper ∧ (p.wake m).1.Keyed := by
  unfold wake
  split
  · next hplaying =>
    have hheld : p.held ≠ [] := by
      have := h.playing
      rw [hplaying] at this
      simpa using this.symm
    have hnotes := h.notes hheld
    refine ⟨?_, keyed_emit ⟨h.playing, h.notes⟩⟩
    rw [actions_emit (by exact hnotes), stepper_emit (by exact hnotes) (by exact hplaying)]
    exact Stepper.Wakes.steps (p := p.stepper) hplaying _ (Stepping.stepTicks_pos _ _ _)
  · next hplaying => exact ⟨.sleeps (Bool.eq_false_iff.mpr hplaying), h⟩

end Arpeggio

end MidiRig
