import MidiRig.Proofs.Clock.Pace
import MidiRig.Proofs.Player.Emissions

/-!
# The pace of players

Sequences and arpeggios have a pace, which only calls that set the tempo or the swing change
(`Player.pace?_respond`), and which is sound all their lives (`Life.sound_pace?`).
-/

namespace MidiRig

/-- Whether a call changes the pace. -/
def Call.setsPace : Call → Bool
  | .tempo _ | .swing _ => true
  | _ => false

namespace Sequence

def pace (s : Sequence) : Pace := ⟨s.tempo, s.stepping.division, s.stepping.swing⟩

theorem pace_stopIfPlaying (s : Sequence) (m : Moment) : (s.stopIfPlaying m).1.pace = s.pace := by
  unfold stopIfPlaying
  split <;> rfl

theorem pace_wake (s : Sequence) (m : Moment) : (s.wake m).1.pace = s.pace := by
  by_cases hplaying : s.playing = true
  · rw [s.wake_eq hplaying m]
    split
    · unfold emit stepOn
      split <;> rfl
    · rfl
  · unfold wake
    rw [if_pos (by simpa using hplaying)]

theorem pace_respond (s : Sequence) (m : Moment) {c : Call} (hc : c.setsPace = false) :
    (s.respond m c).1.pace = s.pace := by
  cases c with
  | play loops =>
    show (s.play loops m).1.pace = s.pace
    unfold play
    cases playCount? loops <;> exact s.pace_stopIfPlaying m
  | dismiss => exact s.pace_stopIfPlaying m
  | wake => exact s.pace_wake m
  | tempo | swing => cases hc
  | _ => rfl

end Sequence

namespace Arpeggio

def pace (p : Arpeggio) : Pace := ⟨p.tempo, p.stepping.division, p.stepping.swing⟩

theorem pace_emit (p : Arpeggio) : p.emit.1.pace = p.pace := by
  unfold emit
  split <;> rfl

theorem pace_start (p : Arpeggio) (m : Moment) : (p.start m).1.pace = p.pace := by
  unfold start
  simp only
  split
  · exact pace_emit _
  · rfl

theorem pace_letGo (p : Arpeggio) (m : Moment) : (p.letGo m).1.pace = p.pace := by
  unfold letGo
  simp only
  split <;> rfl

theorem pace_add (p : Arpeggio) (e : Event) (m : Moment) : (p.add e m).1.pace = p.pace := by
  unfold add
  split
  · rfl
  simp only
  split_ifs
  · rfl
  · exact pace_start _ m
  · rfl
  · rfl

theorem pace_respond (p : Arpeggio) (m : Moment) {c : Call} (hc : c.setsPace = false) :
    (p.respond m c).1.pace = p.pace := by
  cases c with
  | play loops =>
    show (if loops == 0.0 then p.letGo m else (p, [])).1.pace = p.pace
    split
    · exact p.pace_letGo m
    · rfl
  | add e => exact p.pace_add e m
  | dismiss => exact p.pace_letGo m
  | wake =>
    show (p.wake m).1.pace = p.pace
    unfold wake
    split
    · exact pace_emit _
    · rfl
  | tempo | swing => cases hc
  | _ => rfl

end Arpeggio

namespace Player

def pace? : Player → Option Pace
  | sequence s => some s.pace
  | arpeggio a => some a.pace
  | loop _ | track _ => none

variable {player : Player} {m : Moment} {c : Call} {p : Pace}

theorem pace?_respond (hc : c.setsPace = false) : (player.respond m c).1.pace? = player.pace? := by
  cases player with
  | sequence s => exact congrArg some (s.pace_respond m hc)
  | arpeggio a => exact congrArg some (a.pace_respond m hc)
  | loop | track => rfl

theorem stepTicks_of_pace? (h : player.pace? = some p) (step : Nat) :
    player.stepTicks step = p.stepTicks step := by
  cases player with
  | sequence | arpeggio => cases h; rfl
  | loop | track => cases h

theorem sound_pace?_make (d : PlayerDef) (config : SequencerConfig) (rate : Float) :
    ∀ p ∈ (make d config rate).pace?, p.Sound := by
  have hsound : ∀ (bpm : Float) (division : Nat) (swing : Float) (groove : List Float),
      Pace.Sound ⟨Tempo.of rate bpm, (Stepping.of division swing groove).division,
        (Stepping.of division swing groove).swing⟩ := by
    intro bpm division swing groove
    have hfair := Stepping.fair_of division swing groove
    exact ⟨Tempo.forward_of rate bpm, hfair.pos, hfair.share⟩
  cases d with
  | sequence d => rintro _ ⟨⟩; exact hsound _ d.division d.swing d.groove
  | arpeggio d => rintro _ ⟨⟩; exact hsound _ d.division d.swing d.groove
  | loop | track => nofun

theorem sound_pace?_respond (h : ∀ p ∈ player.pace?, p.Sound) :
    ∀ p ∈ (player.respond m c).1.pace?, p.Sound := by
  have htempo : ∀ {t : Tempo} {s : Stepping} (bpm : Float), Pace.Sound ⟨t, s.division, s.swing⟩ →
      Pace.Sound ⟨t.setBpm bpm, s.division, s.swing⟩ := fun bpm hs =>
    ⟨hs.forward.setBpm bpm, hs.pos, hs.share⟩
  have hswing : ∀ {t : Tempo} {s : Stepping} (swing : Float),
      Pace.Sound ⟨t, s.division, s.swing⟩ →
      Pace.Sound ⟨t, (s.setSwing swing).division, (s.setSwing swing).swing⟩ := by
    intro t s swing hs
    have hfair := Stepping.Fair.setSwing ⟨hs.pos, hs.share⟩ swing
    exact ⟨hs.forward, hfair.pos, hfair.share⟩
  by_cases hc : c.setsPace = true
  · cases player with
    | sequence s =>
      cases c with
      | tempo bpm => rintro _ ⟨⟩; exact htempo bpm (h _ rfl)
      | swing share => rintro _ ⟨⟩; exact hswing share (h _ rfl)
      | _ => cases hc
    | arpeggio a =>
      cases c with
      | tempo bpm => rintro _ ⟨⟩; exact htempo bpm (h _ rfl)
      | swing share => rintro _ ⟨⟩; exact hswing share (h _ rfl)
      | _ => cases hc
    | loop | track => nofun
  · rw [pace?_respond (by simpa using hc)]
    exact h

end Player

theorem Life.sound_pace? {r : Conduct} {d : PlayerDef} {busy : Bool} {now : Nat} {p : Part}
    {played : List Played} (h : Life r d busy now p played) :
    ∀ player, p.player = some player → ∀ q ∈ player.pace?, q.Sound :=
  h.keep (P := fun _ player => ∀ q ∈ player.pace?, q.Sound)
    (fun _ config rate _ => Player.sound_pace?_make d config rate) (fun _ _ _ _ => id)
    fun _ _ _ => Player.sound_pace?_respond

end MidiRig
