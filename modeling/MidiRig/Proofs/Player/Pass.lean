import MidiRig.Proofs.Clock.Tempo
import MidiRig.Proofs.Player.Recording

/-!
# A loop's pass in time

The beat of a tick is counted from the start of the pass. In a first recording it is that of the
ticks since it began, rounded once. In a pass of known length it lies within the length. Only a new
tempo changes the tempo, and only the end of a pass moves its start beyond the clock
(`Loop.clock_use`).

The numbers are exact only as far as the clock is: it is taken to stay below `2 ^ 53` ticks.
-/

namespace MidiRig

open Binary64

/-- The length that a definition without a problem fixes is a positive number. -/
theorem LoopDef.length_pos {d : LoopDef} (hd : d.problem? = none) {b : Float}
    (hb : d.beats = some b) : ∃ q, Has b q ∧ 0 < q := by
  unfold LoopDef.problem? at hd
  rw [hb] at hd
  simp only at hd
  split at hd
  · next hrate => exact Tempo.isRate_iff.mp hrate
  · cases hd

namespace Loop

variable {l : Loop} {b : Float} {q : ℚ} {now : ℕ}

/-! ## The beat of a tick -/

/-- Ticks since the pass began, where the pass may lie ahead. -/
theorem has_elapsed {now start : ℕ} (hnow : now < 2 ^ 53) (hstart : start ≤ 2 ^ 200) :
    ∃ d, Has (Float.ofNat now - Float.ofNat start) d ∧ |d| ≤ 2 ^ 256 ∧
      (start ≤ now → d = (now - start : ℕ)) ∧ (now ≤ start → d ≤ 0) := by
  have hsmall : (start : ℚ) ≤ 2 ^ 200 := by exact_mod_cast hstart
  have habs : |(start : ℚ)| ≤ 2 ^ 200 := by rwa [Nat.abs_cast]
  have hle := (abs_le.mp (abs_nearest_le habs)).2
  have hnonneg : 0 ≤ nearest (start : ℚ) := nearest_nonneg (Nat.cast_nonneg _)
  have hnowle : (now : ℚ) < 2 ^ 53 := by exact_mod_cast hnow
  have hwide : (2 : ℚ) ^ 200 ≤ 2 ^ 1023 := pow_le_pow_right₀ (by norm_num) (by norm_num)
  have hdiff : |(now : ℚ) - nearest start| ≤ 2 ^ 200 := by
    rw [abs_le]
    have hpos : (0 : ℚ) ≤ now := Nat.cast_nonneg _
    constructor <;> linarith
  have hhas := (has_natCast hnow).sub (has_ofNat (abs_nearest_lt (habs.trans hwide)))
    (abs_nearest_lt (hdiff.trans hwide))
  have hbound : (2 : ℚ) ^ 200 ≤ 2 ^ 256 := pow_le_pow_right₀ (by norm_num) (by norm_num)
  refine ⟨_, hhas, (abs_nearest_le hdiff).trans hbound, fun h => ?_, fun h => ?_⟩
  · rw [nearest_natCast (by omega), ← Nat.cast_sub h, nearest_natCast (by omega)]
  · have hover : (now : ℚ) ≤ nearest start := by
      rw [← nearest_natCast hnow]
      exact nearest_mono (by exact_mod_cast h)
    rw [← nearest_zero]
    exact nearest_mono (by linarith)

/-- In a first recording the beat of a tick is that of the ticks since it began. -/
theorem has_beatAt_first (hfine : l.tempo.Fine) (hstart : l.passStart ≤ 2 ^ 200)
    (hnone : l.beats = none) : ∃ r : ℚ, 0 ≤ r ∧ ∀ t < 2 ^ 53,
      Has (l.beatAt t) (nearest ((t - l.passStart : ℕ) * r)) ∧
      Has (l.tempo.toBeats (Float.ofNat (t - l.passStart)))
        (nearest ((t - l.passStart : ℕ) * r)) := by
  obtain ⟨r, hr, hfactor⟩ := hfine.toBeats
  refine ⟨r, hr, fun t ht => ⟨?_, ?_⟩⟩
  · obtain ⟨d, hd, hbound, hbehind, hahead⟩ := has_elapsed ht hstart
    have hbeat := (hfactor hd hbound).larger has_zero
    unfold beatAt
    rw [hnone]
    rcases le_total l.passStart t with hle | hle
    · rw [hbehind hle] at hbeat
      rwa [max_eq_left (nearest_nonneg (by positivity))] at hbeat
    · have hneg : nearest (d * r) ≤ 0 := by
        rw [← nearest_zero]
        exact nearest_mono (mul_nonpos_of_nonpos_of_nonneg (hahead hle) hr)
      rw [max_eq_right hneg] at hbeat
      rwa [Nat.sub_eq_zero_of_le hle, Nat.cast_zero, zero_mul, nearest_zero]
  · refine hfactor (has_natCast (by omega)) ?_
    have hlt : ((t - l.passStart : ℕ) : ℚ) ≤ 2 ^ 53 := by exact_mod_cast (by omega)
    rw [Nat.abs_cast]
    exact hlt.trans (pow_le_pow_right₀ (by norm_num) (by norm_num))

/-- In a pass of known length it lies within the length. -/
theorem beatAt_mem (hfine : l.tempo.Fine) (hstart : l.passStart ≤ 2 ^ 200) (hb : l.beats = some b)
    (hq : Has b q) (hpos : 0 < q) (hnow : now < 2 ^ 53) :
    ∃ v, Has (l.beatAt now) v ∧ 0 ≤ v ∧ v ≤ q := by
  obtain ⟨r, -, hfactor⟩ := hfine.toBeats
  obtain ⟨d, hd, hbound, -⟩ := has_elapsed hnow hstart
  have hmem := (hfactor hd hbound).modulo_mem hq hpos.ne'
  rw [abs_of_pos hpos] at hmem
  unfold beatAt
  rwa [hb]

/-! ## The start of the pass -/

/-- Tempo, and tick at which the pass began. -/
def clock (l : Loop) : Tempo × ℕ := (l.tempo, l.passStart)

/-- The tempo stays, and the pass begins no later than it did or than now. -/
structure Steady (now : ℕ) (c k : Tempo × ℕ) : Prop where
  tempo : k.1 = c.1
  start : k.2 ≤ max c.2 now

theorem Steady.refl (now : ℕ) (c : Tempo × ℕ) : Steady now c c := ⟨rfl, le_max_left _ _⟩

theorem clock_arm (l : Loop) : l.arm.1.clock = l.clock := by
  unfold arm
  split
  · rfl
  · split <;> rfl

theorem clock_rearm (l : Loop) : l.rearm.1.clock = l.clock := clock_arm _

theorem clock_startPlaying (l : Loop) (m : Moment) :
    (l.startPlaying m).1.clock = (l.tempo, m.now) :=
  clock_rearm _

theorem steady_startPlaying (l : Loop) (m : Moment) :
    Steady m.now l.clock (l.startPlaying m).1.clock :=
  clock_startPlaying l m ▸ ⟨rfl, le_max_right _ _⟩

theorem steady_align (l : Loop) (now : ℕ) : Steady now l.clock (l.align now).clock := by
  unfold align
  split
  · exact .refl now _
  · next length _ =>
    simp only
    split
    · exact ⟨rfl, le_max_of_le_left (Nat.sub_le _ _)⟩
    · next hle =>
      have := Nat.div_mul_le_self (now - l.passStart) length
      refine ⟨rfl, le_max_of_le_right ?_⟩
      show l.passStart + (now - l.passStart) / length * length ≤ now
      omega

theorem steady_resync (l : Loop) (m : Moment) : Steady m.now l.clock (l.resync m).1.clock := by
  unfold resync
  rw [clock_rearm]
  exact steady_align l m.now

theorem steady_play (l : Loop) (loops : Float) (m : Moment) :
    Steady m.now l.clock (l.play loops m).1.clock := by
  unfold play
  split
  · exact .refl m.now _
  · next passes _ =>
    split
    · exact .refl m.now _
    · exact steady_startPlaying { l with passes } m

theorem clock_endLayer (l : Loop) (m : Moment) : (l.endLayer m).clock = l.clock := by
  unfold endLayer
  simp only
  split
  · split <;> rfl
  · rfl

theorem steady_stopRecording (l : Loop) (keep : Option ℕ) (m : Moment) :
    Steady m.now l.clock (l.stopRecording keep m).1.clock := by
  have hkept : ((l.endLayer m).keepLayers keep).clock = l.clock := clock_endLayer l m
  unfold stopRecording
  simp only
  split
  · rw [← hkept]
    unfold becomeEmpty
    simp only
    split <;> exact .refl m.now _
  · split
    · exact hkept ▸ steady_resync _ m
    · split
      · exact hkept ▸ steady_startPlaying { (l.endLayer m).keepLayers keep with passes := none } m
      · exact hkept ▸ .refl m.now _

theorem steady_startRecording (l : Loop) (m : Moment) :
    Steady m.now l.clock (l.startRecording m).1.clock := by
  unfold startRecording
  simp only
  split
  · exact .refl m.now _
  · split
    · exact .refl m.now _
    · split
      · exact steady_startPlaying l m
      · exact ⟨rfl, le_max_right _ _⟩

theorem steady_record (l : Loop) (value : Float) (m : Moment) :
    Steady m.now l.clock (l.record value m).1.clock := by
  unfold record
  split
  · exact steady_startRecording l m
  · split
    · exact steady_stopRecording l _ m
    · split
      · exact steady_stopRecording l _ m
      · exact .refl m.now _

/-- A new tempo moves the start so that the beat stays. -/
theorem clock_setTempo (l : Loop) (bpm : Float) (m : Moment) :
    (l.setTempo bpm m).1.tempo = l.tempo.setBpm bpm ∧
      (l.setTempo bpm m).1.passStart ≤ max l.passStart m.now := by
  unfold setTempo
  split
  · exact ⟨rfl, le_max_left _ _⟩
  · simp only
    obtain ⟨htempo, hstart⟩ := steady_resync { l.align m.now with
      tempo := l.tempo.setBpm bpm
      passStart := m.now - (l.tempo.setBpm bpm).roundTicks ((l.align m.now).beatAt m.now) } m
    exact ⟨htempo, hstart.trans (max_le ((Nat.sub_le _ _).trans (le_max_right _ _))
      (le_max_right _ _))⟩

theorem passTicks_lt {length : ℕ} (h : l.passTicks? = some length) : length < 2 ^ 64 := by
  obtain ⟨beats, -, hlength⟩ := Option.bind_eq_some_iff.mp h
  simp only at hlength
  split at hlength
  · cases hlength
    exact l.tempo.roundTicks_lt beats
  · cases hlength

/-- The next pass begins a length later. -/
theorem clock_wake (l : Loop) :
    l.wake.1.tempo = l.tempo ∧ l.wake.1.passStart ≤ l.passStart + 2 ^ 64 := by
  have hkept : ∀ k : Loop, k.clock = l.clock →
      k.tempo = l.tempo ∧ k.passStart ≤ l.passStart + 2 ^ 64 := by
    intro k hk
    exact ⟨congrArg Prod.fst hk, (congrArg Prod.snd hk).le.trans (Nat.le_add_right _ _)⟩
  unfold wake
  split
  · next length _ hlength =>
    have hlt := passTicks_lt hlength
    have hnext : ∀ k : Loop, k.clock = (l.tempo, l.passStart + length) →
        k.tempo = l.tempo ∧ k.passStart ≤ l.passStart + 2 ^ 64 := by
      intro k hk
      exact ⟨congrArg Prod.fst hk, (congrArg Prod.snd hk).le.trans (by simpa using hlt.le)⟩
    split
    · unfold turnOver
      split
      · exact hnext _ (clock_arm _)
      · split
        · exact hnext _ rfl
        · exact hnext _ (clock_arm _)
    · unfold playNext
      split
      · exact hkept _ (clock_arm _)
      · exact hkept _ (clock_arm _)
  · exact hkept l rfl

theorem clock_use (l : Loop) (m : Moment) (u : LoopUse) (hfine : l.tempo.Fine) :
    (l.use m u).tempo.Fine ∧ (l.use m u).passStart ≤ max l.passStart m.now + 2 ^ 64 := by
  have hsteady : ∀ k : Loop, Steady m.now l.clock k.clock →
      k.tempo.Fine ∧ k.passStart ≤ max l.passStart m.now + 2 ^ 64 := by
    intro k hk
    have htempo : k.tempo = l.tempo := hk.tempo
    exact ⟨htempo ▸ hfine, hk.start.trans (Nat.le_add_right _ _)⟩
  cases u with
  | stopRecording keep => exact hsteady _ (steady_stopRecording l keep m)
  | call c =>
    cases c with
    | play loops => exact hsteady _ (steady_play l loops m)
    | tempo bpm =>
      obtain ⟨htempo, hstart⟩ := clock_setTempo l bpm m
      exact ⟨htempo.symm ▸ hfine.setBpm bpm, hstart.trans (Nat.le_add_right _ _)⟩
    | record value => exact hsteady _ (steady_record l value m)
    | add e =>
      refine hsteady (l.add e m) ?_
      unfold add
      split <;> exact .refl m.now _
    | wake =>
      obtain ⟨htempo, hstart⟩ := clock_wake l
      exact ⟨htempo.symm ▸ hfine, hstart.trans (by gcongr; exact le_max_left _ _)⟩
    | _ => exact hsteady l (.refl m.now _)

end Loop

end MidiRig
