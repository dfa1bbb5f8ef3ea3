import MidiRig.Proofs.Clock.Tempo
import MidiRig.Proofs.Number.Equal
import MidiRig.Proofs.Player.Callbacks
import MidiRig.Proofs.Player.Edits
import MidiRig.Proofs.Player.Recording

/-!
# Undoing all that has been recorded

A loop that loses its last layer stops and has the length again that it was made with
(`Loop.emptied_stopRecording`). What else is left of its past is nothing that is read before it is
set anew, but for the count of passes of the last time that it was played: a recording that starts
a loop of fixed length starts it with that count. `Loop.Like` says that two loops differ at most in
what is not read any more, and is kept by whatever is done to both (`Loop.Like.respond`).
-/

namespace MidiRig

open Binary64

/-- A number below zero is neither above zero nor equal to it. -/
theorem Binary64.not_pos_of_neg {x : Float} (h : x < 0.0) : ¬ x > 0.0 ∧ ¬ (x == 0.0) = true := by
  rcases has_or x with ⟨p, hx⟩ | ⟨s, hx⟩ | hx
  · have hneg := (hx.lt_iff has_zero).mp h
    exact ⟨fun hpos => hneg.not_gt ((has_zero.lt_iff hx).mp hpos),
      fun hzero => hneg.ne ((hx.beq_iff has_zero).mp hzero)⟩
  · have hcompare : (x.toModel.unpack.compare (0.0 : Float).toModel.unpack == some .lt) = true :=
      of_decide_eq_true h
    rw [hx] at hcompare
    cases s with
    | positive => exact absurd hcompare (by decide)
    | negative =>
      refine ⟨fun hpos => ?_, fun hzero => ?_⟩
      · have hcompare' : ((0.0 : Float).toModel.unpack.compare x.toModel.unpack == some .lt) = true :=
          of_decide_eq_true hpos
        rw [hx] at hcompare'
        exact absurd hcompare' (by decide)
      · have hcompare' : (x.toModel.unpack.compare (0.0 : Float).toModel.unpack == some .eq) = true :=
          hzero
        rw [hx] at hcompare'
        exact absurd hcompare' (by decide)
  · have hcompare : (x.toModel.unpack.compare (0.0 : Float).toModel.unpack == some .lt) = true :=
      of_decide_eq_true h
    rw [hx] at hcompare
    exact absurd hcompare (by decide)

namespace Tempo

/-- A tempo in its bounds stays as it is when it is set again. -/
theorem setBpm_clamp {t : Tempo} {x : Float} (hx : isRate x = true) :
    t.setBpm (clamp 1.0 999.0 x) = { t with bpm := clamp 1.0 999.0 x } := by
  obtain ⟨p, hp, -⟩ := isRate_iff.mp hx
  have hone : Has 1.0 1 := mod_cast has_literal 1 (by norm_num)
  have hmost : Has 999.0 999 := mod_cast has_literal 999 (by norm_num)
  obtain ⟨v, hv, hlo, hhi⟩ := clamp_mem hone hmost (by norm_num) hp
  have hrate : isRate (clamp 1.0 999.0 x) = true := isRate_iff.mpr ⟨v, hv, by linarith⟩
  have hagain : clamp 1.0 999.0 (clamp 1.0 999.0 x) = clamp 1.0 999.0 x := by
    rw [clamp, if_neg (fun h => not_lt.mpr hlo ((hv.lt_iff hone).mp h)),
      if_neg (fun h => not_lt.mpr hhi ((hmost.lt_iff hv).mp h))]
  rw [setBpm, if_pos hrate, hagain]

/-- The tempo that a player would be made with for its beats a minute. -/
def Set (rate : Float) (t : Tempo) : Prop := t = of rate t.bpm

theorem set_of (rate bpm : Float) : (of rate bpm).Set rate := by
  unfold Set of
  by_cases hbpm : isRate bpm = true
  · rw [setBpm, if_pos hbpm, setBpm_clamp hbpm]
  · have hdefault : clamp 1.0 999.0 defaultBpm = defaultBpm := by decide +kernel
    have hsame := setBpm_clamp (t := ⟨if rate > 0.0 then rate else defaultTickRate, defaultBpm⟩)
      (x := defaultBpm) (by decide +kernel)
    rw [hdefault] at hsame
    rw [setBpm, if_neg hbpm]
    exact hsame.symm

theorem Set.setBpm {rate : Float} {t : Tempo} (h : t.Set rate) (bpm : Float) :
    (t.setBpm bpm).Set rate := by
  by_cases hbpm : isRate bpm = true
  · have hrate : t.ticksPerSecond = (of rate bpm).ticksPerSecond := by
      rw [show t = of rate t.bpm from h, of, of, Tempo.setBpm, Tempo.setBpm]
      split <;> split <;> rfl
    have hsame : t.setBpm bpm = of rate bpm := by
      rw [of, Tempo.setBpm, Tempo.setBpm, if_pos hbpm, if_pos hbpm, hrate, of, Tempo.setBpm,
        if_pos hbpm]
    rw [hsame]
    exact set_of rate bpm
  · rwa [Tempo.setBpm, if_neg hbpm]

end Tempo

/-- Whether a call begins a recording. -/
def Call.Records : Call → Prop
  | .record value => value > 0.0
  | _ => False

/-- Whether a call plays a number of passes, or for ever. -/
def Call.Counts : Call → Prop
  | .play loops => playCount? loops ≠ none
  | _ => False

namespace Loop

variable {l k : Loop} {m : Moment} {counted : Prop}

/-! ## What a loop keeps of its making -/

/-- A loop of fixed length has a length. -/
def Known (l : Loop) : Prop := l.fixedBeats ≠ none → l.beats ≠ none

theorem Edits.known (h : Edits m l k) (hl : l.Known) : k.Known := by
  refine h.keep (fun l k hedit hl => ?_) hl
  cases hedit with
  | measures => exact fun _ => nofun
  | forgets => exact id
  | _ => exact hl

/-- Length, lag and tempo are those of a definition, a configuration and a tick rate, but for a new
tempo. -/
structure Made (d : LoopDef) (config : SequencerConfig) (rate : Float) (l : Loop) : Prop where
  fixedBeats : l.fixedBeats = d.beats
  lag : l.lag = config.lag
  tempo : l.tempo.Set rate

section Made

variable {d : LoopDef} {config : SequencerConfig} {rate : Float}

theorem made_make (d : LoopDef) (config : SequencerConfig) (rate : Float) :
    (make d config rate).Made d config rate :=
  ⟨rfl, rfl, Tempo.set_of rate _⟩

theorem Edits.made (h : Edits m l k) (hl : l.Made d config rate) : k.Made d config rate := by
  refine h.keep (fun l k hedit hl => ?_) hl
  cases hedit with
  | tempo bpm => exact ⟨hl.fixedBeats, hl.lag, hl.tempo.setBpm bpm⟩
  | _ => exact ⟨hl.fixedBeats, hl.lag, hl.tempo⟩

end Made

/-! ## What is read -/

/-- What is left of the last time that a loop has played. -/
structure Past where
  passes : Option Nat
  passStart : Nat
  next : Nat
  atEnd : Bool

/-- A loop with another past. -/
def after (l : Loop) (p : Past) : Loop :=
  { l with passes := p.passes, passStart := p.passStart, next := p.next, atEnd := p.atEnd }

/-- With that past a loop differs at most in what is not read any more. While it plays there is
nothing else. `counted` tells that the count of passes is the same where a length is known. -/
structure Like (counted : Prop) (l : Loop) (p : Past) : Prop where
  passes : l.playing = true ∨ counted ∧ l.beats ≠ none → p.passes = l.passes
  passStart : l.playing = true ∨ l.recording = true → p.passStart = l.passStart
  place : l.playing = true → p.next = l.next ∧ p.atEnd = l.atEnd

/-- The same actions, and loops that differ at most in what is not read any more. -/
def Agree (counted : Prop) (x y : Response Loop) : Prop :=
  y.2 = x.2 ∧ ∃ p, y.1 = x.1.after p ∧ x.1.Like counted p

theorem Agree.refl (counted : Prop) (x : Response Loop) : Agree counted x x :=
  ⟨rfl, ⟨x.1.passes, x.1.passStart, x.1.next, x.1.atEnd⟩, rfl, fun _ => rfl, fun _ => rfl,
    fun _ => ⟨rfl, rfl⟩⟩

/-- A loop that does not play, and that has been left as it was but for its past. -/
theorem agree_of_silent {x : Loop} {xs : List Action} {p : Past} (hsilent : x.playing = false)
    (hpasses : counted ∧ x.beats ≠ none → p.passes = x.passes)
    (hstart : x.recording = true → p.passStart = x.passStart) :
    Agree counted (x, xs) (x.after p, xs) := by
  have hnot : ¬ x.playing = true := Bool.eq_false_iff.mp hsilent
  exact ⟨rfl, p, rfl, fun h => hpasses (h.resolve_left hnot), fun h => hstart (h.resolve_left hnot),
    fun h => absurd h hnot⟩

theorem startPlaying_after {p : Past} (h : p.passes = l.passes) (m : Moment) :
    (l.after p).startPlaying m = l.startPlaying m := by
  unfold startPlaying rearm after
  rw [h]

namespace Like

variable {p : Past}

theorem mono {counted' : Prop} (h : l.Like counted p) (himp : counted' → counted) :
    l.Like counted' p :=
  ⟨fun hread => h.passes (hread.imp_right fun hc => ⟨himp hc.1, hc.2⟩), h.passStart, h.place⟩

theorem endLayer_of_not_recording (hrecording : ¬ l.recording = true) (m : Moment) :
    l.endLayer m = { l with recording := false } := by
  unfold endLayer
  simp only [hrecording, Bool.false_and, Bool.false_eq_true, if_false]

theorem passes_endLayer (l : Loop) (m : Moment) : (l.endLayer m).passes = l.passes := by
  unfold endLayer
  simp only
  split
  · split <;> rfl
  · rfl

variable (h : l.Like counted p)

include h

theorem after_eq (hplaying : l.playing = true) : l.after p = l := by
  unfold after
  rw [h.passes (.inl hplaying), h.passStart (.inl hplaying), (h.place hplaying).1,
    (h.place hplaying).2]

/-- What plays is the same, and does the same. -/
theorem agree_of_playing (f : Loop → Response Loop) (hplaying : l.playing = true) :
    Agree counted (f l) (f (l.after p)) := by
  rw [h.after_eq hplaying]
  exact .refl counted _

theorem agree_stop : Agree counted ({ l with recording := false }.stop)
    ({ l.after p with recording := false }.stop) := by
  by_cases hplaying : l.playing = true
  · exact h.agree_of_playing (fun l => { l with recording := false }.stop) hplaying
  · exact agree_of_silent (p := { p with atEnd := false }) rfl (fun hc => h.passes (.inr hc)) nofun

theorem agree_play (loops : Float) (m : Moment) :
    Agree counted (l.play loops m) ((l.after p).play loops m) := by
  unfold play
  split
  · exact h.agree_stop
  · next passes _ =>
    have hsame : ({ l.after p with passes }).startPlaying m = { l with passes }.startPlaying m :=
      startPlaying_after (l := { l with passes }) (p := { p with passes }) rfl m
    rw [hsame]
    show Agree counted (if l.beats.isNone then _ else _) (if l.beats.isNone then _ else _)
    split
    · exact ⟨rfl, p, rfl, h⟩
    · exact .refl counted _

/-- A loop that is played with a count has the same count from then on. -/
theorem counts_play {loops : Float} (hcount : playCount? loops ≠ none) (m : Moment) :
    Agree True (l.play loops m) ((l.after p).play loops m) := by
  unfold play
  split
  · next hnone => exact absurd hnone hcount
  · next passes _ =>
    have hsame : ({ l.after p with passes }).startPlaying m = { l with passes }.startPlaying m :=
      startPlaying_after (l := { l with passes }) (p := { p with passes }) rfl m
    rw [hsame]
    show Agree True (if l.beats.isNone then _ else _) (if l.beats.isNone then _ else _)
    split
    · next hnone =>
      refine ⟨rfl, p, rfl, ⟨fun hread => h.passes (hread.imp_right fun hc => ?_), h.passStart,
        h.place⟩⟩
      exact absurd (Option.isNone_iff_eq_none.mp hnone) hc.2
    · exact .refl True _

theorem agree_setTempo (bpm : Float) (m : Moment) :
    Agree counted (l.setTempo bpm m) ((l.after p).setTempo bpm m) := by
  by_cases hplaying : l.playing = true
  · exact h.agree_of_playing (fun l => l.setTempo bpm m) hplaying
  · have hsilent : ∀ k : Loop, k.playing = l.playing →
        k.setTempo bpm m = ({ k with tempo := k.tempo.setBpm bpm }, []) :=
      fun k hk => if_pos (by simp [hk, hplaying])
    rw [hsilent l rfl, hsilent (l.after p) rfl]
    exact agree_of_silent (Bool.eq_false_iff.mpr hplaying) (fun hc => h.passes (.inr hc))
      fun hon => h.passStart (.inr hon)

theorem agree_add (e : Event) (m : Moment) :
    Agree counted (l.add e m, []) ((l.after p).add e m, []) := by
  by_cases hplaying : l.playing = true
  · exact h.agree_of_playing (fun l => (l.add e m, [])) hplaying
  · by_cases hrecording : l.recording = true
    · -- the beat of the event is counted from the start, which is read here
      have hbeat : (l.after p).beatAt m.now = l.beatAt m.now := by
        unfold beatAt after
        rw [h.passStart (.inr hrecording)]
      have hsame : (l.after p).add e m = (l.add e m).after p := by
        unfold add
        rw [if_pos hrecording, if_pos (by exact hrecording), hbeat]
        rfl
      have hadd : l.add e m = { l with layers := (l.add e m).layers } := by
        unfold add
        rw [if_pos hrecording]
      rw [hsame, hadd]
      exact agree_of_silent (Bool.eq_false_iff.mpr hplaying) (fun hc => h.passes (.inr hc))
        fun hon => h.passStart (.inr hon)
    · have hsame : ∀ k : Loop, k.recording = l.recording → k.add e m = k :=
        fun k hk => if_neg (by simp [hk, hrecording])
      rw [hsame l rfl, hsame (l.after p) rfl]
      exact ⟨rfl, p, rfl, h⟩

/-- To begin a recording reads the count of passes. -/
theorem agree_startRecording (hcounted : counted) (m : Moment) :
    Agree counted (l.startRecording m) ((l.after p).startRecording m) := by
  by_cases hplaying : l.playing = true
  · exact h.agree_of_playing (fun l => l.startRecording m) hplaying
  · by_cases hrecording : l.recording = true
    · have hsame : ∀ k : Loop, k.recording = l.recording → k.startRecording m = (k, []) :=
        fun k hk => if_pos (hk.trans hrecording)
      rw [hsame l rfl, hsame (l.after p) rfl]
      exact ⟨rfl, p, rfl, h⟩
    · by_cases hbeats : l.beats = none
      · have hready : ∀ k : Loop, k.recording = l.recording → k.playing = l.playing →
            k.beats = l.beats → k.startRecording m =
              ({ k with passStart := m.now, recording := true, layers := k.layers ++ [[]] }, []) := by
          intro k hk hkplaying hkbeats
          unfold startRecording
          rw [if_neg (by simp [hk, hrecording]), if_neg (by simp [hkplaying, hplaying]),
            if_neg (by simp [hkbeats, hbeats])]
        rw [hready l rfl rfl rfl, hready (l.after p) rfl rfl rfl]
        exact agree_of_silent (p := { p with passStart := m.now }) (Bool.eq_false_iff.mpr hplaying)
          (fun hc => absurd hbeats hc.2) fun _ => rfl
      · have hstarts := startPlaying_after (h.passes (.inr ⟨hcounted, hbeats⟩)) m
        have hsame : (l.after p).startRecording m = l.startRecording m := by
          unfold startRecording
          rw [hstarts]
          show (if l.recording then _ else _) = _
          rw [if_neg hrecording, if_neg hrecording]
          simp only [after, hplaying, Option.isSome_iff_ne_none.mpr hbeats, if_true]
          rfl
        rw [hsame]
        exact .refl counted _

theorem endLayer_after (m : Moment) : (l.after p).endLayer m = (l.endLayer m).after p := by
  obtain ⟨passes, passStart, next, atEnd⟩ := p
  unfold endLayer
  by_cases hrecording : l.recording = true
  · obtain rfl : passStart = l.passStart := h.passStart (.inr hrecording)
    simp only [apply_ite (fun k : Loop => k.after ⟨passes, l.passStart, next, atEnd⟩)]
    rfl
  · simp only [after, hrecording, Bool.false_and, Bool.false_eq_true, if_false]

theorem agree_stopRecording (hknown : l.Known) (keep : Option Nat) (m : Moment) :
    Agree counted (l.stopRecording keep m) ((l.after p).stopRecording keep m) := by
  by_cases hplaying : l.playing = true
  · exact h.agree_of_playing (fun l => l.stopRecording keep m) hplaying
  · let kept := (l.endLayer m).keepLayers keep
    have hended : ((l.after p).endLayer m).keepLayers keep = kept.after p := by
      rw [h.endLayer_after m]
      rfl
    have hsilent : kept.playing = false :=
      (playing_endLayer l m).trans (Bool.eq_false_iff.mpr hplaying)
    have hoff : kept.recording = false := recording_endLayer l m
    have hempty : kept.becomeEmpty = ({ kept with beats := kept.fixedBeats }, []) := by
      unfold becomeEmpty
      rw [if_neg (by simp [hsilent])]
    have hempty' : (kept.after p).becomeEmpty =
        ({ kept with beats := kept.fixedBeats }.after p, []) := by
      unfold becomeEmpty
      rw [if_neg (by simp [after, hsilent])]
      rfl
    unfold stopRecording
    simp only [hended]
    show Agree counted
      (if kept.layers.isEmpty then kept.becomeEmpty else if kept.playing then kept.resync m
        else if l.recording then { kept with passes := none }.startPlaying m else (kept, []))
      (if kept.layers.isEmpty then (kept.after p).becomeEmpty
        else if kept.playing then (kept.after p).resync m
        else if l.recording then { kept.after p with passes := none }.startPlaying m
        else (kept.after p, []))
    rw [hempty, hempty', if_neg (c := kept.playing = true) (by simp [hsilent]),
      if_neg (c := kept.playing = true) (by simp [hsilent])]
    have hpasses : kept.passes = l.passes := passes_endLayer l m
    split
    · -- a loop of fixed length had that length before
      refine agree_of_silent (x := { kept with beats := kept.fixedBeats }) hsilent (fun hc => ?_)
        fun hon => absurd (hoff.symm.trans hon) nofun
      have hfixed : l.fixedBeats ≠ none := by
        rw [← fixedBeats_endLayer l m]
        exact hc.2
      exact (h.passes (.inr ⟨hc.1, hknown hfixed⟩)).trans hpasses.symm
    · split
      · have hstarts : ({ kept.after p with passes := none }).startPlaying m =
            { kept with passes := none }.startPlaying m :=
          startPlaying_after (l := { kept with passes := none }) (p := { p with passes := none })
            rfl m
        rw [hstarts]
        exact .refl counted _
      · next hrecording =>
        have hbeats : kept.beats = l.beats := by
          show (l.endLayer m).beats = l.beats
          rw [endLayer_of_not_recording hrecording]
        refine agree_of_silent hsilent (fun hc => ?_) fun hon => absurd (hoff.symm.trans hon) nofun
        exact (h.passes (.inr ⟨hc.1, hbeats ▸ hc.2⟩)).trans hpasses.symm

theorem agree_record (hknown : l.Known) {value : Float} (hvalue : counted ∨ ¬ value > 0.0)
    (m : Moment) : Agree counted (l.record value m) ((l.after p).record value m) := by
  unfold record
  split
  · next hpos => exact h.agree_startRecording (hvalue.resolve_right (not_not.mpr hpos)) m
  · split
    · exact h.agree_stopRecording hknown none m
    · split
      · exact h.agree_stopRecording hknown _ m
      · exact ⟨rfl, p, rfl, h⟩

theorem agree_wake : Agree counted l.wake (l.after p).wake := by
  by_cases hplaying : l.playing = true
  · exact h.agree_of_playing wake hplaying
  · have hsame : ∀ k : Loop, k.playing = l.playing → k.wake = (k, []) := by
      intro k hk
      unfold wake
      rw [hk, Bool.eq_false_iff.mpr hplaying]
    rw [hsame l rfl, hsame (l.after p) rfl]
    exact ⟨rfl, p, rfl, h⟩

/-- Two loops of which one differs from the other at most in what is not read any more do the same,
and stay like each other. Only a recording that begins reads a count that has been left over. -/
theorem respond (hknown : l.Known) {c : Call} (hc : counted ∨ ¬ c.Records) (m : Moment) :
    Agree counted (l.respond m c) ((l.after p).respond m c) := by
  cases c with
  | play loops => exact h.agree_play loops m
  | tempo bpm => exact h.agree_setTempo bpm m
  | record value => exact h.agree_record hknown hc m
  | add e => exact h.agree_add e m
  | dismiss => exact h.agree_stop
  | wake => exact h.agree_wake
  | _ => exact ⟨rfl, p, rfl, h⟩

/-- After a count has been given nothing is left of the one before. -/
theorem respond_of_counts {c : Call} (hc : c.Counts) (m : Moment) :
    Agree True (l.respond m c) ((l.after p).respond m c) := by
  cases c with
  | play loops => exact h.counts_play hc m
  | _ => exact hc.elim

end Like

/-! ## Undoing everything -/

/-- What a loop is when its last layer has gone. -/
theorem emptied_stopRecording (l : Loop) (m : Moment) :
    (l.stopRecording (some 0) m).1.tape = ⟨l.fixedBeats, l.fixedBeats, [], [], false⟩ ∧
      (l.stopRecording (some 0) m).1.playing = false := by
  have hlayers : (l.endLayer m).layers.take 0 = [] := List.take_zero
  constructor
  · rw [tape_stopRecording, if_pos (by exact hlayers)]
    show Tape.mk (l.endLayer m).fixedBeats l.fixedBeats ((l.endLayer m).layers.take 0)
      (Layer.merge ((l.endLayer m).layers.take 0)) (l.endLayer m).recording = _
    rw [fixedBeats_endLayer, recording_endLayer, List.take_zero, Layer.merge_nil]
  · unfold stopRecording
    simp only
    rw [if_pos (by exact List.isEmpty_iff.mpr hlayers)]
    unfold becomeEmpty
    by_cases hplaying : ((l.endLayer m).keepLayers (some 0)).playing = true
    · rw [if_pos hplaying]
      rfl
    · rw [if_neg hplaying]
      exact Bool.eq_false_iff.mpr hplaying

/-- To undo at least as many layers as there are keeps none. -/
theorem record_of_undone {value : Float} (hvalue : value < 0.0)
    (hall : l.layers.length ≤ toWord64 (Binary64.round value.abs)) (m : Moment) :
    l.record value m = l.stopRecording (some 0) m := by
  obtain ⟨hpos, hzero⟩ := not_pos_of_neg hvalue
  unfold record
  rw [if_neg hpos, if_neg hzero, if_pos hvalue]
  simp only [Nat.sub_eq_zero_of_le hall]

/-- A loop that has no layer is like a new one, but for the count of passes that is left over. -/
theorem like_make {d : LoopDef} {config : SequencerConfig} {rate : Float}
    (hmade : l.Made d config rate) (htape : l.tape = ⟨d.beats, d.beats, [], [], false⟩)
    (hsilent : l.playing = false) :
    ∃ p, make { d with tempo := some l.tempo.bpm } config rate = l.after p ∧
      l.Like (d.beats = none ∨ l.passes = none) p := by
  obtain ⟨tempo, lag, fixedBeats, beats, layers, timeline, recording, playing, passes, passStart,
    next, atEnd⟩ := l
  obtain ⟨rfl, rfl, rfl, rfl, rfl⟩ := Tape.mk.injEq .. ▸ htape
  obtain rfl : playing = false := hsilent
  obtain rfl : lag = config.lag := hmade.lag
  refine ⟨⟨none, 0, 0, false⟩, ?_, fun hread => ?_, fun hread => ?_, nofun⟩
  · have htempo : tempo = Tempo.of rate tempo.bpm := hmade.tempo
    show Loop.mk (Tempo.of rate tempo.bpm) _ _ _ _ _ _ _ _ _ _ _ = _
    rw [← htempo]
    rfl
  · obtain ⟨hc, hbeats⟩ := hread.resolve_left nofun
    exact (hc.resolve_left hbeats).symm
  · exact hread.elim nofun nofun

end Loop

end MidiRig
