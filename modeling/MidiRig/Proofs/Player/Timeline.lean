import MidiRig.Proofs.Player.Pass

/-!
# Where a loop has its beats

Once the length of a loop is known, an event is recorded at its beat in the pass, which lies within
the length. In the first recording it is recorded at the beat since that began, and the length is
the beat at which the recording ends. One factor turns ticks into beats, and rounding keeps the
order, so these lie within the length too. What is recorded is thus in its place
(`Loop.timeline_merged`), as long as each recording is left to its end.
-/

namespace MidiRig

open Binary64

/-- All beats lie between zero and a length. -/
def Layer.Within (layer : Layer) (length : ℚ) : Prop :=
  ∀ x ∈ layer, ∃ v, Has x.1 v ∧ 0 ≤ v ∧ v ≤ length

/-- Lengths are positive, and the layers lie within the length if that is known. -/
structure Tape.Spanned (t : Tape) : Prop where
  fixed : ∀ b, t.fixedBeats = some b → ∃ q, Has b q ∧ 0 < q
  known : ∀ b, t.beats = some b → ∃ q, Has b q ∧ 0 < q ∧ Layer.Within t.layers.flatten q

namespace Loop

variable {l : Loop} {m : Moment} {u : LoopUse} {now uses : ℕ}

/-! ## What has been recorded -/

theorem mem_add {e : Event} {x : Float × Event} (hx : x ∈ (l.add e m).layers.flatten) :
    x ∈ l.layers.flatten ∨ x = (l.beatAt m.now, e) := by
  unfold add at hx
  split at hx
  · obtain ⟨layer, hlayer, hx⟩ := List.mem_flatten.mp hx
    obtain ⟨i, hi⟩ := List.mem_iff_getElem?.mp hlayer
    rw [List.getElem?_modify] at hi
    obtain ⟨old, hold, rfl⟩ := Option.map_eq_some_iff.mp hi
    have hmem : old ∈ l.layers := List.mem_of_getElem? hold
    split at hx
    · rcases List.mem_append.mp hx with hx | hx
      · exact .inl (List.mem_flatten.mpr ⟨old, hmem, hx⟩)
      · exact .inr (List.mem_singleton.mp hx)
    · exact .inl (List.mem_flatten.mpr ⟨old, hmem, hx⟩)
  · exact .inl hx

theorem beatAt_add (l : Loop) (e : Event) (m : Moment) : (l.add e m).beatAt = l.beatAt := by
  unfold add
  split <;> rfl

theorem recording_stopRecording (l : Loop) (keep : Option ℕ) (m : Moment) :
    (l.stopRecording keep m).1.recording = false := by
  have htape := congrArg Tape.recording (tape_stopRecording l keep m)
  refine htape.trans ?_
  split <;> exact recording_endLayer l m

theorem layers_stopRecording (l : Loop) (keep : Option ℕ) (m : Moment) :
    (l.stopRecording keep m).1.layers = ((l.endLayer m).keepLayers keep).layers := by
  have htape := congrArg Tape.layers (tape_stopRecording l keep m)
  refine htape.trans ?_
  split <;> rfl

/-- In a first recording each event has the beat of some tick so far. -/
def Stamped (l : Loop) (now : ℕ) : Prop :=
  l.recording = true → l.beats = none → ∀ x ∈ l.layers.flatten, ∃ t ≤ now, x.1 = l.beatAt t

theorem Stamped.mono {later : ℕ} (h : l.Stamped now) (hle : now ≤ later) : l.Stamped later := by
  intro hrecording hnone x hx
  obtain ⟨t, ht, hbeat⟩ := h hrecording hnone x hx
  exact ⟨t, ht.trans hle, hbeat⟩

/-- Whether a use leaves the tempo alone while a recording gives the length. -/
def KeepsTempo (l : Loop) : LoopUse → Prop
  | .call (.tempo _) => l.recording = true → l.beats ≠ none
  | _ => True

/-- A loop after a number of uses, of which the last was at some tick. -/
structure Sound (l : Loop) (now uses : ℕ) : Prop where
  kept : l.tape.Kept
  spanned : l.tape.Spanned
  tempo : l.tempo.Fine
  start : l.passStart ≤ 2 ^ 53 + uses * 2 ^ 64
  first : l.Stamped now

namespace Sound

variable (h : l.Sound now uses) (hnow : now ≤ m.now) (hclock : m.now < 2 ^ 53)
  (huses : uses ≤ 2 ^ 64)

include h huses in
theorem start_le : l.passStart ≤ 2 ^ 200 := by
  have := h.start
  omega

include h hnow hclock huses in
theorem spanned_endLayer : (l.endLayer m).tape.Spanned := by
  unfold endLayer
  simp only
  split
  · next hfirst =>
    obtain ⟨hrecording, hbeats⟩ := Bool.and_eq_true_iff.mp hfirst
    have hnone := Option.isNone_iff_eq_none.mp hbeats
    obtain ⟨r, hr, hbeat⟩ := has_beatAt_first h.tempo (h.start_le huses) hnone
    obtain ⟨-, helapsed⟩ := hbeat m.now hclock
    split
    · next hpassed =>
      refine ⟨h.spanned.fixed, fun b hb => ?_⟩
      cases hb
      refine ⟨_, helapsed, (has_zero.lt_iff helapsed).mp hpassed, fun x hx => ?_⟩
      obtain ⟨t, ht, hx⟩ := h.first hrecording hnone x hx
      obtain ⟨hstamp, -⟩ := hbeat t (by omega)
      refine ⟨_, hx.symm ▸ hstamp, nearest_nonneg (by positivity), nearest_mono ?_⟩
      gcongr
      omega
    · exact ⟨h.spanned.fixed, fun b hb => absurd (hnone.symm.trans hb) nofun⟩
  · exact ⟨h.spanned.fixed, h.spanned.known⟩

include h hnow hclock huses in
theorem spanned_stopRecording (keep : Option ℕ) : (l.stopRecording keep m).1.tape.Spanned := by
  obtain ⟨hfixed, hknown⟩ := h.spanned_endLayer hnow hclock huses
  rw [tape_stopRecording]
  split
  · next hempty =>
    refine ⟨hfixed, fun b hb => ?_⟩
    obtain ⟨q, hq, hpos⟩ := h.spanned.fixed b hb
    refine ⟨q, hq, hpos, fun x hx => ?_⟩
    rw [show Tape.layers _ = [] from hempty] at hx
    cases hx
  · refine ⟨hfixed, fun b hb => ?_⟩
    obtain ⟨q, hq, hpos, hwithin⟩ := hknown b hb
    refine ⟨q, hq, hpos, fun x hx => hwithin x ?_⟩
    obtain ⟨layer, hlayer, hx⟩ := List.mem_flatten.mp hx
    refine List.mem_flatten.mpr ⟨layer, ?_, hx⟩
    cases keep with
    | none => exact hlayer
    | some n => exact List.mem_of_mem_take hlayer

include h in
theorem spanned_startRecording : (l.startRecording m).1.tape.Spanned := by
  cases hrecording : l.recording with
  | true =>
    have hsame : l.startRecording m = (l, []) := if_pos hrecording
    exact hsame.symm ▸ h.spanned
  | false =>
    rw [tape_startRecording l m hrecording]
    refine ⟨h.spanned.fixed, fun b hb => ?_⟩
    obtain ⟨q, hq, hpos, hwithin⟩ := h.spanned.known b hb
    refine ⟨q, hq, hpos, fun x hx => hwithin x ?_⟩
    have hold : x ∈ l.layers.flatten := by simpa using hx
    exact hold

include h hclock huses in
theorem spanned_add (e : Event) : (l.add e m).tape.Spanned := by
  have hfixed : (l.add e m).fixedBeats = l.fixedBeats := by unfold add; split <;> rfl
  have hbeats : (l.add e m).beats = l.beats := by unfold add; split <;> rfl
  refine ⟨fun b hb => h.spanned.fixed b (hfixed.symm.trans hb), fun b hb => ?_⟩
  have hb : l.beats = some b := hbeats.symm.trans hb
  obtain ⟨q, hq, hpos, hwithin⟩ := h.spanned.known b hb
  refine ⟨q, hq, hpos, fun x hx => ?_⟩
  rcases mem_add hx with hx | rfl
  · exact hwithin x hx
  · exact beatAt_mem h.tempo (h.start_le huses) hb hq hpos hclock

include h hnow hclock huses in
theorem spanned_use (u : LoopUse) : (l.use m u).tape.Spanned := by
  cases u with
  | stopRecording keep => exact h.spanned_stopRecording hnow hclock huses keep
  | call c =>
    cases c with
    | play loops =>
      show (l.play loops m).1.tape.Spanned
      by_cases hcount : playCount? loops = none
      · rw [tape_play_stop hcount]
        exact ⟨h.spanned.fixed, h.spanned.known⟩
      · exact (tape_play hcount l m).symm ▸ h.spanned
    | tempo bpm => exact (tape_setTempo l bpm m).symm ▸ h.spanned
    | record value =>
      show (l.record value m).1.tape.Spanned
      unfold record
      split
      · exact h.spanned_startRecording
      · split
        · exact h.spanned_stopRecording hnow hclock huses none
        · split
          · exact h.spanned_stopRecording hnow hclock huses _
          · exact h.spanned
    | add e => exact h.spanned_add hclock huses e
    | dismiss => exact ⟨h.spanned.fixed, h.spanned.known⟩
    | wake => exact (tape_wake l).symm ▸ h.spanned
    | _ => exact h.spanned

include h hnow in
theorem stamped_startRecording : Stamped (l.startRecording m).1 m.now := by
  cases hrecording : l.recording with
  | true =>
    have hsame : l.startRecording m = (l, []) := if_pos hrecording
    rw [hsame]
    exact h.first.mono hnow
  | false =>
    -- a loop that has no length has no layers yet
    have htape := tape_startRecording l m hrecording
    intro _ hnone x hx
    have hbeats : l.beats = none := (congrArg Tape.beats htape).symm.trans hnone
    have hlayers : l.layers = [] := by
      by_contra hsome
      exact (h.kept.merged hrecording).2 hsome hbeats
    rw [show Loop.layers _ = l.layers ++ [[]] from congrArg Tape.layers htape, hlayers] at hx
    simp at hx

include h hnow in
theorem stamped_add (e : Event) : Stamped (l.add e m) m.now := by
  have hrecording : (l.add e m).recording = l.recording := by unfold add; split <;> rfl
  have hbeats : (l.add e m).beats = l.beats := by unfold add; split <;> rfl
  intro hon hnone x hx
  rw [beatAt_add]
  rcases mem_add hx with hx | rfl
  · exact h.first.mono hnow (hrecording.symm.trans hon) (hbeats.symm.trans hnone) x hx
  · exact ⟨m.now, le_rfl, rfl⟩

include h hnow in
theorem stamped_use (hu : l.KeepsTempo u) : Stamped (l.use m u) m.now := by
  have hstopped : ∀ k : Loop, k.recording = false → Stamped k m.now := fun k hk hon =>
    absurd (hk.symm.trans hon) nofun
  cases u with
  | stopRecording keep => exact hstopped _ (recording_stopRecording l keep m)
  | call c =>
    cases c with
    | play loops =>
      show Stamped (l.play loops m).1 m.now
      by_cases hcount : playCount? loops = none
      · exact hstopped _ (congrArg Tape.recording (tape_play_stop hcount l m))
      · intro hrecording hnone
        have hbeats : l.beats = none :=
          (congrArg Tape.beats (tape_play hcount l m)).symm.trans hnone
        have hsame : l.play loops m = (l, []) := by
          unfold play
          cases hplay : playCount? loops with
          | none => exact absurd hplay hcount
          | some passes => exact if_pos (Option.isNone_iff_eq_none.mpr hbeats)
        rw [hsame] at hrecording hnone ⊢
        exact h.first.mono hnow hrecording hnone
    | tempo bpm =>
      intro hrecording hnone
      have htape := tape_setTempo l bpm m
      exact absurd ((congrArg Tape.beats htape).symm.trans hnone)
        (hu ((congrArg Tape.recording htape).symm.trans hrecording))
    | record value =>
      show Stamped (l.record value m).1 m.now
      unfold record
      split
      · exact h.stamped_startRecording hnow
      · split
        · exact hstopped _ (recording_stopRecording l _ m)
        · split
          · exact hstopped _ (recording_stopRecording l _ m)
          · exact h.first.mono hnow
    | add e => exact h.stamped_add hnow e
    | dismiss => exact hstopped _ rfl
    | wake =>
      intro hrecording hnone
      have hbeats : l.beats = none := (congrArg Tape.beats (tape_wake l)).symm.trans hnone
      have hsame : l.wake = (l, []) := by
        have hticks : l.passTicks? = none := by
          unfold passTicks?
          rw [hbeats]
          rfl
        unfold wake
        rw [hticks]
        cases l.playing <;> rfl
      have huse : l.use m (.call .wake) = l := congrArg Prod.fst hsame
      rw [huse] at hrecording hnone ⊢
      exact h.first.mono hnow hrecording hnone
    | _ => exact h.first.mono hnow

include h hnow hclock huses in
theorem use (hends : l.Ends u) (hu : l.KeepsTempo u) :
    (l.use m u).Sound m.now (uses + 1) := by
  obtain ⟨htempo, hstart⟩ := clock_use l m u h.tempo
  have hbefore := h.start
  exact
    { kept := kept_use h.kept hends
      spanned := h.spanned_use hnow hclock huses u
      tempo := htempo
      start := hstart.trans (by omega)
      first := h.stamped_use hnow hu }

end Sound

theorem sound_make {d : LoopDef} (hd : d.problem? = none) (config : SequencerConfig) {rate : Float}
    (hrate : 1.0e-200 ≤ rate) : (make d config rate).Sound 0 0 :=
  { kept := kept_make d config rate
    spanned := ⟨fun b hb => LoopDef.length_pos hd hb, fun b hb => by
      obtain ⟨q, hq, hpos⟩ := LoopDef.length_pos hd hb
      exact ⟨q, hq, hpos, nofun⟩⟩
    tempo := Tempo.fine_of hrate _
    start := Nat.zero_le _
    first := nofun }

/-! ## Runs -/

/-- Uses at ticks that do not go back and that doubles can count, none of which changes the tempo
while a recording gives the length. -/
def Measured (now : ℕ) (l : Loop) : List (Moment × LoopUse) → Prop
  | [] => True
  | (m, u) :: rest =>
    now ≤ m.now ∧ m.now < 2 ^ 53 ∧ l.KeepsTempo u ∧ Measured m.now (l.use m u) rest

theorem Sound.run {steps : List (Moment × LoopUse)} (h : l.Sound now uses) (hends : l.Ended steps)
    (hmeasured : Measured now l steps) (huses : uses + steps.length ≤ 2 ^ 64) :
    ∃ now' uses', (l.run steps).Sound now' uses' := by
  induction steps generalizing l now uses with
  | nil => exact ⟨now, uses, h⟩
  | cons x rest ih =>
    obtain ⟨hnow, hclock, hu, hrest⟩ := hmeasured
    rw [List.length_cons] at huses
    exact ih (h.use hnow hclock (by omega) hends.1 hu) hends.2 hrest (by omega)

/-- While a loop is not recording, its timeline is all layers in the order of their beats, its
length is known if it has a layer, and the beats lie within it. For the last the ticks have to be
such as doubles can count, and a beat not next to nothing. -/
theorem timeline_merged {d : LoopDef} (hd : d.problem? = none) (config : SequencerConfig)
    (rate : Float) {steps : List (Moment × LoopUse)} (hends : (make d config rate).Ended steps)
    (hoff : ((make d config rate).run steps).recording = false) :
    ((make d config rate).run steps).timeline =
        Layer.merge ((make d config rate).run steps).layers ∧
      (((make d config rate).run steps).layers ≠ [] →
        ∃ b, ((make d config rate).run steps).beats = some b ∧
          (1.0e-200 ≤ rate → steps.length ≤ 2 ^ 64 → Measured 0 (make d config rate) steps →
            ∀ x ∈ ((make d config rate).run steps).timeline, 0.0 ≤ x.1 ∧ x.1 ≤ b)) := by
  obtain ⟨hmerged, hknown⟩ := (kept_run (kept_make d config rate) hends).merged hoff
  refine ⟨hmerged, fun hlayers => ?_⟩
  obtain ⟨b, hb⟩ := Option.ne_none_iff_exists'.mp (hknown hlayers)
  refine ⟨b, hb, fun hrate hlength hmeasured x hx => ?_⟩
  obtain ⟨_, _, h⟩ := (sound_make hd config hrate).run hends hmeasured (by omega)
  obtain ⟨q, hq, -, hwithin⟩ := h.spanned.known b hb
  have hmem : x ∈ ((make d config rate).run steps).layers.flatten := by
    rw [show ((make d config rate).run steps).timeline = Layer.merge _ from hmerged] at hx
    exact List.mem_mergeSort.mp hx
  obtain ⟨v, hv, hnonneg, hle⟩ := hwithin x hmem
  exact ⟨(has_zero.le_iff hv).mpr hnonneg, (hv.le_iff hq).mpr hle⟩

/-- A first recording: a key after 400 ticks, and the end after 1000. -/
def firstTake : List (Moment × LoopUse) :=
  [(⟨0, 480⟩, .call (.record 1.0)), (⟨400, 480⟩, .call (.add (.note 1 60 100.0))),
    (⟨1000, 480⟩, .stopRecording none)]

theorem timeline_merged_firstTake :
    let l := (make ⟨none, none⟩ .default 1000.0).run firstTake
    l.recording = false ∧ l.layers.length = 1 ∧ l.timeline = Layer.merge l.layers ∧
      ∃ b, l.beats = some b ∧ ∀ x ∈ l.timeline, 0.0 ≤ x.1 ∧ x.1 ≤ b := by
  have hoff : ((make ⟨none, none⟩ .default 1000.0).run firstTake).recording = false :=
    recording_stopRecording _ none _
  have hlayers : ((make ⟨none, none⟩ .default 1000.0).run firstTake).layers.length = 1 := by
    refine (congrArg List.length (layers_stopRecording _ none _)).trans ?_
    decide +kernel
  have hends : (make ⟨none, none⟩ .default 1000.0).Ended firstTake :=
    ⟨trivial, trivial, trivial, trivial⟩
  have hmeasured : Measured 0 (make ⟨none, none⟩ .default 1000.0) firstTake :=
    ⟨by decide, by decide, trivial, by decide, by decide, trivial, by decide, by decide, trivial,
      trivial⟩
  obtain ⟨hmerged, hknown⟩ := timeline_merged (d := ⟨none, none⟩) rfl .default 1000.0 hends hoff
  obtain ⟨b, hb, hrange⟩ := hknown fun hnone => by
    rw [hnone] at hlayers
    cases hlayers
  exact ⟨hoff, hlayers, hmerged, b, hb, hrange (by decide +kernel) (by decide) hmeasured⟩

end Loop

end MidiRig
