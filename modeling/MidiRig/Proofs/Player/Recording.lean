import Mathlib.Tactic.ByContra
import MidiRig.Config
import MidiRig.Player.Loop

/-!
# What a loop has recorded

Playing and recording share a loop but hardly touch each other: `Loop.tape` is what recordings are
kept in, and nothing that plays changes it. While a layer is recorded the timeline holds the layers
before it, and ending the recording merges all of them (`Tape.Kept`).

To stop a loop in the middle of a recording ends the recording as well, but merges nothing
(`Loop.stop_leaves_layer_out`). So what is said of whole runs is said of those that end a recording
before they stop (`Loop.Ends`).
-/

namespace MidiRig

/-- The recorded part of a loop. -/
structure Tape where
  fixedBeats : Option Float
  beats : Option Float
  layers : List Layer
  timeline : Layer
  recording : Bool

theorem Layer.merge_nil : Layer.merge [] = [] := by simp [Layer.merge]

/-- The timeline has all layers, but for one that is being recorded. -/
structure Tape.Kept (t : Tape) : Prop where
  taken : t.recording = true → ∃ layers last, t.layers = layers ++ [last] ∧
    t.timeline = Layer.merge layers ∧ (t.beats = none → layers = [])
  merged : t.recording = false →
    t.timeline = Layer.merge t.layers ∧ (t.layers ≠ [] → t.beats ≠ none)

namespace Loop

variable {l : Loop}

def tape (l : Loop) : Tape := ⟨l.fixedBeats, l.beats, l.layers, l.timeline, l.recording⟩

/-! ## Playing leaves the tape -/

theorem tape_arm (l : Loop) : l.arm.1.tape = l.tape := by
  unfold arm
  split
  · rfl
  · split <;> rfl

theorem tape_rearm (l : Loop) : l.rearm.1.tape = l.tape := tape_arm _

theorem tape_startPlaying (l : Loop) (m : Moment) : (l.startPlaying m).1.tape = l.tape :=
  tape_rearm _

theorem tape_align (l : Loop) (now : Nat) : (l.align now).tape = l.tape := by
  unfold align
  split
  · rfl
  · simp only
    split <;> rfl

theorem tape_resync (l : Loop) (m : Moment) : (l.resync m).1.tape = l.tape :=
  (tape_rearm _).trans (tape_align l m.now)

theorem tape_setTempo (l : Loop) (bpm : Float) (m : Moment) :
    (l.setTempo bpm m).1.tape = l.tape := by
  unfold setTempo
  split
  · rfl
  · exact (tape_resync _ m).trans (tape_align l m.now)

theorem tape_turnOver (l : Loop) (length : Nat) : (l.turnOver length).1.tape = l.tape := by
  unfold turnOver
  split
  · exact tape_arm _
  · split
    · rfl
    · exact tape_arm _

theorem tape_playNext (l : Loop) : l.playNext.1.tape = l.tape := by
  unfold playNext
  split
  · exact tape_arm _
  · exact tape_arm _

theorem tape_wake (l : Loop) : l.wake.1.tape = l.tape := by
  unfold wake
  split
  · split
    · exact tape_turnOver l _
    · exact tape_playNext l
  · rfl

/-- A count of passes starts the loop, if it has a length. -/
theorem tape_play {loops : Float} (h : playCount? loops ≠ none) (l : Loop) (m : Moment) :
    (l.play loops m).1.tape = l.tape := by
  unfold play
  split
  · next hnone => exact absurd hnone h
  · split
    · rfl
    · exact tape_startPlaying _ m

/-- To stop ends a recording too. -/
theorem tape_play_stop {loops : Float} (h : playCount? loops = none) (l : Loop) (m : Moment) :
    (l.play loops m).1.tape = { l.tape with recording := false } := by
  unfold play
  rw [h]
  rfl

/-! ## Recording -/

/-- A new layer is put behind the others. -/
theorem tape_startRecording (l : Loop) (m : Moment) (h : l.recording = false) :
    (l.startRecording m).1.tape =
      { l.tape with recording := true, layers := l.layers ++ [[]] } := by
  have hready : (if l.playing then (l, []) else if l.beats.isSome then l.startPlaying m
      else ({ l with passStart := m.now }, [])).1.tape = l.tape := by
    split
    · rfl
    · split
      · exact tape_startPlaying l m
      · rfl
  have hadd : ∀ k : Loop, k.tape = l.tape →
      Loop.tape { k with recording := true, layers := k.layers ++ [[]] } =
        { l.tape with recording := true, layers := l.layers ++ [[]] } := by
    intro k hk
    rw [← hk, show l.layers = k.layers from congrArg Tape.layers hk.symm]
    rfl
  unfold startRecording
  rw [if_neg (by simp [h])]
  exact hadd _ hready

theorem tape_becomeEmpty (l : Loop) :
    l.becomeEmpty.1.tape = { l.tape with beats := l.fixedBeats } := by
  unfold becomeEmpty
  by_cases hplaying : l.playing = true
  · rw [if_pos hplaying]
    rfl
  · rw [if_neg hplaying]
    rfl

theorem fixedBeats_endLayer (l : Loop) (m : Moment) :
    (l.endLayer m).fixedBeats = l.fixedBeats := by
  unfold endLayer
  simp only
  split
  · split <;> rfl
  · rfl

theorem recording_endLayer (l : Loop) (m : Moment) : (l.endLayer m).recording = false := by
  unfold endLayer
  simp only
  split
  · split <;> rfl
  · rfl

/-- Ending a layer comes down to what is left of the layers. -/
theorem tape_stopRecording (l : Loop) (keep : Option Nat) (m : Moment) :
    (l.stopRecording keep m).1.tape =
      if ((l.endLayer m).keepLayers keep).layers = [] then
        { ((l.endLayer m).keepLayers keep).tape with beats := l.fixedBeats }
      else ((l.endLayer m).keepLayers keep).tape := by
  unfold stopRecording
  simp only [List.isEmpty_iff]
  split
  · rw [← fixedBeats_endLayer l m]
    exact tape_becomeEmpty _
  · split
    · exact tape_resync _ m
    · split
      · exact tape_startPlaying _ m
      · rfl

end Loop

/-! ## Runs -/

/-- What can be done to a loop. -/
inductive LoopUse where
  | call (c : Call)
  /-- Ends the recording, and keeps only the first layers where a number of them is given. -/
  | stopRecording (keep : Option Nat)

namespace Loop

variable {l : Loop} {m : Moment} {u : LoopUse}

def use (l : Loop) (m : Moment) : LoopUse → Loop
  | .call c => (l.respond m c).1
  | .stopRecording keep => (l.stopRecording keep m).1

/-- Uses in turn, each at its moment. -/
def run (l : Loop) (uses : List (Moment × LoopUse)) : Loop :=
  uses.foldl (fun l x => l.use x.1 x.2) l

end Loop

/-! ## What is kept -/

namespace Tape

variable {t : Tape}

/-- Tapes on which nothing is being recorded. -/
theorem Kept.of_merged {t : Tape} (hrecording : t.recording = false)
    (hmerged : t.timeline = Layer.merge t.layers) (hknown : t.layers ≠ [] → t.beats ≠ none) :
    t.Kept :=
  ⟨fun h => absurd (hrecording.symm.trans h) nofun, fun _ => ⟨hmerged, hknown⟩⟩

end Tape

namespace Loop

variable {l : Loop} {m : Moment} {u : LoopUse}

theorem kept_make (d : LoopDef) (config : SequencerConfig) (rate : Float) :
    (make d config rate).tape.Kept :=
  .of_merged rfl Layer.merge_nil.symm fun h => absurd rfl h

/-- Where the length is not known, the layer that is being recorded is the only one. -/
theorem kept_startRecording (h : l.tape.Kept) (m : Moment) :
    (l.startRecording m).1.tape.Kept := by
  cases hrecording : l.recording with
  | true =>
    have hsame : l.startRecording m = (l, []) := if_pos hrecording
    rwa [hsame]
  | false =>
    obtain ⟨hmerged, hknown⟩ := h.merged hrecording
    rw [tape_startRecording l m hrecording]
    refine ⟨fun _ => ⟨l.layers, [], rfl, hmerged, fun hnone => ?_⟩, nofun⟩
    by_contra hlayers
    exact hknown hlayers hnone

theorem kept_add (h : l.tape.Kept) (e : Event) (m : Moment) : (l.add e m).tape.Kept := by
  unfold add
  split
  · next hrecording =>
    obtain ⟨layers, last, hlayers, hmerged, hnone⟩ := h.taken hrecording
    refine ⟨fun _ => ⟨layers, last ++ [(l.beatAt m.now, e)], ?_, hmerged, hnone⟩, fun hoff => ?_⟩
    · have hsplit : l.layers = layers ++ [last] := hlayers
      show l.layers.modify (l.layers.length - 1) _ = _
      rw [hsplit, List.length_append, List.length_singleton, Nat.add_sub_cancel,
        List.modify_eq_take_cons_drop (by simp)]
      simp
    · exact absurd (hrecording.symm.trans hoff) nofun
  · exact h

/-- A layer that ends leaves a length behind, or no layer at all. -/
theorem beats_endLayer (h : l.tape.Kept) (m : Moment) (hlayers : (l.endLayer m).layers ≠ []) :
    (l.endLayer m).beats ≠ none := by
  unfold endLayer at hlayers ⊢
  simp only at hlayers ⊢
  split at hlayers
  · next hfirst =>
    obtain ⟨hrecording, hbeats⟩ := Bool.and_eq_true_iff.mp hfirst
    rw [if_pos hfirst]
    obtain ⟨layers, last, hsplit, -, hnone⟩ := h.taken hrecording
    split at hlayers
    · next hpassed =>
      rw [if_pos hpassed]
      exact nofun
    · have hempty : layers = [] := hnone (Option.isNone_iff_eq_none.mp hbeats)
      have hlast : l.layers = [last] := by
        rw [hempty] at hsplit
        exact hsplit
      simp [hlast] at hlayers
  · next hlater =>
    rw [if_neg hlater]
    cases hrecording : l.recording with
    | true => simpa [hrecording] using hlater
    | false => exact (h.merged hrecording).2 hlayers

theorem kept_stopRecording (h : l.tape.Kept) (keep : Option Nat) (m : Moment) :
    (l.stopRecording keep m).1.tape.Kept := by
  have hrecording := recording_endLayer l m
  have hsub : ((l.endLayer m).keepLayers keep).layers ≠ [] → (l.endLayer m).layers ≠ [] := by
    intro hkept hnone
    refine hkept ?_
    cases keep <;> simp [keepLayers, hnone]
  rw [tape_stopRecording]
  split
  · next hempty => exact .of_merged hrecording rfl fun hkept => absurd hempty hkept
  · exact .of_merged hrecording rfl fun hkept => beats_endLayer h m (hsub hkept)

/-- Whether a use ends a recording before it stops the loop, and does not dismiss it. -/
def Ends (l : Loop) : LoopUse → Prop
  | .call (.play loops) => l.recording = true → playCount? loops ≠ none
  | .call .dismiss => False
  | _ => True

/-- Uses of which each ends a recording before it stops the loop. -/
def Ended (l : Loop) : List (Moment × LoopUse) → Prop
  | [] => True
  | (m, u) :: rest => l.Ends u ∧ Ended (l.use m u) rest

theorem kept_use (h : l.tape.Kept) (hu : l.Ends u) : (l.use m u).tape.Kept := by
  cases u with
  | stopRecording keep => exact kept_stopRecording h keep m
  | call c =>
    cases c with
    | play loops =>
      show (l.play loops m).1.tape.Kept
      by_cases hcount : playCount? loops = none
      · have hrecording : l.recording = false := by
          by_contra hon
          exact hu (by simpa using hon) hcount
        rw [tape_play_stop hcount, ← hrecording]
        exact h
      · rwa [tape_play hcount]
    | tempo bpm => exact (tape_setTempo l bpm m).symm ▸ h
    | record value =>
      show (l.record value m).1.tape.Kept
      unfold record
      split
      · exact kept_startRecording h m
      · split
        · exact kept_stopRecording h none m
        · split
          · exact kept_stopRecording h _ m
          · exact h
    | add e => exact kept_add h e m
    | dismiss => exact hu.elim
    | wake => exact (tape_wake l).symm ▸ h
    | _ => exact h

theorem kept_run {steps : List (Moment × LoopUse)} (h : l.tape.Kept) (hends : l.Ended steps) :
    (l.run steps).tape.Kept := by
  induction steps generalizing l with
  | nil => exact h
  | cons x rest ih => exact ih (kept_use h hends.1) hends.2

/-! ## A recording that is broken off -/

/-- A key is recorded, and the loop is stopped before the recording is ended. -/
def brokenOff : List (Moment × LoopUse) :=
  [(⟨0, 480⟩, .call (.record 1.0)), (⟨0, 480⟩, .call (.add (.note 1 60 100.0))),
    (⟨0, 480⟩, .call (.play 0.0))]

/-- The layer is kept, but it is left out of the timeline. -/
theorem stop_leaves_layer_out :
    let d : LoopDef := ⟨some 4.0, none⟩
    let l := (make d .default 1000.0).run brokenOff
    d.problem? = none ∧ l.recording = false ∧ l.timeline ≠ Layer.merge l.layers := by
  intro d l
  have hlayers : l.layers.flatten.length = 1 := by decide +kernel
  have htimeline : l.timeline.length = 0 := by decide +kernel
  refine ⟨by decide +kernel, by decide +kernel, fun hmerged => ?_⟩
  have hlength := congrArg List.length hmerged
  rw [Layer.merge, List.length_mergeSort, hlayers, htimeline] at hlength
  cases hlength

end Loop

end MidiRig
