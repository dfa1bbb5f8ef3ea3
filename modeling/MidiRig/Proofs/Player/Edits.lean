import Mathlib.Logic.Relation
import MidiRig.Player.Loop

/-!
# What operations change of a loop

Whatever is done to a loop comes down to a few kinds of change: to where and how it plays, to its
tempo, to its layers, to its timeline and to its length (`Loop.Edit`). What is kept by each of them
is kept by every operation (`Loop.edits_respond`, `Loop.edits_stopRecording`).
-/

namespace MidiRig

namespace Loop

inductive Edit (m : Moment) : Loop → Loop → Prop where
  | plays (l : Loop) (recording playing : Bool) (passes : Option Nat) (passStart next : Nat)
      (atEnd : Bool) :
      Edit m l { l with recording, playing, passes, passStart, next, atEnd }
  | tempo (l : Loop) (bpm : Float) : Edit m l { l with tempo := l.tempo.setBpm bpm }
  | records (l : Loop) (layers : List Layer) : Edit m l { l with layers }
  | merges (l : Loop) : Edit m l { l with timeline := Layer.merge l.layers }
  | measures (l : Loop)
      (h : l.tempo.toBeats (Float.ofNat (m.now - l.passStart)) > 0.0) :
      Edit m l
        { l with beats := some (l.tempo.toBeats (Float.ofNat (m.now - l.passStart))) }
  | forgets (l : Loop) : Edit m l { l with beats := l.fixedBeats }

/-- Changes one after the other. -/
abbrev Edits (m : Moment) : Loop → Loop → Prop := Relation.ReflTransGen (Edit m)

variable {l k : Loop} {m : Moment}

/-- What every change keeps, all of them keep. -/
theorem Edits.keep {P : Loop → Prop} (hedit : ∀ l k, Edit m l k → P l → P k) (h : Edits m l k)
    (hl : P l) : P k := by
  induction h with
  | refl => exact hl
  | tail _ hlast ih => exact hedit _ _ hlast ih

theorem Edit.edits (h : Edit m l k) : Edits m l k := .single h

theorem edits_arm (l : Loop) : Edits m l l.arm.1 := by
  unfold arm
  split
  · exact .refl
  · split
    · exact .refl
    · exact (Edit.plays l _ _ _ _ _ true).edits

theorem edits_rearm (l : Loop) : Edits m l l.rearm.1 :=
  .trans (Edit.plays l _ _ _ _ _ false).edits (edits_arm _)

theorem edits_startPlaying (l : Loop) : Edits m l (l.startPlaying m).1 :=
  .trans (Edit.plays l _ true _ m.now 0 _).edits (edits_rearm _)

theorem edits_align (l : Loop) (now : Nat) : Edits m l (l.align now) := by
  unfold align
  split
  · exact .refl
  · simp only
    split <;> exact (Edit.plays l _ _ _ _ _ _).edits

theorem edits_resync (l : Loop) : Edits m l (l.resync m).1 :=
  .trans (edits_align l m.now) (.trans (Edit.plays _ _ _ _ _ _ _).edits (edits_rearm _))

theorem edits_stop (l : Loop) : Edits m l l.stop.1 := (Edit.plays l _ false _ _ _ false).edits

theorem edits_play (l : Loop) (loops : Float) : Edits m l (l.play loops m).1 := by
  unfold play
  split
  · exact (Edit.plays l false false _ _ _ false).edits
  · split
    · exact .refl
    · exact .trans (Edit.plays l _ _ _ _ _ _).edits (edits_startPlaying _)

theorem tempo_align (l : Loop) (now : Nat) : (l.align now).tempo = l.tempo := by
  unfold align
  split
  · rfl
  · simp only
    split <;> rfl

theorem edits_setTempo (l : Loop) (bpm : Float) : Edits m l (l.setTempo bpm m).1 := by
  have htempo : Edits m l { l.align m.now with tempo := l.tempo.setBpm bpm } := by
    rw [← tempo_align l m.now]
    exact .trans (edits_align l m.now) (Edit.tempo _ bpm).edits
  unfold setTempo
  split
  · exact (Edit.tempo l bpm).edits
  · refine .trans htempo (.trans ?_ (edits_resync _))
    exact (Edit.plays { l.align m.now with tempo := l.tempo.setBpm bpm } _ _ _ _ _ _).edits

theorem edits_add (l : Loop) (e : Event) : Edits m l (l.add e m) := by
  unfold add
  split
  · exact (Edit.records l _).edits
  · exact .refl

theorem edits_startRecording (l : Loop) : Edits m l (l.startRecording m).1 := by
  unfold startRecording
  split
  · exact .refl
  · have hready : Edits m l (if l.playing then (l, []) else if l.beats.isSome then l.startPlaying m
        else ({ l with passStart := m.now }, [])).1 := by
      split
      · exact .refl
      · split
        · exact edits_startPlaying l
        · exact (Edit.plays l _ _ _ m.now _ _).edits
    exact .trans hready (.trans (Edit.plays _ true _ _ _ _ _).edits (Edit.records _ _).edits)

theorem edits_endLayer (l : Loop) : Edits m l (l.endLayer m) := by
  have hended : Edits m l { l with recording := false } := (Edit.plays l false _ _ _ _ _).edits
  unfold endLayer
  simp only
  split
  · split
    · next hpassed => exact .trans hended (Edit.measures { l with recording := false } hpassed).edits
    · exact .trans hended (Edit.records _ _).edits
  · exact hended

theorem edits_keepLayers (l : Loop) (keep : Option Nat) : Edits m l (l.keepLayers keep) :=
  .trans (Edit.records l (l.keepLayers keep).layers).edits
    (Edit.merges { l with layers := (l.keepLayers keep).layers }).edits

theorem edits_becomeEmpty (l : Loop) : Edits m l l.becomeEmpty.1 := by
  have hstopped : Edits m l (if l.playing then l.stop else (l, [])).1 := by
    split
    · exact edits_stop l
    · exact .refl
  have hsame : (if l.playing then l.stop else (l, [])).1.fixedBeats = l.fixedBeats := by
    split <;> rfl
  unfold becomeEmpty
  simp only
  rw [← hsame]
  exact .trans hstopped (Edit.forgets _).edits

theorem edits_stopRecording (l : Loop) (keep : Option Nat) :
    Edits m l (l.stopRecording keep m).1 := by
  have hkept : Edits m l ((l.endLayer m).keepLayers keep) :=
    .trans (edits_endLayer l) (edits_keepLayers _ keep)
  refine hkept.trans ?_
  unfold stopRecording
  simp only
  split
  · exact edits_becomeEmpty _
  · split
    · exact edits_resync _
    · split
      · exact .trans (Edit.plays _ _ _ none _ _ _).edits (edits_startPlaying _)
      · exact .refl

theorem edits_record (l : Loop) (value : Float) : Edits m l (l.record value m).1 := by
  unfold record
  split
  · exact edits_startRecording l
  · split
    · exact edits_stopRecording l none
    · split
      · exact edits_stopRecording l _
      · exact .refl

theorem edits_wake (l : Loop) : Edits m l l.wake.1 := by
  unfold wake
  split
  · next length _ _ =>
    split
    · unfold turnOver
      split
      · exact .trans (Edit.plays l _ _ _ _ 0 false).edits (edits_arm _)
      · split
        · exact (Edit.plays l _ false _ _ 0 false).edits
        · exact .trans (Edit.plays l _ _ _ _ 0 false).edits (edits_arm _)
    · unfold playNext
      split
      · exact .trans (Edit.plays l _ _ _ _ _ _).edits (edits_arm _)
      · exact edits_arm l
  · exact .refl

theorem edits_respond (l : Loop) (c : Call) : Edits m l (l.respond m c).1 := by
  cases c with
  | play loops => exact edits_play l loops
  | tempo bpm => exact edits_setTempo l bpm
  | record value => exact edits_record l value
  | add e => exact edits_add l e
  | dismiss => exact (Edit.plays l false false _ _ _ false).edits
  | wake => exact edits_wake l
  | _ => exact .refl

end Loop

end MidiRig
