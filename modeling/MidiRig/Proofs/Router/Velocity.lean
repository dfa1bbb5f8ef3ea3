import MidiRig.Event.Bytes
import MidiRig.Proofs.Number.Whole
import MidiRig.Proofs.Router.Release
import MidiRig.Session

/-!
# Notes without velocity

On the wire a note with velocity zero is a release, and it is read as one: no message is read as a
note without velocity (`Event.isKeyDown_of_ofBytes?`). A rule that is handed such a note as an
event does not take it for a release, though: it looks at the value, it sends a note where it
sends a note-off for the release, and it runs all its effects (`Session.note_without_velocity`).
-/

namespace MidiRig

/-! ## In a rule -/

/-- Whether an effect also gets the releases of keys. -/
def Effect.followsKeys : Effect → Bool
  | .arpeggio _ | .loop _ => true
  | _ => false

namespace Rule

variable {rule : Rule} (channel number : Int)

theorem releases_noteOff (hkind : rule.kind = .note) :
    rule.releases (.noteOff channel number) = true := by
  simp [releases, hkind, Event.noteOff, Event.make]

/-- A release is matched by its channel and number alone. -/
theorem applies_noteOff (hkind : rule.kind = .note) :
    rule.applies (.noteOff channel number) =
      (accepts rule.channel (some (Float.ofInt channel)) &&
        accepts rule.number (some (Float.ofInt number))) := by
  have hvalue : accepts rule.value none = true := by cases rule.value <;> rfl
  unfold applies
  rw [releases_noteOff channel number hkind, Bool.or_true, Bool.true_and, Bool.not_true,
    Bool.and_false, if_neg Bool.false_ne_true, hvalue, Bool.and_true]
  rfl

/-- A note is matched by its value besides. -/
theorem applies_note (hkind : rule.kind = .note) (value : Float) :
    rule.applies (.note channel number value) =
      (rule.applies (.noteOff channel number) && accepts rule.value (some value)) := by
  rw [applies_noteOff channel number hkind, applies, releases_of_kind rfl, Bool.or_false]
  simp only [hkind, Event.note, Event.make, decide_true, Bool.true_and]
  rfl

variable (hkind : rule.kind = .note)
include hkind

/-- Towards notes, the release comes out as that of the note that comes out. -/
theorem apply_noteOff_of_target (htarget : rule.target = .note) :
    (rule.apply (.noteOff channel number)).event =
      (rule.apply (.note channel number 0.0)).event.release := by
  rw [event_apply_release (p := Event.note channel number 0.0)
    (u := Event.noteOff channel number) rfl rfl rfl rfl
    (releases_noteOff channel number hkind) htarget]
  unfold apply applyMessage
  simp only [htarget, releases_of_kind (p := Event.note channel number 0.0) rfl]
  rfl

/-- Where the value that comes out is one that a message can hold, the release comes out as the
note, unless that is a note. -/
theorem apply_noteOff (hheld : Binary64.clamp 0.0 rule.target.maxValue (rule.mapValue 0.0) =
    rule.mapValue 0.0) :
    (rule.apply (.noteOff channel number)).lowByte =
        (rule.apply (.note channel number 0.0)).lowByte ∧
      (rule.target ≠ .note →
        rule.apply (.noteOff channel number) = rule.apply (.note channel number 0.0)) := by
  have hnote : rule.apply (.note channel number 0.0) =
      rule.applyMessage (.note channel number 0.0) := rfl
  have hoff : rule.apply (.noteOff channel number) =
      rule.applyMessage (.noteOff channel number) := rfl
  simp only [hnote, hoff, applyMessage, releases_noteOff channel number hkind,
    releases_of_kind (p := Event.note channel number 0.0) rfl, if_true, hheld]
  refine ⟨rfl, fun htarget => ?_⟩
  simp only [htarget, decide_false, Bool.and_false, Bool.false_eq_true, if_false]
  rfl

end Rule

namespace Desk

variable (config : RouterConfig) (d : Desk) {rule : Rule} {e : Event}

theorem map_effect_effectsTrace (range : Option Route) (effects : List Effect) :
    (d.effectsTrace config range e effects).map EffectRun.effect = effects := by
  induction effects generalizing d e with
  | nil => rfl
  | cons effect rest ih => exact congrArg (effect :: ·) (ih _)

theorem map_effect_ruleTrace_press (h : rule.releases e = false) :
    (d.ruleTrace config e rule).map EffectRun.effect = rule.effects := by
  unfold ruleTrace
  rw [if_neg (by simp [h])]
  exact map_effect_effectsTrace config d rule.value rule.effects

theorem map_effect_ruleTrace_release (h : rule.releases e = true) :
    (d.ruleTrace config e rule).map EffectRun.effect = rule.effects.filter Effect.followsKeys := by
  unfold ruleTrace
  rw [if_pos h]
  induction rule.effects with
  | nil => rfl
  | cons effect rest ih =>
    cases effect with
    | arpeggio player => exact congrArg (Effect.arpeggio player :: ·) ih
    | loop player => exact congrArg (Effect.loop player :: ·) ih
    | _ => exact ih

end Desk

/-! ## On the wire -/

namespace Event

/-- Note with velocity zero and note-off are one message. -/
theorem ofBytes?_zeroVelocity {k : Nat} (hk : k < 16) (key : UInt8) (rest : List UInt8) :
    ofBytes? (UInt8.ofNat (0x90 + k) :: key :: 0 :: rest) =
        some (noteOff (k + 1) key.toNat) ∧
      ofBytes? (UInt8.ofNat (0x80 + k) :: key :: 0 :: rest) =
        some (noteOff (k + 1) key.toNat) := by
  have hzero : Float.ofNat 0 = 0.0 := by decide +kernel
  interval_cases k <;> refine ⟨rfl, ?_⟩ <;>
    exact congrArg (fun value => some (make .noteOff _ _ value)) hzero

theorem isKeyDown_voice {channel : Option Int} {number velocity : UInt8} (h : velocity ≠ 0) :
    (make .note channel (some number.toNat) (Float.ofNat velocity.toNat)).isKeyDown = true := by
  have hlt : velocity.toNat < 256 := velocity.toNat_lt
  have hpos : 0 < velocity.toNat := Nat.pos_of_ne_zero fun hz => h (UInt8.toNat_inj.mp hz)
  have hvalue : Binary64.Has (Float.ofNat velocity.toNat) velocity.toNat :=
    Binary64.has_natCast (by omega)
  have hgt : (0.0 : Float) < Float.ofNat velocity.toNat :=
    (Binary64.has_zero.lt_iff hvalue).mpr (by exact_mod_cast hpos)
  simpa [isKeyDown, make] using hgt

theorem isKeyDown_of_ofChannelBytes? {status : Nat} {data : List UInt8} {e : Event}
    (h : ofChannelBytes? status data = some e) (hkind : e.kind = .note) :
    e.isKeyDown = true := by
  unfold ofChannelBytes? at h
  dsimp only at h
  split at h
  · split at h
    · cases h
      cases hkind
    · next hvelocity =>
      cases h
      exact isKeyDown_voice hvelocity
  all_goals cases h; try cases hkind

/-- A message that is read as a note has a velocity. -/
theorem isKeyDown_of_ofBytes? {bytes : List UInt8} {e : Event} (h : ofBytes? bytes = some e)
    (hkind : e.kind = .note) : e.isKeyDown = true := by
  unfold ofBytes? at h
  split at h
  · cases h
  · split at h
    · cases h
      cases hkind
    · cases h
      cases hkind
    · cases h
      cases hkind
    · cases h
      cases hkind
    · cases h
      cases hkind
    · exact isKeyDown_of_ofChannelBytes? h hkind

end Event

namespace Session

/-- A rule for notes matches a release by channel and number, and runs on it only the effects that
follow keys. A note without velocity on that channel and number it matches if it also takes the
value zero, and runs all effects on it. What comes out of both has the same channel and number: a
note and its note-off, or where the rule aims at another kind the same event, if the value that
comes out is one that a message can hold. As messages both are the same release, and no message is
a note without velocity. -/
theorem note_without_velocity {rule : Rule} (hkind : rule.kind = .note) (channel number : Int) :
    let press := Event.note channel number 0.0
    let off := Event.noteOff channel number
    let held := Binary64.clamp 0.0 rule.target.maxValue (rule.mapValue 0.0) = rule.mapValue 0.0
    rule.applies off = (Rule.accepts rule.channel (some (Float.ofInt channel)) &&
        Rule.accepts rule.number (some (Float.ofInt number))) ∧
      rule.applies press = (rule.applies off && Rule.accepts rule.value (some 0.0)) ∧
      (rule.target = .note → (rule.apply off).event = (rule.apply press).event.release) ∧
      (held → (rule.apply off).lowByte = (rule.apply press).lowByte ∧
        (rule.target ≠ .note → rule.apply off = rule.apply press)) ∧
      (∀ (config : RouterConfig) (d : Desk),
        (d.ruleTrace config off rule).map EffectRun.effect =
            rule.effects.filter Effect.followsKeys ∧
          (d.ruleTrace config press rule).map EffectRun.effect = rule.effects) ∧
      (∀ k < 16, ∀ (key : UInt8) (rest : List UInt8) (s : Session),
        s.handleBytes (UInt8.ofNat (0x90 + k) :: key :: 0 :: rest) =
            some (s.handle (.noteOff (k + 1) key.toNat)).2 ∧
          s.handleBytes (UInt8.ofNat (0x80 + k) :: key :: 0 :: rest) =
            some (s.handle (.noteOff (k + 1) key.toNat)).2) ∧
      ∀ (bytes : List UInt8) (e : Event), Event.ofBytes? bytes = some e → e.kind = .note →
        e.isKeyDown = true := by
  intro press off held
  have hrelease : rule.releases off = true := Rule.releases_noteOff channel number hkind
  have hpress : rule.releases press = false := Rule.releases_of_kind rfl
  refine ⟨Rule.applies_noteOff channel number hkind, Rule.applies_note channel number hkind 0.0,
    Rule.apply_noteOff_of_target channel number hkind, Rule.apply_noteOff channel number hkind,
    fun config d => ⟨Desk.map_effect_ruleTrace_release config d hrelease,
      Desk.map_effect_ruleTrace_press config d hpress⟩, fun k hk key rest s => ?_,
    fun bytes e => Event.isKeyDown_of_ofBytes?⟩
  obtain ⟨hzero, hoff⟩ := Event.ofBytes?_zeroVelocity hk key rest
  unfold handleBytes
  rw [hzero, hoff]
  exact ⟨rfl, rfl⟩

/-- A rule that makes a control change of keys struck at all, and starts a sequence with it. -/
theorem note_without_velocity_struck :
    let rule : Rule :=
      ⟨.note, .control, none, none, some (.fromTo 1.0 127.0 40.0 127.0), none, none,
        [.play "bells", .loop "tape"]⟩
    rule.kind = .note ∧ rule.applies (.noteOff 1 60) = true ∧
      rule.applies (.note 1 60 0.0) = false ∧
      rule.apply (.noteOff 1 60) = rule.apply (.note 1 60 0.0) := by
  intro rule
  have hkind : rule.kind = .note := rfl
  obtain ⟨hoff, hpress, -, hheld, -⟩ := note_without_velocity hkind 1 60
  have happlies : rule.applies (.noteOff 1 60) = true := hoff.trans rfl
  have hzero : Rule.accepts rule.value (some 0.0) = false := by decide +kernel
  refine ⟨rfl, happlies, ?_, (hheld (by decide +kernel)).2 (by decide)⟩
  rw [hpress, happlies, hzero]
  rfl

/-- A note without velocity is not matched where its release is, and where it is it comes out as a
note and runs an effect that the release does not run. -/
theorem note_without_velocity_kept :
    let struck : Rule :=
      ⟨.note, .note, none, none, some (.fromTo 1.0 127.0 40.0 127.0), none, none, []⟩
    let started : Rule := ⟨.note, .note, none, none, none, none, none, [.play "bells"]⟩
    let press := Event.note 1 60 0.0
    let off := Event.noteOff 1 60
    press.isKeyUp = true ∧ struck.applies off = true ∧ struck.applies press = false ∧
      started.applies off = true ∧ started.applies press = true ∧
      (started.apply off).event.kind = .noteOff ∧ (started.apply press).event.kind = .note ∧
      ∀ (config : RouterConfig) (d : Desk),
        (d.ruleTrace config off started).map EffectRun.effect = [] ∧
          (d.ruleTrace config press started).map EffectRun.effect = [.play "bells"] := by
  exact ⟨by decide +kernel, by decide +kernel, by decide +kernel, by decide +kernel,
    by decide +kernel, by decide +kernel, by decide +kernel, fun _ _ => ⟨rfl, rfl⟩⟩

end Session

end MidiRig
