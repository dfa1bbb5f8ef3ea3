import MidiRig.Proofs.Player.Notes
import MidiRig.Proofs.Session.Unrolled

/-!
# No hanging notes

In a session where time passes by `advance` only, and players are woken by their callbacks only,
the presses of a key by a sequence or an arpeggio are never more than its releases and the
note-offs that the player remembers for later. One that does not play, and one that has been
removed, has released every key.
-/

namespace MidiRig

/-- Whether time passes by `advance` only, and players are woken by their callbacks only. -/
def Op.Timed : Op → Prop
  | .call _ .wake | .wake _ | .deliver _ | .use (.setTick _) => False
  | _ => True

theorem Op.Timed.fits {op : Op} (h : op.Timed) : op.Fits .timed := by
  cases op with
  | call name c => cases c <;> exact h
  | wake player => exact h
  | deliver limit => exact h
  | use u => cases u <;> exact h
  | _ => trivial

namespace Session

/-- A sequence or an arpeggio has pressed no key more often than it has released it, but for the
note-offs that it remembers and that lie ahead. Where it does not play, or is gone, none are
left. -/
theorem no_hanging_notes (rate : Float) (config : Config) {ops : List Op}
    (hops : ∀ op ∈ ops, op.Timed) (k : Key) :
    let s := (start rate config).run ops
    let played := (start rate config).ledger ops
    (∀ m ∈ s.stage.directory.members, ∀ p, m.player.stepper? = some p →
      k.downs (played.of m.id) ≤ k.offs (played.of m.id) +
          (p.sounding.prune s.stage.engine.now).countOf (fun _ => k.isOf) ∧
        (p.playing = false → k.downs (played.of m.id) ≤ k.offs (played.of m.id))) ∧
    ∀ before after, ops = before ++ after →
      ∀ m ∈ ((start rate config).run before).stage.directory.members,
        m.player.stepper?.isSome = true → (∀ other ∈ s.stage.directory.members, other.id ≠ m.id) →
          k.downs (played.of m.id) ≤ k.offs (played.of m.id) := by
  intro s played
  refine ⟨fun m hm p hp => ?_, fun before after hsplit m hm hstepped hgone => ?_⟩
  · obtain ⟨born, hlives⟩ := lives_start .timed rate config fun op hop => (hops op hop).fits
    obtain ⟨d, -, hlife⟩ := hlives.of_mem hm
    have hd : d.isStepped = true := by
      rw [← hlife.stepped m.player rfl, hp]
      rfl
    obtain ⟨q, hq, htimely, hbalanced⟩ := hlife.even hd k
    obtain rfl : q = p := Option.some.inj (hq.symm.trans hp)
    exact ⟨hbalanced.downs_le_sounding, hbalanced.downs_le htimely⟩
  · subst hsplit
    obtain ⟨born, hlives⟩ := lives_start .timed rate config fun op hop =>
      (hops op (List.mem_append_left after hop)).fits
    obtain ⟨d, hborn, hlife⟩ := hlives.of_mem hm
    have hd : d.isStepped = true := (hlife.stepped m.player rfl).symm.trans hstepped
    -- the life that it had before is the one that has ended
    obtain ⟨born', hkept, hlives'⟩ := lives_run hlives fun op hop =>
      (hops op (List.mem_append_right before hop)).fits
    rw [← run_append, ← ledger_append] at hlives'
    have heven := (hlives'.life m.id d (hkept m.id d hborn)).even hd k
    have hnone : s.stage.player? m.id = none := Stage.player?_eq_none_iff.mpr hgone
    rw [Stage.part, hnone] at heven
    exact heven

/-! ### Bells -/

/-- Bells that have struck a key three times, and hold it still. -/
def ringBells : List Op :=
  [.addPlayer "bells" (.arpeggio { ArpeggioDef.default with style := .manual }),
    .call "bells" (.add (Event.note 1 72 100.0)), .advance 300]

/-- The key is let go while the third note sounds. -/
def hushBells : List Op := ringBells ++ [.call "bells" (.add (Event.noteOff 1 72))]

/-- The bells are taken away while the third note sounds. -/
def dropBells : List Op := ringBells ++ [.removePlayer "bells"]

/-- While the bells ring the third note-off lies ahead; once they have been hushed, or are gone, it
has been played. -/
theorem no_hanging_notes_bells :
    let k : Key := ⟨some 1, some 72⟩
    let s := start 1000.0 .default
    (∀ op ∈ ringBells, op.Timed) ∧ (∀ op ∈ hushBells, op.Timed) ∧ (∀ op ∈ dropBells, op.Timed) ∧
      (∃ m ∈ (s.run ringBells).stage.directory.members, ∃ p, m.player.stepper? = some p ∧
        p.playing = true ∧ k.downs ((s.ledger ringBells).of m.id) = 3 ∧
        k.offs ((s.ledger ringBells).of m.id) = 2 ∧
        k.downs ((s.ledger ringBells).of m.id) ≤ k.offs ((s.ledger ringBells).of m.id) +
          (p.sounding.prune (s.run ringBells).stage.engine.now).countOf (fun _ => k.isOf)) ∧
      (∃ m ∈ (s.run hushBells).stage.directory.members, ∃ p, m.player.stepper? = some p ∧
        p.playing = false ∧ k.downs ((s.ledger hushBells).of m.id) = 3 ∧
        k.offs ((s.ledger hushBells).of m.id) = 3 ∧
        k.downs ((s.ledger hushBells).of m.id) ≤ k.offs ((s.ledger hushBells).of m.id)) ∧
      ∃ m ∈ (s.run ringBells).stage.directory.members, m.player.stepper?.isSome = true ∧
        (∀ other ∈ (s.run dropBells).stage.directory.members, other.id ≠ m.id) ∧
        k.downs ((s.ledger dropBells).of m.id) = 3 ∧ k.offs ((s.ledger dropBells).of m.id) = 3 ∧
        k.downs ((s.ledger dropBells).of m.id) ≤ k.offs ((s.ledger dropBells).of m.id) := by
  intro k s
  have hring : ∀ op ∈ ringBells, op.Timed := by simp [ringBells, Op.Timed]
  have hhush : ∀ op ∈ hushBells, op.Timed := by simp [hushBells, ringBells, Op.Timed]
  have hdrop : ∀ op ∈ dropBells, op.Timed := by simp [dropBells, ringBells, Op.Timed]
  have hmatches (ops : List Op) : s.Matches (s.unrolled 8 ops) ops := s.matches_unrolled 8 ops
  refine ⟨hring, hhush, hdrop, ?_, ?_, ?_⟩
  · obtain ⟨m, hm, p, hp, hplaying, hdowns, hoffs⟩ :
        ∃ m ∈ (s.run ringBells).stage.directory.members, ∃ p ∈ m.player.stepper?,
          p.playing = true ∧ k.downs ((s.ledger ringBells).of m.id) = 3 ∧
            k.offs ((s.ledger ringBells).of m.id) = 2 := by
      rw [← (hmatches ringBells).run, ← (hmatches ringBells).ledger]
      decide +kernel
    exact ⟨m, hm, p, hp, hplaying, hdowns, hoffs,
      ((no_hanging_notes 1000.0 .default hring k).1 m hm p hp).1⟩
  · obtain ⟨m, hm, p, hp, hsilent, hdowns, hoffs⟩ :
        ∃ m ∈ (s.run hushBells).stage.directory.members, ∃ p ∈ m.player.stepper?,
          p.playing = false ∧ k.downs ((s.ledger hushBells).of m.id) = 3 ∧
            k.offs ((s.ledger hushBells).of m.id) = 3 := by
      rw [← (hmatches hushBells).run, ← (hmatches hushBells).ledger]
      decide +kernel
    exact ⟨m, hm, p, hp, hsilent, hdowns, hoffs,
      ((no_hanging_notes 1000.0 .default hhush k).1 m hm p hp).2 hsilent⟩
  · obtain ⟨m, hm, hstepped, hgone, hdowns, hoffs⟩ :
        ∃ m ∈ (s.run ringBells).stage.directory.members, m.player.stepper?.isSome = true ∧
          (∀ other ∈ (s.run dropBells).stage.directory.members, other.id ≠ m.id) ∧
          k.downs ((s.ledger dropBells).of m.id) = 3 ∧
            k.offs ((s.ledger dropBells).of m.id) = 3 := by
      rw [← (hmatches ringBells).run, ← (hmatches dropBells).run, ← (hmatches dropBells).ledger]
      decide +kernel
    exact ⟨m, hm, hstepped, hgone, hdowns, hoffs,
      (no_hanging_notes 1000.0 .default hdrop k).2 ringBells _ rfl m hm hstepped hgone⟩

end Session

end MidiRig
