import MidiRig.Proofs.Player.Notes

/-!
# What players send at once

Players queue what they play. The one thing that they send to the engine at once are the note-offs
of notes that are cut short: what a stepper remembers of its sounding notes when it stops. So all
that a player sends at once in its life are note-offs (`Life.cuts`), even where it is woken out of
turn.
-/

namespace MidiRig

variable {now : Nat} {xs ys : List Action}

/-- The event that an action sends at once. -/
def Action.sent? : Action → Option Event
  | .send e => some e
  | _ => none

/-- Actions that send nothing at once but note-offs. -/
def CutsOnly (xs : List Action) : Prop := ∀ x ∈ xs, ∀ e, x.sent? = some e → e.kind = .noteOff

namespace CutsOnly

theorem nil : CutsOnly [] := by simp [CutsOnly]

theorem cons {x : Action} (hx : x.sent? = none) (hxs : CutsOnly xs) : CutsOnly (x :: xs) := by
  intro y hy e he
  rcases List.mem_cons.mp hy with rfl | hy
  · rw [hx] at he
    cases he
  · exact hxs y hy e he

theorem append (hxs : CutsOnly xs) (hys : CutsOnly ys) : CutsOnly (xs ++ ys) := by
  intro x hx
  exact (List.mem_append.mp hx).elim (hxs x) (hys x)

theorem atOnce (h : CutsOnly xs) : ∀ x ∈ atOnce now xs, x.event.kind = .noteOff := by
  intro x hx
  obtain ⟨a, ha, hplayed⟩ := List.mem_filterMap.mp hx
  cases a with
  | send e =>
    cases hplayed
    exact h _ ha e rfl
  | _ => cases hplayed

end CutsOnly

/-! ## Steppers -/

namespace Stepper

variable {p q : Stepper}

/-- All that is remembered of sounding notes are note-offs. -/
def RemembersOffs (p : Stepper) : Prop := ∀ off ∈ p.sounding, off.2.kind = .noteOff

theorem cutsOnly_release {s : Sounding} (h : ∀ off ∈ s, off.2.kind = .noteOff) (now : Nat) :
    CutsOnly (.cancel :: s.release now) := by
  refine .cons rfl fun x hx e he => ?_
  obtain ⟨off, hoff, rfl⟩ := List.mem_map.mp hx
  cases he
  exact h off (Sounding.mem_prune.mp hoff).1

theorem cutsOnly_stepActions (p : Stepper) (events : List Event) (tick length : Nat) :
    CutsOnly (p.stepActions events tick length) := by
  refine .append (fun x hx e he => ?_) (.cons rfl .nil)
  obtain ⟨struck, -, hx⟩ := List.mem_flatMap.mp hx
  rcases List.mem_cons.mp hx with rfl | hx
  · cases he
  · obtain ⟨off, -, rfl⟩ := List.mem_map.mp hx
    cases he

theorem remembersOffs_stopped (p : Stepper) : p.stopped.RemembersOffs :=
  fun _ hoff => absurd hoff List.not_mem_nil

theorem RemembersOffs.stepped (h : p.RemembersOffs) (events : List Event) (tick length : Nat) :
    (p.stepped events tick length).RemembersOffs := by
  intro off hoff
  rcases List.mem_append.mp hoff with hoff | hoff
  · exact h off hoff
  · exact (mem_noteOffs hoff).2

theorem RemembersOffs.pruned (h : p.RemembersOffs) (now : Nat) : (p.pruned now).RemembersOffs :=
  fun off hoff => h off (Sounding.mem_prune.mp hoff).1

theorem RemembersOffs.does (h : p.RemembersOffs) (hdoes : Does now p xs q) :
    CutsOnly xs ∧ q.RemembersOffs := by
  induction hdoes with
  | rests => exact ⟨.nil, h⟩
  | stops => exact ⟨cutsOnly_release h now, remembersOffs_stopped _⟩
  | starts => exact ⟨.cons rfl .nil, h⟩
  | strikes _ events => exact ⟨cutsOnly_stepActions _ _ _ _, h.stepped events _ _⟩
  | seq _ _ hxs hys =>
    obtain ⟨hfirst, hnext⟩ := hxs h
    obtain ⟨hsecond, hlast⟩ := hys hnext
    exact ⟨hfirst.append hsecond, hlast⟩

theorem RemembersOffs.wakes (h : p.RemembersOffs) (hwakes : Wakes now p xs q) :
    CutsOnly xs ∧ q.RemembersOffs := by
  cases hwakes with
  | sleeps => exact ⟨.nil, h⟩
  | steps _ events => exact ⟨cutsOnly_stepActions _ _ _ _, (h.pruned now).stepped events _ _⟩
  | ends => exact ⟨cutsOnly_release (h.pruned now) now, remembersOffs_stopped _⟩

end Stepper

/-! ## Loops and tracks -/

theorem Loop.cutsOnly_respond (l : Loop) (m : Moment) (c : Call) : CutsOnly (l.respond m c).2 := by
  have harming : ∀ {k : Loop} {xs : List Action}, k.Arming xs → CutsOnly xs := by
    intro k xs h
    unfold Arming at h
    split at h
    · obtain ⟨tick, rfl⟩ := h
      exact .cons rfl .nil
    · exact h ▸ .nil
  have hdoes : ∀ {k : Loop} {xs : List Action}, Does l xs k → CutsOnly xs := by
    intro k xs h
    cases h with
    | rests => exact .nil
    | stops => exact .cons rfl .nil
    | arms _ hxs => exact .cons rfl (harming hxs)
  have hwakes : ∀ {k : Loop} {xs : List Action}, Wakes l xs k → CutsOnly xs := by
    intro k xs h
    cases h with
    | sleeps => exact .nil
    | ends => exact .cons rfl .nil
    | arms _ hxs => exact harming hxs
    | plays _ _ _ hxs => exact .cons rfl (harming hxs)
  cases c with
  | wake => exact hwakes l.wakes_wake
  | _ => exact hdoes (l.does_respond m nofun)

theorem Track.cutsOnly_respond (t : Track) (m : Moment) (c : Call) :
    CutsOnly (t.respond m c).2 := by
  intro x hx e he
  have hfile := t.isFile_respond m c x hx
  cases x with
  | send => cases hfile
  | _ => cases he

/-! ## All players -/

namespace Player

variable {p : Player}

/-- Only note-offs are remembered by a player that steps. -/
def RemembersOffs : Player → Prop
  | sequence s => s.stepper.RemembersOffs
  | arpeggio p => p.Keyed ∧ p.stepper.RemembersOffs
  | loop _ | track _ => True

theorem remembersOffs_make (d : PlayerDef) (config : SequencerConfig) (rate : Float) :
    (make d config rate).RemembersOffs := by
  cases d with
  | sequence d => exact fun _ hoff => absurd hoff List.not_mem_nil
  | arpeggio d =>
    exact ⟨Arpeggio.keyed_make d config rate, fun _ hoff => absurd hoff List.not_mem_nil⟩
  | loop d => trivial
  | track d => trivial

theorem RemembersOffs.respond (h : p.RemembersOffs) (m : Moment) (c : Call) :
    CutsOnly (p.respond m c).2 ∧ (p.respond m c).1.RemembersOffs := by
  cases p with
  | sequence s =>
    by_cases hc : c = .wake
    · subst hc
      exact Stepper.RemembersOffs.wakes h (s.wakes_wake m)
    · exact Stepper.RemembersOffs.does h (s.does_respond m hc)
  | arpeggio p =>
    by_cases hc : c = .wake
    · subst hc
      obtain ⟨hwakes, hkeyed⟩ := Arpeggio.wakes_wake h.1 m
      obtain ⟨hcuts, hafter⟩ := h.2.wakes hwakes
      exact ⟨hcuts, hkeyed, hafter⟩
    · obtain ⟨hdoes, hkeyed⟩ := Arpeggio.does_respond h.1 m hc
      obtain ⟨hcuts, hafter⟩ := h.2.does hdoes
      exact ⟨hcuts, hkeyed, hafter⟩
  | loop l => exact ⟨l.cutsOnly_respond m c, trivial⟩
  | track t => exact ⟨t.cutsOnly_respond m c, trivial⟩

end Player

/-! ## Along a life -/

/-- What has been sent at once are note-offs. -/
def SentOffs (played : List Played) : Prop :=
  ∀ x ∈ played, x.queued = false → x.event.kind = .noteOff

theorem SentOffs.nil : SentOffs [] := by simp [SentOffs]

theorem SentOffs.append {played more : List Played} (h : SentOffs played) (k : SentOffs more) :
    SentOffs (played ++ more) := by
  intro x hx
  exact (List.mem_append.mp hx).elim (h x) (k x)

theorem SentOffs.of_cuts (h : CutsOnly xs) : SentOffs (atOnce now xs) := fun x hx _ => h.atOnce x hx

/-- All that a player sends at once are note-offs. -/
theorem Life.cuts {r : Conduct} {d : PlayerDef} {busy : Bool} {now : Nat} {p : Part}
    {played : List Played} (h : Life r d busy now p played) :
    (∀ player ∈ p.player, player.RemembersOffs) ∧ SentOffs played := by
  induction h with
  | born busy now config rate hvalid =>
    refine ⟨fun player hplayer => ?_, .nil⟩
    rw [← Option.mem_some.mp hplayer]
    exact Player.remembersOffs_make d config rate
  | steps _ _ hs ih =>
    cases hs with
    | stays => exact ⟨ih.1, ih.2.append .nil⟩
    | answers c =>
      obtain ⟨hcuts, hafter⟩ := (ih.1 _ rfl).respond _ c
      exact ⟨fun player hplayer => Option.mem_some.mp hplayer ▸ hafter,
        ih.2.append (.of_cuts hcuts)⟩
    | leaves =>
      obtain ⟨hcuts, -⟩ := (ih.1 _ rfl).respond _ .dismiss
      exact ⟨nofun, ih.2.append (.of_cuts hcuts)⟩
  | turns _ ht ih =>
    cases ht with
    | plays e =>
      refine ⟨ih.1, ih.2.append fun x hx hqueued => ?_⟩
      rw [List.mem_singleton.mp hx] at hqueued
      cases hqueued
    | wakes =>
      obtain ⟨hcuts, hafter⟩ := (ih.1 _ rfl).respond _ .wake
      exact ⟨fun player hplayer => Option.mem_some.mp hplayer ▸ hafter,
        ih.2.append (.of_cuts hcuts)⟩
    | lost => exact ⟨nofun, ih.2.append .nil⟩
  | passes _ _ _ ih => exact ih
  | settles _ _ ih => exact ih

/-- All that players have sent at once on a stage are note-offs. -/
theorem Stage.Lives.cuts {s : Stage} {r : Conduct} {born : Nat → Option PlayerDef} {busy : Bool}
    {l : Ledger} (h : s.Lives r born busy l) :
    ∀ entry ∈ l, entry.2.queued = false → entry.2.event.kind = .noteOff := by
  rintro ⟨id, played⟩ hentry hqueued
  have hplayed : played ∈ l.of id :=
    List.mem_map.mpr ⟨(id, played), List.mem_filter.mpr ⟨hentry, beq_self_eq_true id⟩, rfl⟩
  cases hborn : born id with
  | none =>
    rw [(h.unborn id hborn).2] at hplayed
    cases hplayed
  | some d => exact (h.life id d hborn).cuts.2 played hplayed hqueued

end MidiRig
