import MidiRig.Proofs.Player.Reckoned
import MidiRig.Proofs.Session.Notes
import MidiRig.Proofs.Session.Unrolled

/-!
# Steps in a session

In a session where time passes by `advance` only, and players are woken by their callbacks only, a
sequence or an arpeggio that plays queues each of its steps once, one after the other and none of
them late, whatever becomes of its tempo, its swing, its groove and its keys in between
(`Session.steps_in_order`).
-/

namespace MidiRig

namespace Session

/-- Of all that a sequence or an arpeggio is told, from a start on as far as it goes on, it queues
steps in order: that is so for each stretch of its log, and one that plays has such a stretch at the
end of its log. -/
theorem steps_in_order (rate : Float) (config : Config) {ops : List Op}
    (hops : ∀ op ∈ ops, op.Timed) (id : Nat) :
    let log := (start rate config).log id ops
    (∀ before first rest after, log = before ++ first :: (rest ++ after) →
      first.player.stepper?.isSome = true → first.Starts → (∀ x ∈ rest, x.GoesOn) →
      ∃ es, Told.InSteps first rest es) ∧
    ∀ m ∈ ((start rate config).run ops).stage.directory.members, m.id = id →
      m.player.stepper?.isSome = true → m.player.isPlaying = true →
      ∃ before first rest, log = before ++ first :: rest ∧ first.Starts ∧ (∀ x ∈ rest, x.GoesOn) ∧
        ((first :: rest).getLast?.map Told.after = some m.player) ∧
        ∃ es, Told.InSteps first rest es := by
  intro log
  have hfits : ∀ op ∈ ops, op.Fits .timed := fun op hop => (hops op hop).fits
  have hpast := past_run .timed rate config hfits id
  have hstretch : ∀ before first rest after, log = before ++ first :: (rest ++ after) →
      first.player.stepper?.isSome = true → first.Starts → (∀ x ∈ rest, x.GoesOn) →
      ∃ es, Told.InSteps first rest es := by
    intro before first rest after hlog hstepped hstarts hgoesOn
    have hlinked : log.IsChain Told.Links := hpast.linked.1
    rw [hlog] at hlinked
    replace hlinked := hlinked.right_of_append
    have hprompt : ∀ x ∈ log, x.Prompt := hpast.prompt
    refine Told.inSteps_of_goesOn hstepped ?_ (fun x hx => hprompt x ?_) hstarts hgoesOn
    · rw [← List.cons_append] at hlinked
      exact hlinked.left_of_append
    · rw [hlog]
      refine List.mem_append_right _ ?_
      rw [← List.cons_append]
      exact List.mem_append_left _ hx
  refine ⟨hstretch, fun m hm hid hstepped hplaying => ?_⟩
  subst hid
  obtain ⟨born, hlives⟩ := lives_start .timed rate config hfits
  have hpart := Stage.part_of_mem hlives.sound hm
  obtain ⟨before, first, rest, hlog, hstarts, hgoesOn, hstepper⟩ :=
    hpast.started m.player (congrArg Part.player hpart) hplaying
  obtain ⟨es, hsteps⟩ := hstretch before first rest [] (by rw [List.append_nil]; exact hlog)
    (hstepper.trans hstepped) hstarts hgoesOn
  refine ⟨before, first, rest, hlog, hstarts, hgoesOn, ?_, es, hsteps⟩
  have hlast := hpast.linked.2 m.player (congrArg Part.player hpart)
  obtain ⟨x, hx⟩ : ∃ x, (first :: rest).getLast? = some x :=
    ⟨_, List.getLast?_eq_getLast_of_ne_nil (List.cons_ne_nil _ _)⟩
  have hend : x ∈ ((start rate config).log m.id ops).getLast? := by
    rw [show (start rate config).log m.id ops = before ++ first :: rest from hlog,
      List.getLast?_append, hx]
    rfl
  rw [hx, hlast x hend]
  rfl

/-! ### A song, bells and an organ -/

/-- A pattern of two voices and two steps, and then one of a single step. -/
def song : SequenceDef :=
  { SequenceDef.default with
    patterns :=
      [[[.event (Event.note 1 60 100.0), .event (Event.note 1 62 80.0)],
        [.event (Event.note 1 67 90.0), .rest]],
        [[.event (Event.note 1 64 90.0)]]]
    order := [1, 2]
    division := 16 }

def bells : ArpeggioDef := { ArpeggioDef.default with style := .manual }

def organ : ArpeggioDef := { ArpeggioDef.default with style := .chord, division := 8 }

/-- A song that slows down, bells that have another key and another beat from their fourth step on,
and an organ that begins later. -/
def songAndBells : List Op :=
  [.addPlayer "song" (.sequence song), .addPlayer "bells" (.arpeggio bells),
    .addPlayer "organ" (.arpeggio organ), .call "song" (.play 2.0),
    .call "bells" (.add (Event.note 2 72 100.0)), .advance 100,
    .call "organ" (.add (Event.note 3 48 70.0)), .advance 300, .call "song" (.tempo 60.0),
    .call "bells" (.add (Event.note 2 76 64.0)), .call "bells" (.swing 0.6),
    .call "bells" (.groove [1.0, 0.5]), .advance 450, .call "bells" (.tempo 90.0), .advance 700]

/-- Each is woken again and again. The song comes to the second step of its second pass, the bells
strike with the accents and for the lengths that they have when they are woken, and the organ
strikes at once. -/
theorem steps_in_order_bells :
    (∀ op ∈ songAndBells, op.Timed) ∧
      (∃ first rest, (start 1000.0 .default).log 1 songAndBells = first :: rest ∧
        first.player.stepper?.isSome = true ∧ first.Starts ∧ (∀ x ∈ rest, x.GoesOn) ∧
        ∃ es, Told.InSteps first rest es ∧ es.map Emission.line =
          [(10, some 0, 0, ["note:1:60:100", "note:1:67:90"]), (135, some 0, 1, ["note:1:62:80"]),
            (260, some 1, 0, ["note:1:64:90"]),
            (385, some 0, 0, ["note:1:60:100", "note:1:67:90"]),
            (635, some 0, 1, ["note:1:62:80"])]) ∧
      (∃ first rest, (start 1000.0 .default).log 2 songAndBells = first :: rest ∧
        first.player.stepper?.isSome = true ∧ first.Starts ∧ (∀ x ∈ rest, x.GoesOn) ∧
        ∃ es, Told.InSteps first rest es ∧ es.map Emission.line =
          [(10, none, 0, ["note:2:72:100"]), (135, none, 1, ["note:2:72:100"]),
            (260, none, 2, ["note:2:72:100"]), (385, none, 3, ["note:2:76:32"]),
            (485, none, 4, ["note:2:72:100"]), (685, none, 5, ["note:2:76:32"])]) ∧
      ∃ first rest, (start 1000.0 .default).log 3 songAndBells = first :: rest ∧
        first.player.stepper?.isSome = true ∧ first.Starts ∧ (∀ x ∈ rest, x.GoesOn) ∧
        ∃ es, Told.InSteps first rest es ∧ es.map Emission.line =
          [(100, none, 0, ["note:3:48:70"]), (350, none, 1, ["note:3:48:70"]),
            (600, none, 2, ["note:3:48:70"])] := by
  have hops : ∀ op ∈ songAndBells, op.Timed := by simp [songAndBells, Op.Timed]
  have hsteps : ∀ {id : ℕ} {lines : List (ℕ × Option ℕ × ℕ × List String)},
      Told.lists lines ((start 1000.0 .default).log id
        ((start 1000.0 .default).unrolled 40 songAndBells)) = true →
      ∃ first rest, (start 1000.0 .default).log id songAndBells = first :: rest ∧
        first.player.stepper?.isSome = true ∧ first.Starts ∧ (∀ x ∈ rest, x.GoesOn) ∧
        ∃ es, Told.InSteps first rest es ∧ es.map Emission.line = lines := by
    intro id lines hlists
    rw [(matches_unrolled 40 _ songAndBells).log id] at hlists
    obtain ⟨first, rest, hlog, hstepped, hstarts, hgoesOn, hlines⟩ := Told.exists_of_lists hlists
    obtain ⟨es, hes⟩ := (steps_in_order 1000.0 .default hops id).1 [] first rest []
      (by rw [List.append_nil]; exact hlog) hstepped hstarts hgoesOn
    exact ⟨first, rest, hlog, hstepped, hstarts, hgoesOn, es, hes, by rw [hes.eq_steps, hlines]⟩
  -- the three lists in one, so that the run is computed once
  refine (fun hlists : _ ∧ _ ∧ _ =>
    ⟨hops, hsteps hlists.1, hsteps hlists.2.1, hsteps hlists.2.2⟩) ?_
  decide +kernel

end Session

end MidiRig
