import MidiRig.Proofs.Player.Pairs
import MidiRig.Proofs.Session.Log

/-!
# Keys that stay down when a loop stops

A loop whose timeline pairs each press with a release lets go what it has pressed, but for the
note-offs that it drops (`Session.stopped_loop_lets_go`). It drops what is queued, and what is left
of the pass, where it stops, starts again or finds its place again.
-/

namespace MidiRig

namespace Session

/-- In a session where anything may happen, a loop that does not play, or is gone, has pressed a key
no more often than it has released it and has dropped a release of it: never more often, if what it
has dropped has had a press for each release. -/
theorem stopped_loop_lets_go (rate : Float) (config : Config) (ops : List Op) (id : Nat) (k : Key)
    (hpairs : ∀ x ∈ (start rate config).log id ops, x.Pairs k)
    (hstopped : ∀ m ∈ ((start rate config).run ops).stage.directory.members, m.id = id →
      m.player.isPlaying = false) :
    let played := ((start rate config).ledger ops).of id
    k.downs played ≤ k.offs played + (((start rate config).log id ops).map (Told.cut k)).sum ∧
    ((∀ x ∈ (start rate config).log id ops, x.drops = true → 0 ≤ k.net x.unplayed) →
      k.downs played ≤ k.offs played) := by
  intro played
  have hops : ∀ op ∈ ops, op.Fits .free := fun op _ => op.fits_free
  have hpast := past_run .free rate config hops id
  obtain ⟨born, hlives⟩ := lives_start .free rate config hops
  have hnone : (((start rate config).run ops).stage.part id).unplayed = [] := by
    by_cases hthere : ∃ m ∈ ((start rate config).run ops).stage.directory.members, m.id = id
    · obtain ⟨m, hm, rfl⟩ := hthere
      obtain ⟨d, -, hlife⟩ := hlives.of_mem hm
      have hsilent := hstopped m hm rfl
      have hagenda := Player.Tidy.nil_of_silent hlife.tidy hsilent
      rw [Stage.part_of_mem hlives.sound hm, hagenda]
      cases hplayer : m.player with
      | loop l =>
        rw [hplayer] at hsilent
        exact Loop.rest_of_silent hsilent
      | _ => rfl
    · have hgone : ((start rate config).run ops).stage.player? id = none :=
        Stage.player?_eq_none_iff.mpr fun m hm hid => hthere ⟨m, hm, hid⟩
      rcases hpast.life with ⟨hp, -, -⟩ | ⟨d, hlife⟩
      · rw [hp]
        rfl
      · have htidy := hlife.tidy
        unfold Stage.part at htidy ⊢
        rw [hgone] at htidy ⊢
        rw [show Queue.agenda _ id = [] from htidy]
        rfl
  have hnet := hpast.net_le k hpairs
  rw [hnone, Key.net_nil, Key.net_played] at hnet
  have hbound : k.downs played ≤ k.offs played +
      (((start rate config).log id ops).map (Told.cut k)).sum := by
    show k.downs (((start rate config).ledger ops).of id) ≤
      k.offs (((start rate config).ledger ops).of id) + _
    omega
  refine ⟨hbound, fun hopen => ?_⟩
  have hzero : (((start rate config).log id ops).map (Told.cut k)).sum = 0 := by
    refine List.sum_eq_zero fun n hn => ?_
    obtain ⟨x, hx, rfl⟩ := List.mem_map.mp hn
    unfold Told.cut
    split
    · next hdrops =>
      have := hopen x hx hdrops
      omega
    · rfl
  omega

/-! ### Before the note-off and after it -/

/-- A loop records a key that is held for 500 ticks, and is stopped. -/
def recordsKey : List Op :=
  [.addPlayer "tape" (.loop ⟨some 4.0, none⟩), .call "tape" (.record 1.0),
    .call "tape" (.add (.note 1 60 100.0)), .use (.setTick 500),
    .call "tape" (.add (.noteOff 1 60)), .call "tape" (.play 0.0)]

/-- What it has recorded is played, as far as some deliveries go, and stopped. -/
def playsKey (deliveries : Nat) : List Op :=
  .use (.setTick 1000) :: .call "tape" (.play 1.0) ::
    (List.replicate deliveries (.deliver 2000) ++ [.call "tape" (.play 0.0)])

/-- In between the layer goes into the timeline. -/
def heldKey (deliveries : Nat) : List Op :=
  recordsKey ++ .call "tape" (.record 0.0) :: playsKey deliveries

/-- Whether the only player is a loop that rests, with its layers in order. -/
def rests (s : Session) : Bool :=
  match s.stage.directory.members with
  | [⟨_, name, _, .loop l⟩] =>
    name == "tape" && !l.playing && !l.recording && !l.layers.isEmpty &&
      decide (l.layers.flatten.Pairwise fun x y => Layer.beforeOrAt x y = true)
  | _ => false

/-- Puts the layers of that loop into its timeline as they are. -/
def rested (s : Session) : Session :=
  match s.stage.directory.members with
  | [⟨id, name, d, .loop l⟩] =>
    let player := .loop { l with timeline := l.layers.flatten }
    let directory := { s.stage.directory with members := [⟨id, name, d, player⟩] }
    { s with stage := { s.stage with directory } }
  | _ => s

/-- Layers in order are merged as they are. -/
theorem step_record_of_rests {s : Session} (h : s.rests = true) :
    s.step (.call "tape" (.record 0.0)) = s.rested := by
  unfold rests at h
  split at h
  · next id name d l hmembers =>
    simp only [Bool.and_eq_true, Bool.not_eq_true', beq_iff_eq, decide_eq_true_eq] at h
    obtain ⟨⟨⟨⟨rfl, hsilent⟩, hoff⟩, hlayers⟩, hordered⟩ := h
    have hrespond : (Player.loop l).respond s.stage.engine.moment (.record 0.0) =
        (.loop { l with timeline := l.layers.flatten }, []) := by
      have hrecord : l.record 0.0 s.stage.engine.moment =
          l.stopRecording none s.stage.engine.moment := by
        unfold Loop.record
        rw [if_neg (by decide +kernel), if_pos (by decide +kernel)]
      have hmerge : Layer.merge l.layers = l.layers.flatten := List.mergeSort_of_pairwise hordered
      simp only [Player.respond, Loop.respond, hrecord, Loop.stopRecording, Loop.endLayer,
        Loop.keepLayers, hoff, hsilent, hlayers, hmerge, Bool.false_and, Bool.false_eq_true,
        if_false]
      simp
    have hask : Member.ask? (fun member => member.name == "tape") s.stage.engine.moment
        (.record 0.0) s.stage.directory.members =
        some ⟨id, [], [⟨id, "tape", d, .loop { l with timeline := l.layers.flatten }⟩]⟩ := by
      rw [hmembers, Member.ask?, if_pos (beq_self_eq_true _), hrespond]
    show (s.call? "tape" (.record 0.0)).getD s = _
    rw [call?, Stage.call?, Stage.ask?, hask, rested]
    simp only [hmembers]
    rfl
  · cases h

/-- A run with a step in its midst. -/
theorem run_of_step {s t : Session} {op : Op} {first : List Op} (h : (s.run first).step op = t)
    (rest : List Op) (id : Nat) :
    s.run (first ++ op :: rest) = t.run rest ∧
      s.ledger (first ++ op :: rest) = s.ledger first ++
        ((s.run first).stage.runLedger ((s.run first).moves op) ++ t.ledger rest) ∧
      s.log id (first ++ op :: rest) = s.log id first ++
        ((s.run first).stage.log id ((s.run first).moves op) ++ t.log id rest) := by
  subst h
  exact ⟨run_append s first _, ledger_append s first _, log_append s id first _⟩

/-- With the timeline as it is, the rest of the run can be computed. -/
theorem step_recordsKey :
    ((start 1000.0 .default).run recordsKey).step (.call "tape" (.record 0.0)) =
      ((start 1000.0 .default).run recordsKey).rested :=
  step_record_of_rests (by decide +kernel)

/-- After the note-off the key is up. -/
theorem stopped_loop_lets_go_late :
    let k : Key := ⟨some 1, some 60⟩
    let played := ((start 1000.0 .default).ledger (heldKey 4)).of 1
    (∀ x ∈ (start 1000.0 .default).log 1 (heldKey 4), x.Pairs k) ∧
      (∀ m ∈ ((start 1000.0 .default).run (heldKey 4)).stage.directory.members, m.id = 1 →
        m.player.isPlaying = false) ∧
      k.downs played = 1 ∧ k.downs played ≤ k.offs played := by
  intro k played
  obtain ⟨hrun, hledger, hlog⟩ := run_of_step step_recordsKey (playsKey 4) 1
  have hpairs : ∀ x ∈ (start 1000.0 .default).log 1 (heldKey 4), x.Pairs k := by
    rw [heldKey, hlog]
    decide +kernel
  have hstopped : ∀ m ∈ ((start 1000.0 .default).run (heldKey 4)).stage.directory.members,
      m.id = 1 → m.player.isPlaying = false := by
    rw [heldKey, hrun]
    decide +kernel
  have hopen : ∀ x ∈ (start 1000.0 .default).log 1 (heldKey 4),
      x.drops = true → 0 ≤ k.net x.unplayed := by
    rw [heldKey, hlog]
    decide +kernel
  have hdowns : k.downs (((start 1000.0 .default).ledger (heldKey 4)).of 1) = 1 := by
    rw [heldKey, hledger]
    decide +kernel
  exact ⟨hpairs, hstopped, hdowns,
    (stopped_loop_lets_go 1000.0 .default (heldKey 4) 1 k hpairs hstopped).2 hopen⟩

/-- Stopped before the note-off, the loop drops that, and the key stays down. -/
theorem key_stays_down :
    let k : Key := ⟨some 1, some 60⟩
    let played := ((start 1000.0 .default).ledger (heldKey 2)).of 1
    (∀ x ∈ (start 1000.0 .default).log 1 (heldKey 2), x.Pairs k) ∧
      (∃ m ∈ ((start 1000.0 .default).run (heldKey 2)).stage.directory.members, m.id = 1 ∧
        m.player.isPlaying = false) ∧
      k.downs played = 1 ∧ k.offs played = 0 := by
  intro k played
  obtain ⟨hrun, hledger, hlog⟩ := run_of_step step_recordsKey (playsKey 2) 1
  have hcounts : k.downs (((start 1000.0 .default).ledger (heldKey 2)).of 1) = 1 ∧
      k.offs (((start 1000.0 .default).ledger (heldKey 2)).of 1) = 0 := by
    rw [heldKey, hledger]
    decide +kernel
  refine ⟨?_, ?_, hcounts⟩
  · rw [heldKey, hlog]
    decide +kernel
  · rw [heldKey, hrun]
    decide +kernel

end Session

end MidiRig
