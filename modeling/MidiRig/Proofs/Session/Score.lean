import MidiRig.Proofs.Session.Operation
import MidiRig.Proofs.Stage.Score
import MidiRig.Proofs.Stage.Waiting

/-!
# Players do not interfere

The score of a player is all that a run of a session is to it: how time passes, what it is made
from, and what it is called for. Whatever else a run does, to other players above all, a player
that goes by the clock plays what its score says (`Session.plays_run`). So in two runs that have
nothing in common but the score of a player it plays the same and comes to the same state
(`Session.play_eq_of_score_eq`).
-/

namespace MidiRig

namespace Session

variable {s : Session} {born : Nat → Option PlayerDef} {l : Ledger} {id : Nat}

/-- What an operation is to the player of a number. -/
def cues (s : Session) (id : Nat) : Op → List Cue
  | .advance tick => [.advance tick]
  | op => s.stage.cues id (s.moves op)

/-- What operations in turn are to the player of a number. -/
def score (s : Session) (id : Nat) : List Op → List Cue
  | [] => []
  | op :: rest => s.cues id op ++ (s.step op).score id rest

theorem cues_eq (s : Session) (id : Nat) {op : Op} (hop : ∀ tick, op ≠ .advance tick) :
    s.cues id op = s.stage.cues id (s.moves op) := by
  cases op with
  | advance tick => exact absurd rfl (hop tick)
  | _ => rfl

theorem ne_deliver_of_mem_moves {op : Op} (hadvance : ∀ tick, op ≠ .advance tick)
    (hdeliver : ∀ limit, op ≠ .deliver limit) {mv : Move} (hmv : mv ∈ s.moves op) (limit : Nat) :
    mv ≠ .deliver limit := by
  rintro rfl
  by_cases hplain : op.Plain
  · exact plain_of_mem_moves hplain hmv
  · cases op with
    | advance tick => exact hadvance tick rfl
    | deliver limit => exact hdeliver limit rfl
    | use u => cases List.mem_singleton.mp hmv
    | _ => exact hplain trivial

theorem plays_step (h : s.stage.Lives .free born false l) {op : Op}
    (hop : ∀ limit, op ≠ .deliver limit) (hclock : (s.stage.part id).ByClock)
    (hcues : ∀ d, .create d ∈ s.cues id op → d.byClock) :
    Solo.Plays s.stage.directory.config s.stage.engine.ticksPerSecond (s.stage.solo id)
      (s.cues id op) ((s.stage.runLedger (s.moves op)).of id) ((s.step op).stage.solo id) := by
  by_cases hadvance : ∃ tick, op = .advance tick
  · obtain ⟨tick, rfl⟩ := hadvance
    exact (Stage.takes_advance h.sound id tick).plays
  · have hother : ∀ tick, op ≠ .advance tick := fun tick htick => hadvance ⟨tick, htick⟩
    rw [cues_eq s id hother] at hcues ⊢
    rw [stage_step]
    exact Stage.plays_run h (makesAll_moves h op.fits_free)
      (fun mv hmv => ne_deliver_of_mem_moves hother hop hmv) hclock hcues

/-- Of a run a player takes its score and nothing else. -/
theorem plays_run (h : s.stage.Lives .free born false l) {ops : List Op}
    (hops : ∀ op ∈ ops, ∀ limit, op ≠ .deliver limit) (hclock : (s.stage.part id).ByClock)
    (hscore : ∀ d, .create d ∈ s.score id ops → d.byClock) :
    Solo.Plays s.stage.directory.config s.stage.engine.ticksPerSecond (s.stage.solo id)
      (s.score id ops) ((s.ledger ops).of id) ((s.run ops).stage.solo id) := by
  induction ops generalizing s born l with
  | nil => exact .nil _
  | cons op rest ih =>
    obtain ⟨born', -, hnext⟩ := lives_step h op.fits_free
    have hfirst := plays_step h (hops op List.mem_cons_self) hclock fun d hd =>
      hscore d (List.mem_append_left _ hd)
    have hclock' : ((s.step op).stage.part id).ByClock :=
      hfirst.byClock hclock fun d hd => hscore d (List.mem_append_left _ hd)
    have hrest := ih hnext (fun op hop => hops op (List.mem_cons_of_mem _ hop)) hclock' fun d hd =>
      hscore d (List.mem_append_right _ hd)
    obtain ⟨hconfig, hrate⟩ := s.stage.tuning_run (s.moves op)
    rw [stage_step, hconfig, hrate, ← stage_step] at hrest
    rw [score, ledger, Ledger.of_append]
    exact hfirst.append hrest

/-- Two runs that are the same to a player, though each has players and rules of its own, and the
player a number of its own in each. Items leave the queue by advances only. All that the player
plays is the same, at the same ticks, and so are the player in the end and what is queued for it. -/
theorem play_eq_of_score_eq (rate : Float) (sequencer : SequencerConfig)
    (router router' : RouterConfig) {ops ops' : List Op} {id id' : Nat}
    (hops : ∀ op ∈ ops, ∀ limit, op ≠ .deliver limit)
    (hops' : ∀ op ∈ ops', ∀ limit, op ≠ .deliver limit)
    (hscore : (start rate ⟨sequencer, router⟩).score id ops =
      (start rate ⟨sequencer, router'⟩).score id' ops')
    (hclock : ∀ d, .create d ∈ (start rate ⟨sequencer, router⟩).score id ops → d.byClock) :
    ((start rate ⟨sequencer, router⟩).ledger ops).of id =
        ((start rate ⟨sequencer, router'⟩).ledger ops').of id' ∧
      ((start rate ⟨sequencer, router⟩).run ops).stage.part id =
        ((start rate ⟨sequencer, router'⟩).run ops').stage.part id' := by
  have hlives := Stage.lives_make .free rate sequencer
  have hplays := plays_run (s := start rate ⟨sequencer, router⟩) hlives hops
    (Part.byClock_none _) hclock
  have hplays' := plays_run (s := start rate ⟨sequencer, router'⟩) hlives hops'
    (Part.byClock_none _) (hscore ▸ hclock)
  rw [← hscore] at hplays'
  obtain ⟨hplayed, hsolo⟩ := hplays.unique hplays' (Part.byClock_none _) hclock
  exact ⟨hplayed, congrArg Solo.part hsolo⟩

/-- An arpeggio by itself, and the same one beside another that plays too. -/
theorem play_eq_of_score_eq_bells :
    let key := Event.note 1 60 100.0
    let ops : List Op := [.addPlayer "bells" (.arpeggio .default), .call "bells" (.add key),
      .advance 1000]
    let ops' : List Op := [.addPlayer "chimes" (.arpeggio .default),
      .addPlayer "bells" (.arpeggio .default), .call "chimes" (.add (Event.note 1 48 80.0)),
      .call "bells" (.add key), .advance 1000]
    let s := start 1000.0 ⟨.default, .default⟩
    (∀ op ∈ ops, ∀ limit, op ≠ .deliver limit) ∧ (∀ op ∈ ops', ∀ limit, op ≠ .deliver limit) ∧
      s.score 1 ops = [.create (.arpeggio .default), .call (.add key), .advance 1000] ∧
      s.score 2 ops' = [.create (.arpeggio .default), .call (.add key), .advance 1000] ∧
      (s.ledger ops).of 1 = (s.ledger ops').of 2 ∧
      (s.run ops).stage.part 1 = (s.run ops').stage.part 2 := by
  intro key ops ops' s
  have hops : ∀ op ∈ ops, ∀ limit, op ≠ .deliver limit := by simp [ops]
  have hops' : ∀ op ∈ ops', ∀ limit, op ≠ .deliver limit := by simp [ops']
  have hscore : s.score 1 ops = [.create (.arpeggio .default), .call (.add key), .advance 1000] :=
    rfl
  have hscore' : s.score 2 ops' = [.create (.arpeggio .default), .call (.add key), .advance 1000] :=
    rfl
  have hclock : ∀ d, .create d ∈ s.score 1 ops → d.byClock := by
    rw [hscore]
    simp [PlayerDef.byClock]
  exact ⟨hops, hops', hscore, hscore',
    play_eq_of_score_eq 1000.0 .default .default .default hops hops' (hscore.trans hscore'.symm)
      hclock⟩

/-! ### A call, and then time -/

variable {m : Member} {ops : List Op} {ticks : List Nat}

theorem reaches_name (hs : s.stage.directory.Sound) (hm : m ∈ s.stage.directory.members) :
    s.stage.reaches (fun x => x.name == m.name) m.id = true := by
  have hfind : s.stage.directory.members.find? (fun x => x.name == m.name) = some m :=
    Stage.find?_of_mem hs hm
  unfold Stage.reaches
  rw [hfind]
  exact beq_self_eq_true _

theorem score_advances (s : Session) (id : Nat) (ticks : List Nat) :
    s.score id (ticks.map .advance) = ticks.map .advance := by
  induction ticks generalizing s with
  | nil => rfl
  | cons tick rest ih => exact congrArg (Cue.advance tick :: ·) (ih _)

/-- A call by name reaches the member of that name, and then time passes. -/
theorem score_call_advances (hs : s.stage.directory.Sound) (hm : m ∈ s.stage.directory.members)
    (c : Call) (ticks : List Nat) :
    s.score m.id (.call m.name c :: ticks.map .advance) = .call c :: ticks.map .advance := by
  have hcue : s.cues m.id (.call m.name c) = [.call c] := by
    show (if s.stage.reaches (fun x => x.name == m.name) m.id then some (Cue.call c) else
      none).toList ++ [] = _
    rw [reaches_name hs hm]
    rfl
  rw [score, hcue, score_advances]
  rfl

/-- What comes of a call to a player, and of time that passes then until some tick. -/
theorem drains_of_score_call (hs : s.stage.Lives .free born false l)
    (hm : m ∈ s.stage.directory.members) (hclock : m.player.byClock)
    (hops : ∀ op ∈ ops, ∀ limit, op ≠ .deliver limit) {c : Call}
    (hscore : s.score m.id ops = .call c :: ticks.map .advance) {last : Nat}
    (hticks : ∃ tick ∈ ticks, last ≤ tick) :
    ∃ (limit : Nat) (moment : Moment) (played : List Played) (t : Solo), last ≤ limit ∧
      moment.now = s.stage.engine.now ∧
      Solo.Drains limit ⟨s.stage.engine.now, some (m.player.respond moment c).1,
        (s.stage.engine.queue.agenda m.id).perform s.stage.engine.now
          (m.player.respond moment c).2⟩ played t ∧
      (s.ledger ops).of m.id =
        atOnce s.stage.engine.now (m.player.respond moment c).2 ++ played ∧
      (s.run ops).stage.part m.id = t.part := by
  have hpart := Stage.part_of_mem hs.sound hm
  have hplays := plays_run hs hops (hpart ▸ Part.byClock_some hclock _) (by rw [hscore]; simp)
  obtain ⟨last', hlast⟩ : ∃ last, last = (s.run ops).stage.solo m.id := ⟨_, rfl⟩
  rw [hscore, Stage.solo, hpart, ← hlast] at hplays
  have hend : (s.run ops).stage.part m.id = last'.part := congrArg Solo.part hlast.symm
  rw [hend]
  generalize (s.ledger ops).of m.id = played at hplays ⊢
  cases hplays with
  | cons hcall hrest =>
    cases hcall with
    | call _ resolution =>
      obtain ⟨tick, htick, hle⟩ := hticks
      obtain ⟨first, rest, rfl⟩ := List.exists_cons_of_ne_nil (List.ne_nil_of_mem htick)
      obtain ⟨latest, -, hlatest, u, hdrains, hpart⟩ := hrest.of_advances
      exact ⟨latest, ⟨_, resolution⟩, _, u, Nat.le_trans hle (hlatest tick htick), rfl, hdrains,
        rfl, hpart.symm⟩

end Session

end MidiRig
