import MidiRig.Proofs.Player.Callbacks
import MidiRig.Proofs.Session.Unrolled

/-!
# One callback for each player

A second callback would make a player step twice as fast, and without one it would never step
again. In a session whose players are woken by their callbacks only, each player that goes by
callbacks (`Player.isTimed`) has exactly one queued while it plays.
-/

namespace MidiRig

/-- How many callbacks of a player are queued. -/
def Queue.callbacks (q : Queue) (player : Nat) : Nat :=
  q.items.countP fun i => i.due == .callback player

theorem Due.beq_callback (due : Due) (player : Nat) :
    (due == .callback player) = (due.event?.isNone && due.player == player) := by
  cases due with
  | callback p => exact (Bool.true_and _).symm
  | event p e => rfl

theorem Queue.callbacks_eq (q : Queue) (player : Nat) :
    q.callbacks player = (q.agenda player).callbacks := by
  unfold callbacks agenda itemsOf Agenda.callbacks
  rw [List.countP_map, List.countP_filter]
  exact List.countP_congr fun i _ => by rw [Due.beq_callback]; rfl

/-- Whether a player goes by callbacks while it plays. A loop does so once its length is known. -/
def Player.isTimed : Player → Bool
  | sequence _ | arpeggio _ => true
  | loop l => l.passTicks?.isSome
  | track _ => false

/-- What the armed state of a player says about its callbacks. -/
theorem Player.Armed.callbacks {p : Player} {a : Agenda} (h : p.Armed a) :
    a.callbacks = if p.isPlaying && p.isTimed then 1 else 0 := by
  have hstepper : ∀ {q : Stepper}, q.Armed a → a.callbacks = if q.playing then 1 else 0 := by
    intro q hq
    cases hplaying : q.playing with
    | true => exact hq.one hplaying
    | false => rw [hq.rest hplaying]; rfl
  cases p with
  | sequence s =>
    rw [isTimed, Bool.and_true]
    exact hstepper h
  | arpeggio p =>
    rw [isTimed, Bool.and_true]
    exact hstepper h.2
  | loop l =>
    cases hplaying : l.playing with
    | true => simpa [isPlaying, isTimed, hplaying] using h.one hplaying
    | false => simp [isPlaying, isTimed, hplaying, h.rest hplaying]
  | track t =>
    rw [show a = [] from h]
    simp [isTimed]

/-- Whether players are woken by their callbacks only. -/
def Op.Served : Op → Prop
  | .call _ .wake | .wake _ => False
  | _ => True

theorem Op.Served.fits {op : Op} (h : op.Served) : op.Fits .served := by
  cases op with
  | call name c => cases c <;> exact h
  | wake player => exact h
  | use u => cases u <;> trivial
  | _ => trivial

namespace Session

theorem armed_of_mem {rate : Float} {config : Config} {ops : List Op}
    (hops : ∀ op ∈ ops, op.Served) {m : Member}
    (hm : m ∈ ((start rate config).run ops).stage.directory.members) :
    m.player.Armed (((start rate config).run ops).stage.engine.queue.agenda m.id) := by
  obtain ⟨born, hlives⟩ := lives_start .served rate config fun op hop => (hops op hop).fits
  obtain ⟨d, -, hlife⟩ := hlives.of_mem hm
  exact hlife.armed id

/-- At most one callback, exactly one for a player that plays and goes by callbacks, and nothing at
all for one that does not play: after any operations, in any order. -/
theorem one_callback (rate : Float) (config : Config) {ops : List Op}
    (hops : ∀ op ∈ ops, op.Served) :
    ∀ m ∈ ((start rate config).run ops).stage.directory.members,
      let queue := ((start rate config).run ops).stage.engine.queue
      (m.player.isPlaying = false → queue.pending m.id = 0) ∧ queue.callbacks m.id ≤ 1 ∧
        (m.player.isPlaying = true → m.player.isTimed = true → queue.callbacks m.id = 1) := by
  intro m hm queue
  have harmed := armed_of_mem hops hm
  have hcount := harmed.callbacks
  rw [← Queue.callbacks_eq] at hcount
  refine ⟨fun hsilent => ?_, ?_, fun hplaying htimed => ?_⟩
  · rw [← Queue.length_agenda, harmed.tidy.nil_of_silent hsilent]
    rfl
  · rw [hcount]
    split <;> omega
  · rw [hcount, hplaying, htimed]
    rfl

/-! ### Bells and a tape -/

/-- Bells with a key that is held, and a tape of half a beat. They play as time passes, by `advance`
and by single deliveries, while another tape stops. -/
def bellsAndTape : List Op :=
  [.addPlayer "bells" (.arpeggio .default), .addPlayer "tape" (.loop ⟨some 0.5, none⟩),
    .addPlayer "spare" (.loop ⟨some 4.0, none⟩), .call "bells" (.add (Event.note 1 60 100.0)),
    .call "tape" (.play (-1.0)), .call "spare" (.play (-1.0)), .advance 600,
    .call "bells" (.tempo 90.0), .call "spare" (.play 0.0), .deliver 900, .deliver 900,
    .advance 1000]

/-- How often the player of a number is woken. -/
def wakes (s : Session) (id : Nat) (ops : List Op) : Nat :=
  (s.log id ops).countP fun x => x.call matches .wake

/-- The bells and the tape have been woken again and again, and have one callback each. The tape
that stopped before its first callback has none. -/
theorem one_callback_two_players :
    let s := (start 1000.0 .default).run bellsAndTape
    let queue := s.stage.engine.queue
    (∀ op ∈ bellsAndTape, op.Served) ∧
      (s.stage.directory.members.map fun m =>
        (m.name, (start 1000.0 .default).wakes m.id bellsAndTape, m.player.isPlaying,
          m.player.isTimed, queue.callbacks m.id)) =
        [("bells", 8, true, true, 1), ("tape", 4, true, true, 1), ("spare", 0, false, true, 0)] ∧
      ∀ m ∈ s.stage.directory.members,
        (m.player.isPlaying = false → queue.pending m.id = 0) ∧ queue.callbacks m.id ≤ 1 ∧
          (m.player.isPlaying = true → m.player.isTimed = true → queue.callbacks m.id = 1) := by
  intro s queue
  have hops : ∀ op ∈ bellsAndTape, op.Served := by simp [bellsAndTape, Op.Served]
  have hmatches := (start 1000.0 .default).matches_unrolled 16 bellsAndTape
  refine ⟨hops, ?_, one_callback 1000.0 .default hops⟩
  simp only [queue, s, wakes, ← hmatches.run, ← hmatches.log]
  decide +kernel

end Session

end MidiRig
