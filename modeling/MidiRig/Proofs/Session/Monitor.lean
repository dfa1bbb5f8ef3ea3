import MidiRig.Proofs.Player.Cuts
import MidiRig.Proofs.Session.Advance
import MidiRig.Proofs.Session.Operation

/-!
# What the monitor hears

A monitor that listens from the start hears what the router sends and what is delivered from the
queue, each event once and in the order in which the engine gets them. It does not hear what a
player sends to the engine itself: the note-offs of the notes that are cut short when it stops
(`Session.monitor_hears`). So the monitor may miss the end of a note that it has heard begin
(`Session.monitor_misses_cut_note`).
-/

namespace MidiRig

/-! ## Who sends what -/

/-- Who sends an event to the engine. -/
inductive Sender where
  | router
  /-- The queue, for a player. -/
  | queue (player : Nat)
  /-- A player itself, at once. -/
  | player (id : Nat)

/-- An event that is sent to the engine. -/
structure Sending where
  event : Event
  sender : Sender

namespace Sending

/-- Whether it passes through the session on its way. -/
def heard (x : Sending) : Bool :=
  match x.sender with
  | .router | .queue _ => true
  | .player _ => false

/-- How a player's event is sent. -/
def ofPlayed (id : Nat) (x : Played) : Sending :=
  ⟨x.event, if x.queued then .queue id else .player id⟩

/-- The events that are heard among those that are sent, in order. -/
def audible (xs : List Sending) : List Event := (xs.filter heard).map event

theorem audible_append (xs ys : List Sending) : audible (xs ++ ys) = audible xs ++ audible ys := by
  simp [audible]

end Sending

namespace Stage

variable {s : Stage}

/-- What is sent to the engine in a move, first event first. -/
def sendings (s : Stage) : Move → List Sending
  | .use (.send e _) => [⟨e, .router⟩]
  | mv => (s.ledger mv).map fun x => .ofPlayed x.1 x.2

/-- What is sent to the engine in moves made in turn. -/
def runSendings (s : Stage) : List Move → List Sending
  | [] => []
  | mv :: rest => s.sendings mv ++ (s.move mv).runSendings rest

theorem runSendings_append (xs ys : List Move) :
    s.runSendings (xs ++ ys) = s.runSendings xs ++ (s.run xs).runSendings ys := by
  induction xs generalizing s with
  | nil => rfl
  | cons mv rest ih =>
    rw [List.cons_append, runSendings, runSendings, ih, List.append_assoc]
    rfl

/-- The router sends itself; all else is what players play. -/
theorem sendings_eq (s : Stage) (mv : Move) :
    (∃ e routed, mv = .use (.send e routed) ∧ s.sendings mv = [⟨e, .router⟩]) ∨
      s.sendings mv = (s.ledger mv).map fun x => .ofPlayed x.1 x.2 := by
  cases mv with
  | use u =>
    cases u with
    | send e routed => exact .inl ⟨e, routed, rfl, rfl⟩
    | _ => exact .inr rfl
  | _ => exact .inr rfl

/-- The engine records what it gets. -/
theorem sent_sendings_move (hs : s.directory.Sound) {mv : Move} (hmv : mv ≠ .use .clearSent) :
    (s.move mv).engine.sent.map Sent.event =
      s.engine.sent.map Sent.event ++ (s.sendings mv).map Sending.event := by
  by_cases hrecords : mv.Records
  · rcases s.sendings_eq mv with ⟨e, routed, rfl, -⟩ | h
    · exact hrecords.elim
    · rw [sent_move hs hrecords, h, List.map_append, List.map_map, List.map_map]
      rfl
  · cases mv with
    | use u =>
      cases u with
      | send e routed => exact List.map_append
      | clearSent => exact absurd rfl hmv
      | _ => exact absurd trivial hrecords
    | _ => exact absurd trivial hrecords

theorem sent_sendings_run (hs : s.directory.Sound) {moves : List Move}
    (hmoves : ∀ mv ∈ moves, mv ≠ .use .clearSent) :
    (s.run moves).engine.sent.map Sent.event =
      s.engine.sent.map Sent.event ++ (s.runSendings moves).map Sending.event := by
  induction moves generalizing s with
  | nil => exact (List.append_nil _).symm
  | cons mv rest ih =>
    have hfirst := sent_sendings_move hs (hmoves mv List.mem_cons_self)
    rw [run, ih (sound_move hs mv) fun x hx => hmoves x (List.mem_cons_of_mem _ hx), hfirst,
      runSendings, List.map_append, List.append_assoc]

/-! ## Moves that are not heard -/

end Stage

/-- Whether a move neither delivers nor sends for the router. -/
def Move.Unheard : Move → Prop
  | .deliver _ | .use (.send _ _) => False
  | _ => True

theorem Move.Arranges.unheard {mv : Move} (h : mv.Arranges) : mv.Unheard := by
  cases mv with
  | table rules | add name d | remove name => trivial
  | _ => exact h.elim

namespace Stage

variable {s : Stage}

theorem audible_entries (id now : Nat) (xs : List Action) :
    Sending.audible ((Ledger.entries id (atOnce now xs)).map fun x => .ofPlayed x.1 x.2) = [] := by
  unfold Sending.audible
  rw [List.map_eq_nil_iff, List.filter_eq_nil_iff]
  intro x hx
  obtain ⟨entry, hentry, rfl⟩ := List.mem_map.mp hx
  obtain ⟨played, hplayed, rfl⟩ := List.mem_map.mp hentry
  obtain ⟨a, -, ha⟩ := List.mem_filterMap.mp hplayed
  cases a with
  | send e =>
    cases ha
    exact Bool.false_ne_true
  | _ => cases ha

theorem audible_askLedger (s : Stage) (asked : Member → Bool) (c : Call) :
    Sending.audible ((s.askLedger asked c).map fun x => .ofPlayed x.1 x.2) = [] := by
  unfold askLedger
  split
  · exact audible_entries _ _ _
  · rfl

/-- What players send themselves is not heard. -/
theorem audible_unheard (hs : s.directory.Sound) {mv : Move} (h : mv.Unheard) :
    Sending.audible (s.sendings mv) = [] := by
  cases mv with
  | call name c => exact s.audible_askLedger _ c
  | wake id => exact s.audible_askLedger _ .wake
  | report position =>
    simp only [sendings, ledger]
    induction s.directory.members with
    | nil => rfl
    | cons m rest ih =>
      rw [List.flatMap_cons, List.map_append, Sending.audible_append, audible_entries, ih]
      rfl
  | add name d =>
    rcases move_add hs name d with ⟨-, hledger⟩ | ⟨-, -, hledger⟩
    · simp only [sendings, hledger]
      rfl
    · simp only [sendings, hledger]
      exact s.audible_askLedger _ .dismiss
  | remove name => exact s.audible_askLedger _ .dismiss
  | use u => cases u <;> first | rfl | exact h.elim
  | table rules => rfl
  | deliver limit => exact h.elim

theorem audible_unheard_run (hs : s.directory.Sound) {moves : List Move}
    (h : ∀ mv ∈ moves, mv.Unheard) : Sending.audible (s.runSendings moves) = [] := by
  induction moves generalizing s with
  | nil => rfl
  | cons mv rest ih =>
    rw [runSendings, Sending.audible_append, audible_unheard hs (h mv List.mem_cons_self),
      ih (sound_move hs mv) fun x hx => h x (List.mem_cons_of_mem _ hx)]
    rfl

/-! ## What rules and time send -/

theorem audible_sends (s : Stage) (events : List Event) :
    Sending.audible (s.runSendings (events.map fun e => .use (.send e false))) = events := by
  induction events generalizing s with
  | nil => rfl
  | cons e rest ih =>
    rw [List.map_cons, runSendings, Sending.audible_append, ih]
    rfl

/-- Of what is delivered the events are heard. -/
theorem audible_deliver {limit : Nat} {item : Item} {popped : Engine}
    (h : s.engine.popDue? limit = some (item, popped)) :
    Sending.audible (s.sendings (.deliver limit)) = Session.played [item] := by
  simp only [sendings, ledger, h]
  obtain ⟨tick, serial, due⟩ := item
  cases due with
  | event player e => rfl
  | callback player => exact audible_askLedger { s with engine := popped } _ .wake

theorem drain_next {limit : Nat} (h : (s.engine.popDue? limit).isSome = true) :
    (s.drain limit).2 = ((s.move (.deliver limit)).drain limit).2 := by
  obtain ⟨⟨item, popped⟩, hpop⟩ := Option.isSome_iff_exists.mp h
  rw [drain_of_some hpop, move_deliver hpop]

theorem audible_advance (hs : s.directory.Sound) (limit : Nat) :
    Sending.audible (s.runSendings (List.replicate (s.drain limit).1.length (.deliver limit) ++
      [.use (.setTick limit)])) = Session.played (s.drain limit).1 := by
  fun_induction drain s limit with
  | case1 s hnone => rfl
  | case2 s item popped hpop items last hrest ih =>
    have hnext := sound_move hs (.deliver limit)
    rw [move_deliver hpop] at hnext
    rw [hrest] at ih
    rw [List.length_cons, List.replicate_succ, List.cons_append, runSendings,
      Sending.audible_append, audible_deliver hpop, move_deliver hpop, ih hnext]
    exact (Session.played_append [item] items).symm

/-- What is not heard has been sent at once by a player, so it is in the ledger. -/
theorem mem_runLedger_of_unheard {moves : List Move} {x : Sending} (hx : x ∈ s.runSendings moves)
    (hunheard : x.heard = false) :
    ∃ entry ∈ s.runLedger moves, entry.2.queued = false ∧ entry.2.event = x.event := by
  induction moves generalizing s with
  | nil => cases hx
  | cons mv rest ih =>
    rcases List.mem_append.mp hx with hx | hx
    · rcases s.sendings_eq mv with ⟨e, routed, -, h⟩ | h
      · rw [h, List.mem_singleton] at hx
        rw [hx] at hunheard
        cases hunheard
      · rw [h] at hx
        obtain ⟨⟨id, played⟩, hentry, rfl⟩ := List.mem_map.mp hx
        refine ⟨_, List.mem_append_left _ hentry, ?_, rfl⟩
        unfold Sending.heard Sending.ofPlayed at hunheard
        cases hqueued : played.queued with
        | false => rfl
        | true => simp [hqueued] at hunheard
    · obtain ⟨entry, hentry, hplayed⟩ := ih hx
      exact ⟨entry, List.mem_append_right _ hentry, hplayed⟩

end Stage

theorem Desk.unheard_effectMoves {config : RouterConfig} {d : Desk} {e : Event} {effect : Effect} :
    ∀ mv ∈ d.effectMoves config e effect, mv.Unheard := by
  intro mv hmv
  cases effect with
  | tap player =>
    change mv ∈ d.tapMoves config player e.value at hmv
    unfold tapMoves at hmv
    split at hmv
    · cases hmv
    · obtain ⟨bpm, -, rfl⟩ := by simpa using hmv
      trivial
  | counter name increment => cases hmv
  | _ =>
    rw [List.mem_singleton.mp hmv]
    trivial

theorem Desk.unheard_effectsMoves {config : RouterConfig} {range : Option Route}
    {effects : List Effect} {d : Desk} {e : Event} :
    ∀ mv ∈ d.effectsMoves config range e effects, mv.Unheard := by
  induction effects generalizing d e with
  | nil => exact fun mv hmv => absurd hmv List.not_mem_nil
  | cons effect rest ih =>
    intro mv hmv
    rcases List.mem_append.mp hmv with hmv | hmv
    · exact unheard_effectMoves mv hmv
    · exact ih mv hmv

theorem Desk.unheard_releaseMoves {rule : Rule} {e : Event} :
    ∀ mv ∈ releaseMoves rule e, mv.Unheard := by
  intro mv hmv
  obtain ⟨effect, -, heffect⟩ := List.mem_filterMap.mp hmv
  cases effect <;> cases heffect <;> trivial

/-- Of what a rule brings about, what it sends itself is heard. -/
theorem Desk.audible_ruleMoves (config : RouterConfig) (d : Desk) (e : Event) (rule : Rule)
    (hs : d.stage.directory.Sound) :
    Sending.audible (d.stage.runSendings (d.ruleMoves config e rule)) =
      (d.applyRule config e rule).2 := by
  unfold ruleMoves
  rw [Stage.runSendings_append, Sending.audible_append, Stage.audible_sends]
  rw [Stage.audible_unheard_run hs, List.nil_append]
  intro mv hmv
  split at hmv
  · exact unheard_releaseMoves mv hmv
  · exact unheard_effectsMoves mv hmv

theorem Desk.audible_rulesMoves (config : RouterConfig) (d : Desk) (e : Event) (rules : List Rule)
    (hs : d.stage.directory.Sound) :
    Sending.audible (d.stage.runSendings (d.rulesMoves config e rules)) =
      (d.applyRules config e rules).2 := by
  induction rules generalizing d with
  | nil => rfl
  | cons rule rest ih =>
    have hnext : (d.applyRule config e rule).1.stage.directory.Sound := by
      rw [stage_applyRule]
      exact Stage.sound_run hs _
    rw [rulesMoves, Stage.runSendings_append, Sending.audible_append, audible_ruleMoves _ _ _ _ hs,
      ← stage_applyRule, ih _ hnext]
    rfl

/-- What the router reports is what is heard. -/
theorem Router.audible_handleMoves (r : Router) {stage : Stage} (hs : stage.directory.Sound)
    (e : Event) :
    Sending.audible (stage.runSendings (r.handleMoves stage e)) = (r.handle stage e).1.heard := by
  unfold handleMoves
  rw [Stage.runSendings, Sending.audible_append]
  have hrules := Desk.audible_rulesMoves r.config
    (Desk.mk r.counters r.taps (stage.move (.use (.send e true)))) e (r.matching e) hs
  exact congrArg (e :: ·) hrules

/-! ## Runs -/

/-- Operations that leave the monitor on and do not use the engine behind the session: its owner
sends nothing itself, takes nothing from its queue, and does not clear its record. -/
def Op.Overheard : Op → Prop
  | .scheduled _ | .deliver _ | .clearMonitor | .use (.send _ _) | .use .clearSent => False
  | _ => True

namespace Session

variable {s : Session}

/-- What is sent to the engine in a run, first event first. -/
def sendings (s : Session) : List Op → List Sending
  | [] => []
  | op :: rest => s.stage.runSendings (s.moves op) ++ (s.step op).sendings rest

/-- Neither the monitor nor what it has heard is changed. -/
def SameEars (s t : Session) : Prop := t.monitoring = s.monitoring ∧ t.seen = s.seen

theorem sameEars_ruled (s : Session) (names : Names) (rules : List Rule) :
    SameEars s (s.ruled names rules) :=
  List.foldlRecOn rules _ ⟨rfl, rfl⟩ fun _ ht _ _ => ht

theorem sameEars_applyPatch (s : Session) (bank : Bank) (patch : Patch) :
    SameEars s (s.orSame (s.applyPatch bank patch)) := by
  obtain ⟨hsame, -⟩ | ⟨rules, hsession, -⟩ := s.applyPatch_cases bank patch
  · rw [hsame]
    exact ⟨rfl, rfl⟩
  · rw [hsession]
    exact sameEars_ruled s bank.names rules

/-- The monitor is on and has heard this since. -/
def Hears (s t : Session) (heard : List Event) : Prop :=
  t.monitoring = true ∧ t.seen = s.seen ++ heard

theorem Hears.nothing (hears : s.monitoring = true) : Hears s s [] :=
  ⟨hears, (List.append_nil _).symm⟩

theorem SameEars.hears {t : Session} (hsame : SameEars s t) (hs : s.stage.directory.Sound)
    (hears : s.monitoring = true) {moves : List Move} (hmoves : ∀ mv ∈ moves, mv.Unheard) :
    Hears s t (Sending.audible (s.stage.runSendings moves)) := by
  rw [Stage.audible_unheard_run hs hmoves]
  exact ⟨hsame.1.trans hears, hsame.2.trans (List.append_nil _).symm⟩

theorem SameEars.hears_report {t : Session} (hsame : SameEars s t) (hears : s.monitoring = true)
    (heard : List Event) : Hears s (t.report heard) heard := by
  refine ⟨hsame.1.trans hears, ?_⟩
  show (if t.monitoring then t.seen ++ heard else t.seen) = _
  rw [hsame.1, hears, hsame.2]
  rfl

theorem Routed.hears {t : Session} {moves : List Move} (hrouted : s.Routed t moves)
    (hs : s.stage.directory.Sound) (hears : s.monitoring = true) :
    Hears s t (Sending.audible (s.stage.runSendings moves)) := by
  cases hrouted with
  | refused => exact .nothing hears
  | install rule scope =>
    exact SameEars.hears ⟨rfl, rfl⟩ hs hears fun mv hmv => (s.arranges_installMoves mv hmv).unheard
  | handle e =>
    rw [Router.audible_handleMoves s.router hs e]
    exact SameEars.hears_report (s := s) ⟨rfl, rfl⟩ hears _
  | applyPatch bank patch =>
    exact (s.sameEars_applyPatch bank patch).hears hs hears fun mv hmv =>
      (s.arranges_patchMoves mv hmv).unheard

/-- What the monitor hears in an operation is what is heard of it on its way to the engine. -/
theorem seen_step (hs : s.stage.directory.Sound) (hears : s.monitoring = true) {op : Op}
    (hop : op.Overheard) :
    Hears s (s.step op) (Sending.audible (s.stage.runSendings (s.moves op))) := by
  have hrouted := s.routed_step op
  cases op with
  | install | addRule | addSpec | handle | handleBytes | applyPatch | selectPatch =>
    exact (hrouted trivial).hears hs hears
  | advance tick =>
    rw [moves, Stage.audible_advance hs]
    exact SameEars.hears_report (s := s) ⟨rfl, rfl⟩ hears _
  | addPlayer name d =>
    refine SameEars.hears ?_ hs hears (by simp [moves, Move.Unheard])
    simp only [step, addPlayer]
    cases s.stage.add name d <;> exact ⟨rfl, rfl⟩
  | call name c =>
    refine SameEars.hears ?_ hs hears (by simp [moves, Move.Unheard])
    simp only [step, call?]
    cases s.stage.call? name c <;> exact ⟨rfl, rfl⟩
  | setMonitor => exact ⟨rfl, (List.append_nil _).symm⟩
  | use u =>
    refine SameEars.hears ⟨rfl, rfl⟩ hs hears fun mv hmv => ?_
    rw [List.mem_singleton.mp hmv]
    cases u <;> trivial
  | scheduled e => exact hop.elim
  | clearMonitor => exact hop.elim
  | deliver limit => exact hop.elim
  | _ => exact SameEars.hears ⟨rfl, rfl⟩ hs hears (by simp [moves, Move.Unheard])

theorem not_clearSent_of_overheard {op : Op} (hop : op.Overheard) : op ≠ .use .clearSent := by
  rintro rfl
  exact hop

/-- The engine records all that is sent, and the monitor hears what passes through the session. -/
theorem overheard_run (hs : s.stage.directory.Sound) (hears : s.monitoring = true) {ops : List Op}
    (hops : ∀ op ∈ ops, op.Overheard) :
    (s.run ops).stage.engine.sent.map Sent.event =
        s.stage.engine.sent.map Sent.event ++ (s.sendings ops).map Sending.event ∧
      (s.run ops).seen = s.seen ++ Sending.audible (s.sendings ops) := by
  induction ops generalizing s with
  | nil => exact ⟨(List.append_nil _).symm, (List.append_nil _).symm⟩
  | cons op rest ih =>
    have hop := hops op List.mem_cons_self
    obtain ⟨hnextEars, hseen⟩ := seen_step hs hears hop
    have hsent := Stage.sent_sendings_run hs fun mv hmv =>
      not_clearSent_of_mem_moves (s := s) (not_clearSent_of_overheard hop) hmv
    rw [← stage_step] at hsent
    have hnext : (s.step op).stage.directory.Sound := by
      rw [stage_step]
      exact Stage.sound_run hs _
    obtain ⟨hrestSent, hrestSeen⟩ :=
      ih hnext hnextEars fun x hx => hops x (List.mem_cons_of_mem _ hx)
    rw [sendings, List.map_append, Sending.audible_append, ← List.append_assoc,
      ← List.append_assoc, ← hsent, ← hseen]
    exact ⟨hrestSent, hrestSeen⟩

/-- What is not heard has been sent at once by a player, so it is in the ledger. -/
theorem mem_ledger_of_unheard {ops : List Op} {x : Sending} (hx : x ∈ s.sendings ops)
    (hunheard : x.heard = false) :
    ∃ entry ∈ s.ledger ops, entry.2.queued = false ∧ entry.2.event = x.event := by
  induction ops generalizing s with
  | nil => cases hx
  | cons op rest ih =>
    rcases List.mem_append.mp hx with hx | hx
    · obtain ⟨entry, hentry, hplayed⟩ := Stage.mem_runLedger_of_unheard hx hunheard
      exact ⟨entry, List.mem_append_left _ hentry, hplayed⟩
    · obtain ⟨entry, hentry, hplayed⟩ := ih hx
      exact ⟨entry, List.mem_append_right _ hentry, hplayed⟩

/-- A key of an arpeggio is held until its note sounds, and then the arpeggio leaves. -/
def cutShort : List Op :=
  [.addPlayer "bells" (.arpeggio .default), .call "bells" (.add (Event.note 1 60 100.0)),
    .advance 10, .removePlayer "bells"]

/-- In every run of a session that has a monitor from the start, the engine gets the events of
`sendings`; the monitor hears those of them that pass through the session, in the same order and
each once; and those that it does not hear are note-offs that players send at once. -/
theorem monitor_hears (rate : Float) (config : Config) {ops : List Op}
    (hops : ∀ op ∈ ops, op.Overheard) :
    let s := (start rate config).setMonitor
    (s.run ops).stage.engine.sent.map Sent.event = (s.sendings ops).map Sending.event ∧
      (s.run ops).seen = Sending.audible (s.sendings ops) ∧
      ∀ x ∈ s.sendings ops, x.heard = false → x.event.kind = .noteOff := by
  intro s
  have hlives := Stage.lives_make .free rate config.sequencer
  obtain ⟨hsent, hseen⟩ := overheard_run (s := s) hlives.sound rfl hops
  refine ⟨hsent, hseen, fun x hx hunheard => ?_⟩
  obtain ⟨born, -, hlast⟩ := lives_run (s := s) hlives fun op (_ : op ∈ ops) => op.fits_free
  obtain ⟨⟨id, played⟩, hentry, hqueued, hevent⟩ := mem_ledger_of_unheard hx hunheard
  rw [← hevent]
  exact hlast.cuts _ hentry hqueued

/-- The run in which a note is cut short. -/
theorem monitor_hears_held_key :
    let s := (start 1000.0 .default).setMonitor
    (∀ op ∈ cutShort, op.Overheard) ∧
      (s.run cutShort).stage.engine.sent.map Sent.event =
        (s.sendings cutShort).map Sending.event ∧
      (s.run cutShort).seen = Sending.audible (s.sendings cutShort) ∧
      ∀ x ∈ s.sendings cutShort, x.heard = false → x.event.kind = .noteOff := by
  intro s
  have hops : ∀ op ∈ cutShort, op.Overheard := by simp [cutShort, Op.Overheard]
  exact ⟨hops, monitor_hears 1000.0 .default hops⟩

/-- Until tick 10 the arpeggio is woken once, and its note is played. -/
theorem stage_sounding :
    let held := (start 1000.0 .default).setMonitor.run (cutShort.take 2)
    (held.advance 10).stage =
      ((held.stage.move (.deliver 10)).move (.deliver 10)).move (.use (.setTick 10)) := by
  intro held
  show { (held.stage.drain 10).2 with engine := (held.stage.drain 10).2.engine.setTick 10 } = _
  rw [Stage.drain_next (by decide +kernel), Stage.drain_next (by decide +kernel),
    Stage.drain_of_none (by decide +kernel)]
  rfl

/-- The monitor hears the note, and the engine gets a note-off for it that the monitor does not
hear. -/
theorem monitor_misses_cut_note :
    let s := (start 1000.0 .default).setMonitor.run cutShort
    (∀ op ∈ cutShort, op.Overheard) ∧ s.seen ≠ s.stage.engine.sent.map Sent.event := by
  intro s
  have hops : ∀ op ∈ cutShort, op.Overheard := by simp [cutShort, Op.Overheard]
  refine ⟨hops, fun hall => ?_⟩
  have hsound : (start 1000.0 .default).setMonitor.stage.directory.Sound :=
    Directory.sound_make _
  obtain ⟨hsent, hseen⟩ := overheard_run hsound rfl hops
  -- to hear all that is sent would be to hear what is sent last
  have hheard : ∀ x ∈ (start 1000.0 .default).setMonitor.sendings cutShort, x.heard = true := by
    have hsame : Sending.audible _ = List.map Sending.event _ :=
      hseen.symm.trans (hall.trans hsent)
    have hlength := congrArg List.length hsame
    rw [Sending.audible, List.length_map, List.length_map] at hlength
    exact List.length_filter_eq_length_iff.mp hlength
  have hlast : ((((start 1000.0 .default).setMonitor.run (cutShort.take 2)).advance
      10).stage.sendings (.remove "bells")).any (fun x => !x.heard) = true := by
    rw [stage_sounding]
    decide +kernel
  obtain ⟨x, hx, hunheard⟩ := List.any_eq_true.mp hlast
  have hmem : x ∈ (start 1000.0 .default).setMonitor.sendings cutShort :=
    List.mem_append_right _ (List.mem_append_right _ (List.mem_append_right _
      (List.mem_append_left _ (List.mem_append_left _ hx))))
  rw [hheard x hmem] at hunheard
  cases hunheard

end Session

end MidiRig
