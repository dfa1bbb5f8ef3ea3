import MidiRig.Proofs.Stage.Drain
import MidiRig.Proofs.Stage.Solo

/-!
# What a stage makes of one player

All players share the engine's queue and its clock, which each delivery moves. `Stage.cues` picks
out of moves on a stage what they are to one player. The player, what is queued for it and what it
plays are what comes of these cues where there is nothing else: of moves of every kind
(`Stage.plays_run`), and of time that passes (`Stage.takes_advance`), although what others have
queued is delivered in between.
-/

namespace MidiRig

namespace Stage

/-! ## Cues -/

/-- What a move is to the member of a number. Positions of the file are nothing to a player that
goes by the clock. -/
def cue? (s : Stage) (id : Nat) : Move → Option Cue
  | .call name c => if s.reaches (fun m => m.name == name) id then some (.call c) else none
  | .wake player => if s.reaches (fun m => m.id == player) id then some (.call .wake) else none
  | .add name d =>
    match s.add name d with
    | .ok (added, _) =>
      if added ≠ s.directory.nextId then none
      else if id = added then some (.create d)
      else if s.reaches (fun m => m.name == name) id then some .leave else none
    | .error _ => none
  | .remove name => if s.reaches (fun m => m.name == name) id then some .leave else none
  | .use (.setTick tick) => some (.setTick tick)
  | .report _ | .use _ | .table _ | .deliver _ => none

/-- What moves made in turn are to the member of a number. -/
def cues (s : Stage) (id : Nat) : List Move → List Cue
  | [] => []
  | mv :: rest => (s.cue? id mv).toList ++ (s.move mv).cues id rest

/-- A player with its agenda, and the clock. -/
def solo (s : Stage) (id : Nat) : Solo := ⟨s.engine.now, s.part id⟩

end Stage

/-! ## Parts that are called -/

namespace Part

variable {m : Moment} {c : Call} {reached : Bool} {p q : Part} {played : List Played}
  {config : SequencerConfig} {rate : Float}

/-- A call is a cue to the player that it reaches, and nothing to the others. -/
theorem Asked.plays (h : Asked m c reached p played q) :
    Solo.Plays config rate ⟨m.now, p⟩ (if reached then some (Cue.call c) else none).toList played
      ⟨m.now, q⟩ := by
  cases h with
  | passed => exact .nil _
  | answers p a => exact (Solo.Takes.call m.now m.resolution p a c).plays

theorem Dismissed.plays (h : Dismissed m reached p played q) :
    Solo.Plays config rate ⟨m.now, p⟩ (if reached then some Cue.leave else none).toList played
      ⟨m.now, q⟩ := by
  cases h with
  | passed => exact .nil _
  | leaves p a => exact (Solo.Takes.leave m.now m.resolution p a).plays

theorem Asked.silent {position : Nat} (h : Asked m (.fileTick position) reached p played q)
    (hclock : p.ByClock) : played = [] ∧ q = p := by
  cases h with
  | passed => exact ⟨rfl, rfl⟩
  | answers p a =>
    rw [Player.respond_fileTick (hclock p rfl) m position]
    exact ⟨rfl, rfl⟩

end Part

/-! ## Single moves -/

namespace Stage

variable {s : Stage} {config : SequencerConfig} {rate : Float}

/-- Where neither the part nor the clock changes nothing has happened. -/
theorem plays_nothing {id : Nat} {t : Stage} {played : List Played}
    (hnow : t.engine.now = s.engine.now) (hpart : t.part id = s.part id) (hplayed : played = []) :
    Solo.Plays config rate (s.solo id) [] played (t.solo id) := by
  have hsolo : t.solo id = s.solo id := by rw [solo, hnow, hpart]; rfl
  rw [hsolo, hplayed]
  exact .nil _

theorem plays_ask (hs : s.directory.Sound) (asked : Member → Bool) (c : Call) (id : Nat) :
    Solo.Plays config rate (s.solo id)
      (if s.reaches asked id then some (Cue.call c) else none).toList
      ((s.askLedger asked c).of id) (((s.ask? asked c).getD s).solo id) := by
  rw [solo, solo, now_ask]
  exact (asked_ask hs asked c id).plays

theorem plays_remove (hs : s.directory.Sound) (name : String) (id : Nat) :
    Solo.Plays config rate (s.solo id)
      (if s.reaches (fun m => m.name == name) id then some Cue.leave else none).toList
      ((s.askLedger (fun m => m.name == name) .dismiss).of id) ((s.remove name).solo id) := by
  rw [solo, solo, now_remove]
  exact (dismissed_remove hs name id).plays

/-- A newcomer is made at the next number, where nothing has been before. -/
theorem plays_add (hs : s.directory.Sound) (hnew : s.part s.directory.nextId = ⟨none, []⟩)
    (name : String) (d : PlayerDef) (id : Nat) :
    Solo.Plays s.directory.config s.engine.ticksPerSecond (s.solo id)
      (s.cue? id (.add name d)).toList ((s.ledger (.add name d)).of id)
      ((s.move (.add name d)).solo id) := by
  rcases s.add_eq name d with ⟨member, hfind, -, h⟩ | ⟨problem, -, h⟩ | ⟨-, -, h⟩
  · have hne : member.id ≠ s.directory.nextId :=
      Nat.ne_of_lt (hs.known member (List.mem_of_find?_eq_some hfind))
    simp only [cue?, ledger, move, h, if_pos hne, if_neg hne]
    exact .nil _
  · simp only [cue?, ledger, move, h]
    exact .nil _
  · simp only [cue?, ledger, move, h, ne_eq, not_true_eq_false, if_false, if_true]
    by_cases hid : id = s.directory.nextId
    · subst hid
      obtain ⟨hpart, hplayed⟩ := part_joined_new hs name d
      have hagenda : s.engine.queue.agenda s.directory.nextId = [] := congrArg Part.agenda hnew
      have hnow : ((s.remove name).joined name d).engine.now = s.engine.now := now_remove s name
      rw [if_pos rfl, solo, solo, hpart, hplayed, hnew, hagenda, hnow]
      exact (Solo.Takes.create s.engine.now d).plays
    · have hsolo : ((s.remove name).joined name d).solo id = (s.remove name).solo id :=
        congrArg (Solo.mk _) (part_joined_other name d hid)
      rw [if_neg hid, hsolo]
      exact plays_remove hs name id

theorem plays_callAll (hs : s.directory.Sound) (position : Nat) {id : Nat}
    (hclock : (s.part id).ByClock) :
    Solo.Plays config rate (s.solo id) [] ((s.ledger (.report position)).of id)
      ((s.callAll (.fileTick position)).solo id) := by
  have hnow : (s.callAll (.fileTick position)).engine.now = s.engine.now := now_foldl _ _ _
  obtain ⟨hplayed, hpart⟩ := (asked_callAll hs (.fileTick position) id).silent hclock
  exact plays_nothing hnow hpart hplayed

/-- What players are made for stays as it is. -/
theorem tuning_move (s : Stage) (mv : Move) :
    (s.move mv).directory.config = s.directory.config ∧
      (s.move mv).engine.ticksPerSecond = s.engine.ticksPerSecond := by
  have hask : ∀ (t : Stage) asked c, ((t.ask? asked c).getD t).directory.config =
      t.directory.config ∧ ((t.ask? asked c).getD t).engine.ticksPerSecond =
      t.engine.ticksPerSecond := fun t asked c => ⟨config_ask t asked c, rate_ask t asked c⟩
  cases mv with
  | call name c => exact hask s _ c
  | wake id => exact hask s _ .wake
  | remove name => exact hask s _ .dismiss
  | report position => exact ⟨rfl, rate_foldl _ _ _⟩
  | add name d =>
    rcases s.add_eq name d with ⟨member, -, -, h⟩ | ⟨problem, -, h⟩ | ⟨-, -, h⟩
    · simp only [move, h, and_self]
    · simp only [move, h, and_self]
    · simp only [move, h]
      exact hask s _ .dismiss
  | use u => cases u <;> exact ⟨rfl, rfl⟩
  | table rules => exact ⟨rfl, rfl⟩
  | deliver limit =>
    simp only [move]
    cases hpop : s.engine.popDue? limit with
    | none => exact ⟨rfl, rfl⟩
    | some found =>
      obtain ⟨⟨tick, serial, due⟩, popped⟩ := found
      obtain ⟨-, -, hpopped⟩ := Engine.popDue?_eq_some hpop
      have hrate : popped.ticksPerSecond = s.engine.ticksPerSecond := by rw [hpopped]; rfl
      cases due with
      | event player e => exact ⟨rfl, hrate⟩
      | callback player =>
        obtain ⟨hconfig, hsame⟩ := hask { s with engine := popped } (fun m => m.id == player) .wake
        exact ⟨hconfig, hsame.trans hrate⟩

theorem tuning_run (s : Stage) (moves : List Move) :
    (s.run moves).directory.config = s.directory.config ∧
      (s.run moves).engine.ticksPerSecond = s.engine.ticksPerSecond := by
  induction moves generalizing s with
  | nil => exact ⟨rfl, rfl⟩
  | cons mv rest ih =>
    obtain ⟨hconfig, hrate⟩ := s.tuning_move mv
    obtain ⟨hconfig', hrate'⟩ := ih (s.move mv)
    exact ⟨hconfig'.trans hconfig, hrate'.trans hrate⟩

/-! ## Moves in turn -/

variable {born : Nat → Option PlayerDef} {busy : Bool} {l : Ledger} {r : Conduct}

theorem plays_move (h : Lives r born busy s l) {mv : Move} (hmv : ∀ limit, mv ≠ .deliver limit)
    {id : Nat} (hclock : (s.part id).ByClock) :
    Solo.Plays s.directory.config s.engine.ticksPerSecond (s.solo id) (s.cue? id mv).toList
      ((s.ledger mv).of id) ((s.move mv).solo id) := by
  cases mv with
  | call name c => exact plays_ask h.sound _ c id
  | wake player => exact plays_ask h.sound _ .wake id
  | report position => exact plays_callAll h.sound position hclock
  | add name d => exact plays_add h.sound (h.unborn _ (h.known _ (Nat.le_refl _))).1 name d id
  | remove name => exact plays_remove h.sound name id
  | use u =>
    have hpart : (s.move (.use u)).part id = s.part id := by
      unfold part
      rw [move, queue_use]
      rfl
    cases u with
    | setTick tick => exact (Solo.Takes.setTick (s.solo id) tick).plays
    | _ => exact plays_nothing rfl hpart rfl
  | table rules => exact plays_nothing rfl rfl rfl
  | deliver limit => exact absurd rfl (hmv limit)

/-- Of moves made in turn too, a player takes its cues and nothing else. -/
theorem plays_run (h : Lives r born busy s l) {moves : List Move} (hmakes : s.MakesAll r busy moves)
    (hmoves : ∀ mv ∈ moves, ∀ limit, mv ≠ .deliver limit) {id : Nat}
    (hclock : (s.part id).ByClock) (hcues : ∀ d, .create d ∈ s.cues id moves → d.byClock) :
    Solo.Plays s.directory.config s.engine.ticksPerSecond (s.solo id) (s.cues id moves)
      ((s.runLedger moves).of id) ((s.run moves).solo id) := by
  induction moves generalizing s born busy l with
  | nil => exact .nil _
  | cons mv rest ih =>
    obtain ⟨born', -, hnext⟩ := h.move hmakes.1
    have hfirst := plays_move h (hmoves mv List.mem_cons_self) hclock
    have hclock' : ((s.move mv).part id).ByClock :=
      hfirst.byClock hclock fun d hd => hcues d (List.mem_append_left _ hd)
    have hrest := ih hnext hmakes.2 (fun mv hmv => hmoves mv (List.mem_cons_of_mem _ hmv)) hclock'
      fun d hd => hcues d (List.mem_append_right _ hd)
    obtain ⟨hconfig, hrate⟩ := s.tuning_move mv
    rw [hconfig, hrate] at hrest
    rw [cues, runLedger, Ledger.of_append]
    exact hfirst.append hrest

/-! ## Time -/

/-- The player's own clock may be behind that of the engine, which has stopped at the items of
others; it catches up at the player's next item, which they cannot delay. -/
theorem drains_part (hs : s.directory.Sound) (id limit : Nat) {now : Nat}
    (hnow : now ≤ s.engine.now) (hlate : ∀ x ∈ (s.part id).agenda, s.engine.now ≤ max now x.tick) :
    ∃ t : Solo, Solo.Drains limit ⟨now, s.part id⟩
      ((s.runLedger (List.replicate (s.drain limit).1.length (.deliver limit))).of id) t ∧
      t.part = (s.drain limit).2.part id := by
  fun_induction drain s limit generalizing now with
  | case1 s h => exact ⟨⟨now, s.part id⟩, .rest (lt_agenda_of_popDue? h id), rfl⟩
  | case2 s item popped hpop items last hrest ih =>
    obtain ⟨hfirst, hdue, hpopped⟩ := Engine.popDue?_eq_some hpop
    obtain ⟨hturn, hothers⟩ := part_deliver hs hpop
    have hclock : (s.move (.deliver limit)).engine.now = max s.engine.now item.tick := by
      rw [now_deliver hpop, hpopped]
      rfl
    have hsound := sound_move hs (.deliver limit)
    rw [hrest, ← move_deliver hpop] at ih
    rw [List.length_cons, List.replicate_succ, runLedger, Ledger.of_append]
    by_cases hid : item.player = id
    · -- its own item: both clocks come to the same tick
      subst hid
      have hagenda : (s.part item.player).agenda = item.slot :: s.engine.queue.rest.agenda _ :=
        Queue.agenda_rest_self hfirst
      have hown := hlate item.slot (hagenda ▸ List.mem_cons_self)
      have hmoment : popped.moment.now = max now item.slot.tick := by
        rw [hpopped]
        show max s.engine.now item.slot.tick = _
        omega
      have hstopped : popped.now ≤ (s.move (.deliver limit)).engine.now :=
        Nat.le_of_eq (now_deliver hpop).symm
      obtain ⟨t, hdrains, hpart⟩ := ih hsound hstopped fun x _ => by rw [now_deliver hpop]; omega
      refine ⟨t, .turn ?_ hdue hmoment hturn hdrains, hpart⟩
      rw [hagenda]
      rfl
    · -- an item of another moves the engine's clock, but not past what comes next for the player
      obtain ⟨hplayed, hsame⟩ := hothers id hid
      rw [hplayed, List.nil_append, ← hsame]
      refine ih hsound (by omega) fun x hx => ?_
      rw [hsame] at hx
      have hbefore := Queue.first_le_agenda hfirst id x hx
      have := hlate x hx
      omega

/-- Of time that passes a player notices what is its own, and the clock. -/
theorem takes_advance (hs : s.directory.Sound) (id tick : Nat) :
    Solo.Takes config rate (s.solo id) (.advance tick)
      ((s.runLedger (List.replicate (s.drain tick).1.length (.deliver tick) ++
        [.use (.setTick tick)])).of id) ((s.advance tick).2.solo id) := by
  obtain ⟨t, hdrains, hpart⟩ :=
    drains_part hs id tick (Nat.le_refl _) fun x _ => Nat.le_max_left _ _
  have hsolo : (s.advance tick).2.solo id = ⟨max s.engine.now tick, t.part⟩ := by
    rw [solo, now_advance, hpart]
    rfl
  rw [runLedger_append, Ledger.of_append, hsolo]
  show Solo.Takes _ _ _ _ (_ ++ []) _
  rw [List.append_nil]
  exact .advance hdrains

end Stage

end MidiRig
