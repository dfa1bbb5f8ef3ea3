import Mathlib.Data.List.Chain
import MidiRig.Proofs.Stage.Life
import MidiRig.Proofs.Stage.Score

/-!
# What players are told

`Stage.log` lists, move by move, what one player is told and answers: the calls that reach it, its
callbacks that are delivered, and its dismissal as it leaves. Each entry has the player and its
agenda as they were then, so an entry tells the whole answer. `Past` says how a part can have come
to what it is, with what it has played and its log behind it, and every part of every stage has a
past (`Stage.Recalls.run`). In a log each entry finds the player as the one before has left it
(`Past.linked`).
-/

namespace MidiRig

/-! ## Logs -/

/-- A call, and the player that answers it. -/
structure Told where
  moment : Moment
  player : Player
  agenda : Agenda
  call : Call

namespace Told

def after (x : Told) : Player := (x.player.respond x.moment x.call).1

def actions (x : Told) : List Action := (x.player.respond x.moment x.call).2

/-- The agenda after the answer. -/
def queue (x : Told) : Agenda := x.agenda.perform x.moment.now x.actions

end Told

namespace Stage

/-- What the player of a number is told with a call, if it is there. -/
def told? (s : Stage) (id : Nat) (c : Call) : Option Told :=
  (s.player? id).map fun p => ⟨s.engine.moment, p, s.engine.queue.agenda id, c⟩

/-- What a cue tells the player of a number. -/
def heard? (s : Stage) (id : Nat) : Option Cue → Option Told
  | some (.call c) => s.told? id c
  | some .leave => s.told? id .dismiss
  | _ => none

/-- What the player of a number is told in a move. -/
def logged? (s : Stage) (id : Nat) : Move → Option Told
  | .report position => s.told? id (.fileTick position)
  | .deliver limit =>
    match s.engine.popDue? limit with
    | some (item, popped) =>
      match item.due with
      | .callback player =>
        if player = id then Stage.told? { s with engine := popped } id .wake else none
      | .event _ _ => none
    | none => none
  | mv => s.heard? id (s.cue? id mv)

/-- What the player of a number is told in moves made in turn. -/
def log (s : Stage) (id : Nat) : List Move → List Told
  | [] => []
  | mv :: rest => (s.logged? id mv).toList ++ (s.move mv).log id rest

end Stage

/-! ## Steps of a part with its log -/

/-- What a move other than a delivery does to a part, and what it tells. -/
inductive Part.Hears (m : Moment) (allowed : Call → Prop) :
    Part → Option Told → List Played → Part → Prop where
  | stays (p : Part) : Hears m allowed p none [] p
  | answers {p : Player} {a : Agenda} (c : Call) (h : allowed c) :
      Hears m allowed ⟨some p, a⟩ (some ⟨m, p, a, c⟩) (atOnce m.now (p.respond m c).2)
        ⟨some (p.respond m c).1, a.perform m.now (p.respond m c).2⟩
  | leaves {p : Player} {a : Agenda} :
      Hears m allowed ⟨some p, a⟩ (some ⟨m, p, a, .dismiss⟩)
        (atOnce m.now (p.respond m .dismiss).2) ⟨none, a.perform m.now (p.respond m .dismiss).2⟩

/-- A part with what it has played and what it has been told. -/
inductive Past (r : Conduct) : Bool → Nat → Part → List Played → List Told → Prop where
  | unborn (busy : Bool) (now : Nat) : Past r busy now ⟨none, []⟩ [] []
  | born {busy : Bool} {now : Nat} (d : PlayerDef) (config : SequencerConfig) (rate : Float)
      (h : d.problem? = none) : Past r busy now ⟨some (Player.make d config rate), []⟩ [] []
  | hears {busy : Bool} {m : Moment} {p q : Part} {played more : List Played} {log : List Told}
      {told : Option Told} (h : Past r busy m.now p played log) (hbusy : busy = true → r.skips)
      (hs : Part.Hears m r.Allows p told more q) :
      Past r busy m.now q (played ++ more) (log ++ told.toList)
  | plays {busy : Bool} {now tick : Nat} {p : Option Player} {a : Agenda} {played : List Played}
      {log : List Told} {e : Event} (h : Past r busy now ⟨p, ⟨tick, some e⟩ :: a⟩ played log)
      (hdue : tick ≤ now) : Past r true now ⟨p, a⟩ (played ++ [⟨now, e, true⟩]) log
  | wakes {busy : Bool} {m : Moment} {tick : Nat} {p : Player} {a : Agenda} {played : List Played}
      {log : List Told} (h : Past r busy m.now ⟨some p, ⟨tick, none⟩ :: a⟩ played log)
      (hdue : tick ≤ m.now) :
      Past r true m.now ⟨some (p.respond m .wake).1, a.perform m.now (p.respond m .wake).2⟩
        (played ++ atOnce m.now (p.respond m .wake).2) (log ++ [⟨m, p, a, .wake⟩])
  | lost {busy : Bool} {now tick : Nat} {a : Agenda} {played : List Played} {log : List Told}
      (h : Past r busy now ⟨none, ⟨tick, none⟩ :: a⟩ played log) :
      Past r true now ⟨none, a⟩ played log
  | passes {busy : Bool} {now later : Nat} {p : Part} {played : List Played} {log : List Told}
      (h : Past r busy now p played log) (hle : now ≤ later)
      (hlate : r.skips ∨ ∀ x ∈ p.agenda, later ≤ x.tick) : Past r true later p played log
  | settles {busy : Bool} {now : Nat} {p : Part} {played : List Played} {log : List Told}
      (h : Past r busy now p played log) (hdone : r.skips ∨ ∀ x ∈ p.agenda, now < x.tick) :
      Past r false now p played log

theorem Part.Hears.step {m : Moment} {allowed : Call → Prop} {p q : Part} {told : Option Told}
    {played : List Played} (h : Part.Hears m allowed p told played q) :
    Part.Step m allowed p played q := by
  cases h with
  | stays => exact .stays _
  | answers c hc => exact .answers c hc
  | leaves => exact .leaves

theorem Part.Asked.hears {m : Moment} {c : Call} {allowed : Call → Prop} {reached : Bool}
    {p q : Part} {played : List Played} (h : Part.Asked m c reached p played q) (hc : allowed c) :
    Part.Hears m allowed p (if reached then p.player.map fun x => ⟨m, x, p.agenda, c⟩ else none)
      played q := by
  cases h with
  | passed => exact .stays _
  | answers => exact .answers c hc

theorem Part.Dismissed.hears {m : Moment} {allowed : Call → Prop} {reached : Bool} {p q : Part}
    {played : List Played} (h : Part.Dismissed m reached p played q) :
    Part.Hears m allowed p
      (if reached then p.player.map fun x => ⟨m, x, p.agenda, .dismiss⟩ else none) played q := by
  cases h with
  | passed => exact .stays _
  | leaves => exact .leaves

/-- Who has a past has a life, or has not been born. -/
theorem Past.life {r : Conduct} {busy : Bool} {now : Nat} {p : Part} {played : List Played}
    {log : List Told} (h : Past r busy now p played log) :
    (p = ⟨none, []⟩ ∧ played = [] ∧ log = []) ∨ ∃ d, Life r d busy now p played := by
  induction h with
  | unborn => exact .inl ⟨rfl, rfl, rfl⟩
  | born d config rate hd => exact .inr ⟨d, .born _ _ config rate hd⟩
  | hears _ hbusy hs ih =>
    rcases ih with ⟨rfl, rfl, rfl⟩ | ⟨d, hlife⟩
    · cases hs
      exact .inl ⟨rfl, rfl, rfl⟩
    · exact .inr ⟨d, .steps hlife hbusy hs.step⟩
  | @plays _ now _ _ _ _ _ _ _ hdue ih =>
    rcases ih with ⟨hp, -, -⟩ | ⟨d, hlife⟩
    · cases hp
    · exact .inr ⟨d, .turns (m := ⟨now, 0⟩) hlife (.plays _ hdue)⟩
  | wakes _ hdue ih =>
    rcases ih with ⟨hp, -, -⟩ | ⟨d, hlife⟩
    · cases hp
    · exact .inr ⟨d, .turns hlife (.wakes hdue)⟩
  | @lost _ now _ _ played _ _ ih =>
    rcases ih with ⟨hp, -, -⟩ | ⟨d, hlife⟩
    · cases hp
    · have hturn : Life r d true now _ (played ++ []) := .turns (m := ⟨now, 0⟩) hlife .lost
      rw [List.append_nil] at hturn
      exact .inr ⟨d, hturn⟩
  | passes _ hle hlate ih => exact ih.imp_right fun ⟨d, hlife⟩ => ⟨d, hlife.passes hle hlate⟩
  | settles _ hdone ih => exact ih.imp_right fun ⟨d, hlife⟩ => ⟨d, hlife.settles hdone⟩

/-- A player that is there has a life. -/
theorem Past.life_of_some {r : Conduct} {busy : Bool} {now : Nat} {p : Player} {a : Agenda}
    {played : List Played} {log : List Told} (h : Past r busy now ⟨some p, a⟩ played log) :
    ∃ d, Life r d busy now ⟨some p, a⟩ played := by
  rcases h.life with ⟨hp, -, -⟩ | hlife
  · cases hp
  · exact hlife

/-- What is due first takes its turn, and a callback tells the player to wake. -/
theorem Past.turn {r : Conduct} {busy : Bool} {m : Moment} {p : Option Player} {a : Agenda}
    {x : Slot} {q : Part} {played more : List Played} {log : List Told}
    (h : Past r busy m.now ⟨p, x :: a⟩ played log) (ht : Part.Turn m ⟨p, x :: a⟩ more q) :
    Past r true m.now q (played ++ more)
      (log ++ (if x.event.isNone then p.map fun p => ⟨m, p, a, .wake⟩ else none).toList) := by
  cases ht with
  | plays e hdue => simpa using h.plays hdue
  | wakes hdue => exact h.wakes hdue
  | lost => simpa using h.lost

/-! ## Logs are linked -/

/-- An entry finds the player as the one before has left it. -/
def Told.Links (x y : Told) : Prop := y.player = x.after

theorem Told.isChain_append {log : List Told} {x : Told} (h : log.IsChain Links)
    (hlast : ∀ y ∈ log.getLast?, x.player = y.after) : (log ++ [x]).IsChain Links :=
  h.append (.singleton _) fun y hy z hz => by
    rw [← Option.mem_some.mp hz]
    exact hlast y hy

/-- The player of a part is the one that the last entry has left. -/
theorem Past.linked {r : Conduct} {busy : Bool} {now : Nat} {p : Part} {played : List Played}
    {log : List Told} (h : Past r busy now p played log) :
    log.IsChain Told.Links ∧
      ∀ player, p.player = some player → ∀ x ∈ log.getLast?, player = x.after := by
  induction h with
  | unborn | born => exact ⟨.nil, by simp⟩
  | hears _ _ hs ih =>
    cases hs with
    | stays => simpa using ih
    | answers c =>
      refine ⟨Told.isChain_append ih.1 (ih.2 _ rfl), ?_⟩
      rintro _ ⟨⟩
      simp [Told.after]
    | leaves => exact ⟨Told.isChain_append ih.1 (ih.2 _ rfl), nofun⟩
  | plays _ _ ih => exact ih
  | wakes _ _ ih =>
    refine ⟨Told.isChain_append ih.1 (ih.2 _ rfl), ?_⟩
    rintro _ ⟨⟩
    simp [Told.after]
  | lost _ ih => exact ⟨ih.1, nofun⟩
  | passes _ _ _ ih => exact ih
  | settles _ _ ih => exact ih

/-- What holds of players all their lives holds of all that are told something. -/
theorem Past.forall_player {Q : Player → Prop} {r : Conduct} {busy : Bool} {now : Nat} {p : Part}
    {played : List Played} {log : List Told}
    (hlife : ∀ {d : PlayerDef} {busy : Bool} {now : Nat} {p : Part} {played : List Played},
      Life r d busy now p played → ∀ player, p.player = some player → Q player)
    (h : Past r busy now p played log) : ∀ x ∈ log, Q x.player := by
  induction h with
  | unborn | born => simp
  | hears h _ hs ih =>
    cases hs with
    | stays => simpa using ih
    | answers | leaves =>
      obtain ⟨d, hd⟩ := h.life_of_some
      exact List.forall_mem_append.mpr ⟨ih, List.forall_mem_singleton.mpr (hlife hd _ rfl)⟩
  | wakes h _ ih =>
    obtain ⟨d, hd⟩ := h.life_of_some
    exact List.forall_mem_append.mpr ⟨ih, List.forall_mem_singleton.mpr (hlife hd _ rfl)⟩
  | plays _ _ ih | lost _ ih | passes _ _ _ ih | settles _ _ ih => exact ih

/-! ## Moves -/

namespace Stage

variable {s : Stage} {r : Conduct} {before after : List Member} {member : Member}
  {allowed : Call → Prop} {c : Call} {id : Nat}

theorem heard?_call (s : Stage) (id : Nat) (reached : Bool) (c : Call) :
    s.heard? id (if reached then some (.call c) else none) =
      if reached then s.told? id c else none := by
  cases reached <;> rfl

theorem heard?_leave (s : Stage) (id : Nat) (reached : Bool) :
    s.heard? id (if reached then some .leave else none) =
      if reached then s.told? id .dismiss else none := by
  cases reached <;> rfl

/-- Where there is no player, nothing is told. -/
theorem logged?_of_none (h : s.player? id = none) {mv : Move} (hmv : ∀ limit, mv ≠ .deliver limit) :
    s.logged? id mv = none := by
  have htold : ∀ c, s.told? id c = none := fun c => by rw [told?, h]; rfl
  have hheard : ∀ cue, s.heard? id cue = none := by
    intro cue
    unfold heard?
    split
    · exact htold _
    · exact htold _
    · rfl
  cases mv with
  | report position => exact htold _
  | deliver limit => exact absurd rfl (hmv limit)
  | table rules => rfl
  | _ => exact hheard (s.cue? id _)

theorem hears_ask (hs : s.directory.Sound) (asked : Member → Bool) (hc : allowed c) (id : Nat) :
    Part.Hears s.engine.moment allowed (s.part id)
      (if s.reaches asked id then s.told? id c else none) ((s.askLedger asked c).of id)
      (((s.ask? asked c).getD s).part id) :=
  (asked_ask hs asked c id).hears hc

theorem hears_remove (hs : s.directory.Sound) (name : String) (id : Nat) :
    Part.Hears s.engine.moment allowed (s.part id)
      (if s.reaches (fun m => m.name == name) id then s.told? id .dismiss else none)
      ((s.askLedger (fun m => m.name == name) .dismiss).of id) ((s.remove name).part id) :=
  (dismissed_remove hs name id).hears

theorem hears_callAll (hs : s.directory.Sound) (hc : allowed c) (id : Nat) :
    Part.Hears s.engine.moment allowed (s.part id) (s.told? id c)
      (Ledger.of (s.directory.members.flatMap fun m =>
        Ledger.entries m.id (atOnce s.engine.now (m.player.respond s.engine.moment c).2)) id)
      ((s.callAll c).part id) := by
  have htold : s.told? id c = if (s.player? id).isSome then s.told? id c else none := by
    unfold told?
    cases s.player? id <;> rfl
  rw [htold]
  exact (asked_callAll hs c id).hears hc

/-- A newcomer is told nothing, and who gives way to it that it leaves. -/
theorem hears_add (hs : s.directory.Sound) (name : String) (d : PlayerDef) {id : Nat}
    (hid : id ≠ s.directory.nextId) :
    Part.Hears s.engine.moment allowed (s.part id) (s.logged? id (.add name d))
      ((s.ledger (.add name d)).of id) ((s.move (.add name d)).part id) := by
  rcases s.add_eq name d with ⟨m, hfind, -, h⟩ | ⟨problem, -, h⟩ | ⟨-, -, h⟩
  · have hne : m.id ≠ s.directory.nextId :=
      Nat.ne_of_lt (hs.known m (List.mem_of_find?_eq_some hfind))
    simp only [logged?, cue?, ledger, move, h, if_pos hne, if_neg hne]
    exact .stays _
  · simp only [logged?, cue?, ledger, move, h]
    exact .stays _
  · simp only [logged?, cue?, ledger, move, h, ne_eq, not_true_eq_false, if_false, if_true,
      if_neg hid]
    rw [part_joined_other name d hid, heard?_leave]
    exact hears_remove hs name id

/-- What a move other than a delivery tells, to whom there is before it. -/
theorem hears_move (hs : s.directory.Sound) {mv : Move} (hmv : mv.Calls allowed)
    (hid : (∃ name d, mv = .add name d) → id ≠ s.directory.nextId) :
    Part.Hears s.engine.moment allowed (s.part id) (s.logged? id mv) ((s.ledger mv).of id)
      ((s.move mv).part id) := by
  have hasks : ∀ (asked : Member → Bool) {c : Call}, allowed c →
      Part.Hears s.engine.moment allowed (s.part id)
        (s.heard? id (if s.reaches asked id then some (.call c) else none))
        ((s.askLedger asked c).of id) (((s.ask? asked c).getD s).part id) := by
    intro asked c hc
    rw [heard?_call]
    exact hears_ask hs asked hc id
  cases mv with
  | call name c => exact hasks _ hmv
  | wake player => exact hasks _ hmv
  | report position => exact hears_callAll hs hmv id
  | add name d => exact hears_add hs name d (hid ⟨name, d, rfl⟩)
  | remove name =>
    show Part.Hears _ _ _ (s.heard? id (if _ then some Cue.leave else none)) _ _
    rw [heard?_leave]
    exact hears_remove hs name id
  | use u =>
    have hpart : (s.move (.use u)).part id = s.part id := by
      unfold part
      rw [move, queue_use]
      rfl
    rw [hpart]
    cases u <;> exact .stays _
  | table rules => exact .stays _
  | deliver limit => exact hmv.elim

/-! ## Pasts on a stage -/

variable {busy : Bool} {born : Nat → Option PlayerDef} {l : Ledger} {played : List Played}
  {log : List Told}

/-- What the number has played and been told is what has made it what it is. A number that has not
been given has nothing behind it. -/
structure Recalls (r : Conduct) (busy : Bool) (s : Stage) (id : Nat) (played : List Played)
    (log : List Told) : Prop where
  past : Past r busy s.engine.now (s.part id) played log
  fresh : s.directory.nextId ≤ id → played = [] ∧ log = []

/-- Nothing is queued for a number that has not been given, and it is told nothing. -/
theorem Lives.fresh (h : Lives r born busy s l) (hid : s.directory.nextId ≤ id) :
    s.part id = ⟨none, []⟩ := (h.unborn id (h.known id hid)).1

theorem logged?_deliver_other {limit : Nat} {item : Item} {popped : Engine}
    (hpop : s.engine.popDue? limit = some (item, popped)) (hid : item.player ≠ id) :
    s.logged? id (.deliver limit) = none := by
  obtain ⟨tick, serial, due⟩ := item
  simp only [logged?, hpop]
  cases due with
  | event player e => rfl
  | callback player => exact if_neg hid

/-- The turn of the part whose item comes first. -/
theorem past_turn {limit : Nat} {item : Item} {popped : Engine} (hs : s.directory.Sound)
    (hpop : s.engine.popDue? limit = some (item, popped))
    (hp : Past r busy popped.now (s.part item.player) played log) :
    Past r true popped.now ((s.move (.deliver limit)).part item.player)
      (played ++ (s.ledger (.deliver limit)).of item.player)
      (log ++ (s.logged? item.player (.deliver limit)).toList) := by
  obtain ⟨hfirst, -, hpopped⟩ := Engine.popDue?_eq_some hpop
  obtain ⟨hturn, -⟩ := part_deliver hs hpop
  have hpart : s.part item.player =
      ⟨s.player? item.player, item.slot :: popped.queue.agenda item.player⟩ := by
    have hqueue : popped.queue = s.engine.queue.rest := by rw [hpopped]
    rw [part, Queue.agenda_rest_self hfirst, hqueue]
  rw [hpart] at hp hturn
  have hentry : s.logged? item.player (.deliver limit) =
      if item.slot.event.isNone then (s.player? item.player).map fun p =>
        ⟨popped.moment, p, popped.queue.agenda item.player, .wake⟩ else none := by
    obtain ⟨tick, serial, due⟩ := item
    simp only [logged?, hpop]
    cases due with
    | event player e => rfl
    | callback player => exact if_pos rfl
  rw [hentry]
  exact hp.turn (m := popped.moment) hturn

theorem Recalls.deliver (h : Lives r born busy s l) (hp : s.Recalls r busy id played log)
    (limit : Nat) :
    (s.move (.deliver limit)).Recalls r true id (played ++ (s.ledger (.deliver limit)).of id)
      (log ++ (s.logged? id (.deliver limit)).toList) := by
  cases hpop : s.engine.popDue? limit with
  | none =>
    have hmove : s.move (.deliver limit) = s := by simp only [move, hpop]
    have hledger : s.ledger (.deliver limit) = [] := by simp only [ledger, hpop]
    have hentry : s.logged? id (.deliver limit) = none := by simp only [logged?, hpop]
    have hlate : r.skips ∨ ∀ x ∈ (s.part id).agenda, s.engine.now ≤ x.tick := by
      by_cases hr : r.skips
      · exact .inl hr
      · exact .inr (h.now_le hr id)
    rw [hmove, hledger, hentry]
    refine ⟨?_, fun hid => ?_⟩
    · simpa [Ledger.of] using hp.past.passes (Nat.le_refl _) hlate
    · simpa [Ledger.of] using hp.fresh hid
  | some found =>
    obtain ⟨item, popped⟩ := found
    obtain ⟨hfirst, -, hpopped⟩ := Engine.popDue?_eq_some hpop
    obtain ⟨-, hothers⟩ := part_deliver h.sound hpop
    have hlate : r.skips ∨ ∀ x ∈ (s.part id).agenda, popped.now ≤ x.tick := by
      by_cases hr : r.skips
      · exact .inl hr
      · refine .inr fun x hx => hpopped ▸ Nat.max_le.mpr ⟨h.now_le hr id x hx, ?_⟩
        exact Queue.first_le_agenda hfirst id x hx
    have hpassed := hp.past.passes (hpopped ▸ Nat.le_max_left _ _ : s.engine.now ≤ popped.now) hlate
    refine ⟨?_, fun hid => ?_⟩
    · rw [now_deliver hpop]
      by_cases hid : item.player = id
      · subst hid
        exact past_turn h.sound hpop hpassed
      · rw [(hothers id hid).1, (hothers id hid).2, logged?_deliver_other hpop hid]
        simpa using hpassed
    · rw [nextId_deliver] at hid
      have hne : item.player ≠ id := by
        rintro rfl
        have hagenda := Queue.agenda_rest_self hfirst
        rw [show s.engine.queue.agenda item.player = [] from
          congrArg Part.agenda (h.fresh hid)] at hagenda
        cases hagenda
      rw [(hothers id hne).1, logged?_deliver_other hpop hne]
      simpa using hp.fresh hid

/-- Time and other things that tell nothing. -/
theorem Recalls.use (hp : s.Recalls r busy id played log) {u : EngineUse} {after : Bool}
    (hpast : Past r busy s.engine.now (s.part id) played log →
      Past r after (s.engine.use u).now (s.part id) played log) :
    (s.move (.use u)).Recalls r after id (played ++ (s.ledger (.use u)).of id)
      (log ++ (s.logged? id (.use u)).toList) := by
  have hpart : (s.move (.use u)).part id = s.part id := by
    unfold part
    rw [move, queue_use]
    rfl
  have hentry : s.logged? id (.use u) = none := by cases u <;> rfl
  have hledger : (s.ledger (.use u)).of id = [] := rfl
  rw [hentry, hledger]
  refine ⟨?_, fun hid => ?_⟩
  · rw [hpart, List.append_nil, Option.toList_none, List.append_nil]
    exact hpast hp.past
  · simpa using hp.fresh hid

/-- A move that calls tells those that there are before it, and a newcomer nothing. -/
theorem Recalls.calls (h : Lives r born busy s l) (hp : s.Recalls r busy id played log) {mv : Move}
    (hmv : mv.Calls r.Allows) (hbusy : busy = true → r.skips)
    (hnow : (s.move mv).engine.now = s.engine.now) :
    (s.move mv).Recalls r busy id (played ++ (s.ledger mv).of id)
      (log ++ (s.logged? id mv).toList) := by
  by_cases hid : id < s.directory.nextId
  · have hears := hears_move h.sound hmv fun _ => Nat.ne_of_lt hid
    refine ⟨?_, fun hge => ?_⟩
    · rw [hnow]
      exact .hears (m := s.engine.moment) hp.past hbusy hears
    · rcases part_move h.sound hmv with ⟨hnext, -⟩ | ⟨harrives, -⟩
      · omega
      · have := harrives.moved
        omega
  · have hge : s.directory.nextId ≤ id := Nat.not_lt.mp hid
    obtain ⟨rfl, rfl⟩ := hp.fresh hge
    have hnone := h.fresh hge
    have hdeliver : ∀ limit, mv ≠ .deliver limit := by
      rintro limit rfl
      exact hmv
    rw [logged?_of_none (congrArg Part.player hnone) hdeliver]
    have hstays : ∀ {q : Part} {more : List Played},
        Part.Step s.engine.moment r.Allows (s.part id) more q →
        more = [] ∧ Past r busy s.engine.now q [] [] := by
      intro q more hstep
      obtain ⟨rfl, rfl⟩ := Part.Step.of_none (hnone ▸ hstep)
      exact ⟨rfl, .unborn _ _⟩
    rcases part_move h.sound hmv with ⟨-, hstep⟩ | ⟨harrives, hstep⟩
    · obtain ⟨hmore, hpast⟩ := hstays (hstep id)
      rw [hmore]
      exact ⟨hnow ▸ hpast, fun _ => ⟨rfl, rfl⟩⟩
    · by_cases hnew : id = s.directory.nextId
      · subst hnew
        obtain ⟨d, config, rate, hvalid, hpart⟩ := harrives.part
        rw [harrives.played]
        refine ⟨?_, fun _ => ⟨rfl, rfl⟩⟩
        rw [hpart, show s.engine.queue.agenda s.directory.nextId = [] from
          congrArg Part.agenda hnone]
        exact .born d config rate hvalid
      · obtain ⟨hmore, hpast⟩ := hstays (hstep id hnew)
        rw [hmore]
        exact ⟨hnow ▸ hpast, fun _ => ⟨rfl, rfl⟩⟩

theorem Recalls.move (h : Lives r born busy s l) {mv : Move} (hmv : s.Makes r busy mv)
    (hp : s.Recalls r busy id played log) :
    (s.move mv).Recalls r (mv.leaves busy) id (played ++ (s.ledger mv).of id)
      (log ++ (s.logged? id mv).toList) := by
  cases mv with
  | deliver limit => exact hp.deliver h limit
  | use u =>
    cases u with
    | setTick tick =>
      refine hp.use fun hpast => ?_
      rcases hmv with hr | ⟨hlate, hbusy⟩
      · exact (hpast.passes (Nat.le_max_left _ tick) (.inl hr)).settles (.inl hr)
      · by_cases htick : s.engine.now ≤ tick
        · rw [show (s.engine.use (.setTick tick)).now = tick from Nat.max_eq_right htick]
          exact (hpast.passes htick (.inr fun x hx => Nat.le_of_lt (hlate id x hx))).settles
            (.inr (hlate id))
        · -- the clock does not go back, so nothing happens
          have hrest : busy = false := Bool.eq_false_iff.mpr fun hb => htick (hbusy hb)
          rw [show (s.engine.use (.setTick tick)).now = s.engine.now from
            Nat.max_eq_left (by omega)]
          subst hrest
          exact hpast
    | _ => exact hp.use fun hpast => hpast
  | call name c => exact hp.calls h hmv.1 hmv.2 (now_ask s _ c)
  | wake player => exact hp.calls h hmv.1 hmv.2 (now_ask s _ .wake)
  | report position => exact hp.calls h hmv.1 hmv.2 (now_foldl _ _ _)
  | add name d => exact hp.calls h hmv.1 hmv.2 (now_move h.sound nofun nofun)
  | remove name => exact hp.calls h hmv.1 hmv.2 (now_remove s name)
  | table rules => exact hp.calls h hmv.1 hmv.2 rfl

/-- Whatever moves are made, each number's past goes on. -/
theorem Recalls.run (h : Lives r born busy s l) {moves : List Move}
    (hmoves : s.MakesAll r busy moves) (hp : s.Recalls r busy id played log) :
    (s.run moves).Recalls r false id (played ++ (s.runLedger moves).of id)
      (log ++ s.log id moves) := by
  induction moves generalizing s born busy l played log with
  | nil =>
    rw [show (Stage.runLedger s []).of id = [] from rfl, show s.log id [] = [] from rfl,
      List.append_nil, List.append_nil]
    cases busy with
    | false => exact hp
    | true => exact ⟨hp.past.settles (.inl (hmoves rfl)), hp.fresh⟩
  | cons mv rest ih =>
    obtain ⟨born', -, hnext⟩ := h.move hmoves.1
    rw [runLedger, Ledger.of_append, ← List.append_assoc, Stage.log, ← List.append_assoc]
    exact ih hnext hmoves.2 (hp.move h hmoves.1)

end Stage

end MidiRig
