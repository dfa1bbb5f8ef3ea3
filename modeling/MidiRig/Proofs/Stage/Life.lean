import MidiRig.Proofs.Stage.Part

/-!
# The lives of players

`Life r d busy now p played` says how a player that was made from `d` can have come to the part
`p`, with `played` behind it: it was made, has answered calls, has had its turns, and time has
passed. It is `busy` in the midst of deliveries, when more may be due that has been queued before.
`Conduct` says what the world around it may do. In whatever order the moves on a stage are made,
every number that has been given has a life (`Stage.Lives.run`), so what holds along every life
holds of every player on every stage, and of all that a player has played before it left.
-/

namespace MidiRig

/-- What may happen besides calls and deliveries. -/
structure Conduct where
  /-- Players are woken without a callback. -/
  wakes : Prop
  /-- The clock is set past what is queued, and calls come in the midst of deliveries. -/
  skips : Prop

namespace Conduct

/-- Anything may happen. -/
def free : Conduct := ⟨True, True⟩

/-- Players are woken by their callbacks only. -/
def served : Conduct := ⟨False, True⟩

/-- As `served`; the clock stops at every item, and calls wait until all that is due has been
delivered. -/
def timed : Conduct := ⟨False, False⟩

def Allows (r : Conduct) : Call → Prop
  | .wake => r.wakes
  | _ => True

end Conduct

inductive Life (r : Conduct) (d : PlayerDef) : Bool → Nat → Part → List Played → Prop where
  | born (busy : Bool) (now : Nat) (config : SequencerConfig) (rate : Float)
      (h : d.problem? = none) : Life r d busy now ⟨some (Player.make d config rate), []⟩ []
  | steps {busy : Bool} {m : Moment} {p q : Part} {played more : List Played}
      (h : Life r d busy m.now p played) (hbusy : busy = true → r.skips)
      (hs : Part.Step m r.Allows p more q) : Life r d busy m.now q (played ++ more)
  | turns {busy : Bool} {m : Moment} {p q : Part} {played more : List Played}
      (h : Life r d busy m.now p played) (ht : Part.Turn m p more q) :
      Life r d true m.now q (played ++ more)
  | passes {busy : Bool} {now later : Nat} {p : Part} {played : List Played}
      (h : Life r d busy now p played) (hle : now ≤ later)
      (hlate : r.skips ∨ ∀ x ∈ p.agenda, later ≤ x.tick) : Life r d true later p played
  | settles {busy : Bool} {now : Nat} {p : Part} {played : List Played}
      (h : Life r d busy now p played) (hdone : r.skips ∨ ∀ x ∈ p.agenda, now < x.tick) :
      Life r d false now p played

/-- What holds of a new player, and is kept by time and by whatever it does, holds all its life. -/
theorem Life.keep {P : Nat → Player → Prop} {r : Conduct} {d : PlayerDef}
    (hmake : ∀ now config rate, d.problem? = none → P now (Player.make d config rate))
    (hmono : ∀ now later p, now ≤ later → P now p → P later p)
    (hrespond : ∀ p m c, P m.now p → P m.now (p.respond m c).1) {busy : Bool} {now : Nat}
    {p : Part} {played : List Played} (h : Life r d busy now p played) :
    ∀ player, p.player = some player → P now player := by
  induction h with
  | born busy now config rate hvalid =>
    rintro _ ⟨⟩
    exact hmake now config rate hvalid
  | steps _ _ hs ih =>
    cases hs with
    | stays => exact ih
    | answers c =>
      rintro _ ⟨⟩
      exact hrespond _ _ c (ih _ rfl)
    | leaves => nofun
  | turns _ ht ih =>
    cases ht with
    | plays => exact ih
    | wakes =>
      rintro _ ⟨⟩
      exact hrespond _ _ .wake (ih _ rfl)
    | lost => exact ih
  | passes _ hle _ ih => exact fun player hplayer => hmono _ _ _ hle (ih player hplayer)
  | settles _ _ ih => exact ih

namespace Agenda

theorem le_act {now : Nat} {a : Agenda} (h : ∀ x ∈ a, now ≤ x.tick) (y : Action) :
    ∀ x ∈ act now a y, now ≤ x.tick := by
  intro x hx
  cases y with
  | event e tick =>
    rcases mem_put.mp hx with rfl | hx
    · exact Nat.le_max_right _ _
    · exact h x hx
  | callback tick =>
    rcases mem_put.mp hx with rfl | hx
    · exact Nat.le_max_right _ _
    · exact h x hx
  | cancel => cases hx
  | _ => exact h x hx

/-- Nothing is queued for the past. -/
theorem le_perform {now : Nat} {a : Agenda} (h : ∀ x ∈ a, now ≤ x.tick) (ys : List Action) :
    ∀ x ∈ perform now a ys, now ≤ x.tick := by
  induction ys generalizing a with
  | nil => exact h
  | cons y ys ih => exact ih (le_act h y)

end Agenda

/-- Unless the clock is set past what is queued, nothing that is queued lies in the past. -/
theorem Life.now_le {r : Conduct} (hr : ¬ r.skips) {d : PlayerDef} {busy : Bool} {now : Nat}
    {p : Part} {played : List Played} (h : Life r d busy now p played) :
    ∀ x ∈ p.agenda, now ≤ x.tick := by
  induction h with
  | born => intro x hx; cases hx
  | steps _ _ hs ih =>
    cases hs with
    | stays => exact ih
    | answers => exact Agenda.le_perform ih _
    | leaves => exact Agenda.le_perform ih _
  | turns _ ht ih =>
    cases ht with
    | plays => exact fun x hx => ih x (List.mem_cons_of_mem _ hx)
    | wakes => exact Agenda.le_perform (fun x hx => ih x (List.mem_cons_of_mem _ hx)) _
    | lost => exact fun x hx => ih x (List.mem_cons_of_mem _ hx)
  | passes _ _ hlate _ => exact hlate.resolve_left hr
  | settles _ _ ih => exact ih

/-! ## Clocks -/

namespace Stage

variable {s : Stage} {r : Conduct}

theorem now_ask (s : Stage) (asked : Member → Bool) (c : Call) :
    ((s.ask? asked c).getD s).engine.now = s.engine.now := by
  cases h : s.ask? asked c with
  | none => rfl
  | some t =>
    obtain ⟨_, _, _, -, -, -, rfl⟩ := ask?_eq_some h
    exact Engine.now_perform _ _ _

theorem now_remove (s : Stage) (name : String) : (s.remove name).engine.now = s.engine.now :=
  now_ask s _ .dismiss

/-- Only deliveries and the engine's own uses move the clock. -/
theorem now_move (hs : s.directory.Sound) {mv : Move} (hdeliver : ∀ limit, mv ≠ .deliver limit)
    (huse : ∀ u, mv ≠ .use u) : (s.move mv).engine.now = s.engine.now := by
  cases mv with
  | call name c => exact now_ask s _ c
  | wake id => exact now_ask s _ .wake
  | report position => exact now_foldl _ _ _
  | add name d =>
    rcases move_add hs name d with ⟨h, -⟩ | ⟨-, h, -⟩
    · rw [h]
    · rw [h]
      exact now_remove s name
  | remove name => exact now_remove s name
  | use u => exact absurd rfl (huse u)
  | table rules => rfl
  | deliver limit => exact absurd rfl (hdeliver limit)

/-! ## Lives on a stage -/

/-- Every number that has been given has a life, which began with the definition that `born` tells;
other numbers have nothing. -/
structure Lives (r : Conduct) (born : Nat → Option PlayerDef) (busy : Bool) (s : Stage)
    (l : Ledger) : Prop where
  sound : s.directory.Sound
  known : ∀ id, s.directory.nextId ≤ id → born id = none
  life : ∀ id d, born id = some d → Life r d busy s.engine.now (s.part id) (l.of id)
  unborn : ∀ id, born id = none → s.part id = ⟨none, []⟩ ∧ l.of id = []

/-- Whether a move is one that may happen. -/
def Makes (r : Conduct) (busy : Bool) (s : Stage) : Move → Prop
  | .deliver _ => True
  | .use (.setTick tick) => r.skips ∨
    ((∀ id, ∀ x ∈ s.engine.queue.agenda id, tick < x.tick) ∧ (busy = true → s.engine.now ≤ tick))
  | .use _ => True
  | mv => mv.Calls r.Allows ∧ (busy = true → r.skips)

variable {born : Nat → Option PlayerDef} {busy : Bool} {l : Ledger}

theorem lives_make (r : Conduct) (rate : Float) (config : SequencerConfig) :
    Lives r (fun _ => none) false (Stage.make rate config) [] :=
  ⟨Directory.sound_make config, fun _ _ => rfl, fun _ _ h => absurd h (by simp),
    fun _ _ => ⟨rfl, rfl⟩⟩

theorem Lives.now_le (h : Lives r born busy s l) (hr : ¬ r.skips) (id : Nat) :
    ∀ x ∈ s.engine.queue.agenda id, s.engine.now ≤ x.tick := by
  cases hborn : born id with
  | none =>
    have hnil : s.engine.queue.agenda id = [] := congrArg Part.agenda (h.unborn id hborn).1
    rw [hnil]
    intro x hx
    cases hx
  | some d => exact (h.life id d hborn).now_le hr

/-- Each player on the stage has a life that has come to what it is. -/
theorem Lives.of_mem (h : Lives r born busy s l) {m : Member} (hm : m ∈ s.directory.members) :
    ∃ d, born m.id = some d ∧
      Life r d busy s.engine.now ⟨some m.player, s.engine.queue.agenda m.id⟩ (l.of m.id) := by
  have hpart := part_of_mem h.sound hm
  cases hborn : born m.id with
  | none =>
    rw [(h.unborn m.id hborn).1] at hpart
    cases hpart
  | some d => exact ⟨d, rfl, hpart ▸ h.life m.id d hborn⟩

/-- What holds of each life with what it has holds on the stage. -/
theorem Lives.map {busy' : Bool} {e : Engine} (h : Lives r born busy s l)
    (hqueue : e.queue = s.engine.queue)
    (hlife : ∀ id d, Life r d busy s.engine.now (s.part id) (l.of id) →
      Life r d busy' e.now (s.part id) (l.of id)) :
    Lives r born busy' { s with engine := e } l := by
  have hpart : ∀ id, Stage.part { s with engine := e } id = s.part id := by
    intro id
    show Part.mk (s.player? id) (e.queue.agenda id) = _
    rw [hqueue]
    rfl
  refine ⟨h.sound, h.known, fun id d hborn => ?_, fun id hborn => ?_⟩
  · rw [hpart]
    exact hlife id d (h.life id d hborn)
  · rw [hpart]
    exact h.unborn id hborn

/-- The clock is set to where nothing is due. -/
theorem Lives.setTick (h : Lives r born busy s l) {tick : Nat}
    (hdone : Makes r busy s (.use (.setTick tick))) :
    Lives r born false { s with engine := s.engine.setTick tick } l := by
  refine h.map rfl fun id d hlife => ?_
  rcases hdone with hr | ⟨hlate, hbusy⟩
  · exact (hlife.passes (Nat.le_max_left _ tick) (.inl hr)).settles (.inl hr)
  · by_cases htick : s.engine.now ≤ tick
    · have hnow : (s.engine.setTick tick).now = tick := Nat.max_eq_right htick
      rw [hnow]
      have hpassed := hlife.passes htick (.inr fun x hx => Nat.le_of_lt (hlate id x hx))
      exact hpassed.settles (.inr (hlate id))
    · -- the clock does not go back, so nothing happens
      have hnow : (s.engine.setTick tick).now = s.engine.now := Nat.max_eq_left (by omega)
      have hrest : busy = false := Bool.eq_false_iff.mpr fun hb => htick (hbusy hb)
      rw [hnow, ← hrest]
      exact hlife

/-- Other uses of the engine are not noticed. -/
theorem Lives.use (h : Lives r born busy s l) (u : EngineUse) (hu : ∀ tick, u ≠ .setTick tick) :
    Lives r born busy { s with engine := s.engine.use u } l := by
  have hnow : (s.engine.use u).now = s.engine.now := by
    cases u with
    | setTick tick => exact absurd rfl (hu tick)
    | _ => rfl
  refine h.map (queue_use _ u) fun id d hlife => ?_
  rw [hnow]
  exact hlife

/-- A number that has not been given has nothing, and takes no part in a move. -/
theorem Lives.unborn_step (h : Lives r born busy s l) {allowed : Call → Prop} {m : Moment}
    {id : Nat} (hborn : born id = none) {more : List Played} {p : Part}
    (hstep : Part.Step m allowed (s.part id) more p) : p = ⟨none, []⟩ ∧ l.of id ++ more = [] := by
  obtain ⟨hpart, hplayed⟩ := h.unborn id hborn
  obtain ⟨hmore, hafter⟩ := Part.Step.of_none (hpart ▸ hstep)
  rw [hplayed, hmore]
  exact ⟨hafter, rfl⟩

/-- Each part makes a step. -/
theorem Lives.stepAll (h : Lives r born busy s l) {t : Stage} {more : Ledger}
    (hbusy : busy = true → r.skips) (hsound : t.directory.Sound)
    (hnext : t.directory.nextId = s.directory.nextId) (hnow : t.engine.now = s.engine.now)
    (hstep : ∀ id, Part.Step s.engine.moment r.Allows (s.part id) (more.of id) (t.part id)) :
    Lives r born busy t (l ++ more) := by
  refine ⟨hsound, fun id hid => h.known id (hnext ▸ hid), fun id d hborn => ?_,
    fun id hborn => ?_⟩
  · rw [Ledger.of_append, hnow]
    exact .steps (m := s.engine.moment) (h.life id d hborn) hbusy (hstep id)
  · rw [Ledger.of_append]
    exact h.unborn_step hborn (hstep id)

/-- A new one is born at the next number, and each of the others makes a step. -/
theorem Lives.arrive (h : Lives r born busy s l) {mv : Move} (hbusy : busy = true → r.skips)
    (hsound : (s.move mv).directory.Sound) (hnow : (s.move mv).engine.now = s.engine.now)
    (harrives : s.Arrives mv) (hstep : ∀ id, id ≠ s.directory.nextId →
      Part.Step s.engine.moment r.Allows (s.part id) ((s.ledger mv).of id) ((s.move mv).part id)) :
    ∃ born', (∀ id d, born id = some d → born' id = some d) ∧
      Lives r born' busy (s.move mv) (l ++ s.ledger mv) := by
  have hnew : born s.directory.nextId = none := h.known _ (Nat.le_refl _)
  obtain ⟨d, config, rate, hvalid, hpart⟩ := harrives.part
  obtain ⟨hold, hplayed⟩ := h.unborn _ hnew
  refine ⟨Function.update born s.directory.nextId (some d), fun id d' hborn => ?_, hsound,
    fun id hid => ?_, fun id d' hborn => ?_, fun id hborn => ?_⟩
  · rw [Function.update_of_ne (by rintro rfl; rw [hnew] at hborn; cases hborn)]
    exact hborn
  · rw [harrives.moved] at hid
    rw [Function.update_of_ne (by omega)]
    exact h.known id (by omega)
  · rw [Ledger.of_append]
    by_cases hid : id = s.directory.nextId
    · subst hid
      rw [Function.update_self] at hborn
      cases hborn
      rw [hpart, show s.engine.queue.agenda s.directory.nextId = [] from congrArg Part.agenda hold,
        hplayed, harrives.played]
      exact .born _ _ config rate hvalid
    · rw [Function.update_of_ne hid] at hborn
      rw [hnow]
      exact .steps (m := s.engine.moment) (h.life id d' hborn) hbusy (hstep id hid)
  · by_cases hid : id = s.directory.nextId
    · subst hid
      rw [Function.update_self] at hborn
      cases hborn
    · rw [Function.update_of_ne hid] at hborn
      rw [Ledger.of_append]
      exact h.unborn_step hborn (hstep id hid)

/-- Calls, removals and additions: each part makes a step, or a new one is born. -/
theorem Lives.steps (h : Lives r born busy s l) (mv : Move) (hmv : mv.Calls r.Allows)
    (hbusy : busy = true → r.skips) (hnow : (s.move mv).engine.now = s.engine.now) :
    ∃ born', (∀ id d, born id = some d → born' id = some d) ∧
      Lives r born' busy (s.move mv) (l ++ s.ledger mv) := by
  have hsound := sound_move h.sound mv
  rcases part_move h.sound hmv with ⟨hnext, hstep⟩ | ⟨harrives, hstep⟩
  · exact ⟨born, fun _ _ hborn => hborn, h.stepAll hbusy hsound hnext hnow hstep⟩
  · exact h.arrive hbusy hsound hnow harrives hstep

/-! ### Deliveries -/

theorem now_deliver {limit : Nat} {item : Item} {popped : Engine}
    (h : s.engine.popDue? limit = some (item, popped)) :
    (s.move (.deliver limit)).engine.now = popped.now := by
  simp only [move, h]
  obtain ⟨tick, serial, due⟩ := item
  cases due with
  | event player e => rfl
  | callback player => exact now_ask { s with engine := popped } _ .wake

theorem nextId_deliver (s : Stage) (limit : Nat) :
    (s.move (.deliver limit)).directory.nextId = s.directory.nextId := by
  simp only [move]
  cases s.engine.popDue? limit with
  | none => rfl
  | some found =>
    obtain ⟨⟨tick, serial, due⟩, popped⟩ := found
    cases due with
    | event player e => rfl
    | callback player => exact nextId_ask { s with engine := popped } _ .wake

/-- The first item lies ahead, so the clock only goes as far as the deliveries do. -/
theorem Lives.now_deliver_le (h : Lives r born busy s l) (hr : ¬ r.skips) {limit : Nat}
    {item : Item} {popped : Engine} (hpop : s.engine.popDue? limit = some (item, popped)) :
    (s.move (.deliver limit)).engine.now ≤ limit := by
  obtain ⟨hfirst, hdue, hpopped⟩ := Engine.popDue?_eq_some hpop
  have hnow : s.engine.now ≤ item.tick := by
    refine h.now_le hr item.player item.slot ?_
    rw [Queue.agenda_rest_self hfirst]
    exact List.mem_cons_self
  rw [now_deliver hpop, hpopped]
  exact Nat.max_le.mpr ⟨Nat.le_trans hnow hdue, hdue⟩

/-- A delivery stops the clock at its item, and is the turn of the part it is for. -/
theorem Lives.deliver (h : Lives r born busy s l) (limit : Nat) :
    Lives r born true (s.move (.deliver limit)) (l ++ s.ledger (.deliver limit)) := by
  cases hpop : s.engine.popDue? limit with
  | none =>
    have hmove : s.move (.deliver limit) = s := by simp only [move, hpop]
    have hledger : s.ledger (.deliver limit) = [] := by simp only [ledger, hpop]
    rw [hmove, hledger, List.append_nil]
    refine h.map rfl fun id d hlife => hlife.passes (Nat.le_refl _) ?_
    by_cases hr : r.skips
    · exact .inl hr
    · exact .inr (h.now_le hr id)
  | some found =>
    obtain ⟨item, popped⟩ := found
    obtain ⟨hfirst, -, hpopped⟩ := Engine.popDue?_eq_some hpop
    obtain ⟨hturn, hrest⟩ := part_deliver h.sound hpop
    have hle : s.engine.now ≤ popped.now := hpopped ▸ Nat.le_max_left _ _
    have hlate : ∀ id, r.skips ∨ ∀ x ∈ (s.part id).agenda, popped.now ≤ x.tick := by
      intro id
      by_cases hr : r.skips
      · exact .inl hr
      · refine .inr fun x hx => hpopped ▸ Nat.max_le.mpr ⟨h.now_le hr id x hx, ?_⟩
        exact Queue.first_le_agenda hfirst id x hx
    refine ⟨sound_move h.sound _, fun id hid => h.known id (nextId_deliver s limit ▸ hid), ?_, ?_⟩
    · intro id d hborn
      have hpassed := (h.life id d hborn).passes hle (hlate id)
      rw [Ledger.of_append, now_deliver hpop]
      by_cases hid : item.player = id
      · subst hid
        exact .turns (m := popped.moment) hpassed hturn
      · rw [(hrest id hid).1, (hrest id hid).2, List.append_nil]
        exact hpassed
    · intro id hborn
      obtain ⟨hpart, hplayed⟩ := h.unborn id hborn
      by_cases hid : item.player = id
      · -- something is queued for that number, so it has been given
        have hagenda := Queue.agenda_rest_self hfirst
        rw [hid, show s.engine.queue.agenda id = [] from congrArg Part.agenda hpart] at hagenda
        cases hagenda
      · rw [Ledger.of_append, (hrest id hid).1, (hrest id hid).2, hplayed]
        exact ⟨hpart, rfl⟩

/-! ### Moves in turn -/

end Stage

/-- Whether more may be due after a move. -/
def Move.leaves (busy : Bool) : Move → Bool
  | .deliver _ => true
  | .use (.setTick _) => false
  | _ => busy

namespace Stage

variable {s : Stage} {r : Conduct} {born : Nat → Option PlayerDef} {busy : Bool} {l : Ledger}

theorem Lives.move (h : Lives r born busy s l) {mv : Move} (hmv : s.Makes r busy mv) :
    ∃ born', (∀ id d, born id = some d → born' id = some d) ∧
      Lives r born' (mv.leaves busy) (s.move mv) (l ++ s.ledger mv) := by
  have hkept : ∀ id d, born id = some d → born id = some d := fun _ _ hborn => hborn
  cases mv with
  | deliver limit => exact ⟨born, hkept, h.deliver limit⟩
  | use u =>
    refine ⟨born, hkept, ?_⟩
    show Lives r born _ { s with engine := s.engine.use u } (l ++ [])
    rw [List.append_nil]
    cases u with
    | setTick tick => exact h.setTick hmv
    | _ => exact h.use _ nofun
  | call name c => exact h.steps (.call name c) hmv.1 hmv.2 (now_ask s _ c)
  | wake id => exact h.steps (.wake id) hmv.1 hmv.2 (now_ask s _ .wake)
  | report position => exact h.steps (.report position) hmv.1 hmv.2 (now_foldl _ _ _)
  | add name d => exact h.steps (.add name d) hmv.1 hmv.2 (now_move h.sound nofun nofun)
  | remove name => exact h.steps (.remove name) hmv.1 hmv.2 (now_remove s name)
  | table rules => exact h.steps (.table rules) hmv.1 hmv.2 rfl

/-- Whether moves in turn are moves that may happen, with nothing left that is due. -/
def MakesAll (r : Conduct) (busy : Bool) (s : Stage) : List Move → Prop
  | [] => busy = true → r.skips
  | mv :: rest => s.Makes r busy mv ∧ (s.move mv).MakesAll r (mv.leaves busy) rest

theorem makesAll_of_forall {moves : List Move}
    (h : ∀ mv ∈ moves, mv.leaves false = false ∧ ∀ t : Stage, t.Makes r false mv) :
    s.MakesAll r false moves := by
  induction moves generalizing s with
  | nil => exact nofun
  | cons mv rest ih =>
    obtain ⟨hleaves, hmakes⟩ := h mv List.mem_cons_self
    refine ⟨hmakes s, ?_⟩
    rw [hleaves]
    exact ih fun x hx => h x (List.mem_cons_of_mem _ hx)

/-- Where it does not matter when calls come, it does not matter whether more is due. -/
theorem Lives.settle (h : Lives r born busy s l) (hbusy : busy = true → r.skips) :
    Lives r born false s l := by
  cases busy with
  | false => exact h
  | true => exact h.map rfl fun id d hlife => hlife.settles (.inl (hbusy rfl))

/-- Whatever moves are made, those that live live on, and new lives begin. -/
theorem Lives.run (h : Lives r born busy s l) {moves : List Move}
    (hmoves : s.MakesAll r busy moves) :
    ∃ born', (∀ id d, born id = some d → born' id = some d) ∧
      Lives r born' false (s.run moves) (l ++ s.runLedger moves) := by
  induction moves generalizing s born busy l with
  | nil =>
    rw [runLedger, List.append_nil]
    exact ⟨born, fun _ _ hborn => hborn, h.settle hmoves⟩
  | cons mv rest ih =>
    obtain ⟨born', hkept, hnext⟩ := h.move hmoves.1
    obtain ⟨born'', hkept', hlast⟩ := ih hnext hmoves.2
    refine ⟨born'', fun id d hborn => hkept' id d (hkept id d hborn), ?_⟩
    rw [runLedger, ← List.append_assoc]
    exact hlast

end Stage

end MidiRig
