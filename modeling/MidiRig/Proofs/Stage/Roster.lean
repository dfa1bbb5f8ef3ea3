import MidiRig.Proofs.Player.Callbacks
import MidiRig.Proofs.Stage.Kept

/-!
# The roster of a stage

Whatever is asked of the players on one engine, and in whatever order (`Stage.Request`), names and
numbers belong to one player each, no number is given twice, and all that is queued is queued for a
player that is there (`Stage.Consistent`). The last is a fact about players, not about the list of
them: each takes with it what it has queued, in whatever state it is dismissed (`Life.tidy`).

Players are added step by step on a stage that is kept when a step fails (`Stage.addInPlace`), so
that a refusal leaving the stage as it was is a fact about the order of the steps.
-/

namespace MidiRig.Stage

variable {s t : Stage} {name : String} {d : PlayerDef}

/-! ## Additions in place -/

/-- Work on a stage in place that may stop with a fault, with what has been done until then. -/
abbrev OnStage := ExceptT Fault (StateM Stage)

/-- The outcome, and the stage that is left. -/
def OnStage.runOn {α : Type} (x : OnStage α) (s : Stage) : Except Fault α × Stage := x.run.run s

/-- Makes a new player in place of one that has the name, step by step. -/
def createInPlace (name : String) (d : PlayerDef) : OnStage Nat := do
  if let some problem := d.problem? then
    throw (.player name problem)
  modify fun s => s.remove name
  let id := (← get).directory.nextId
  modify fun s => s.joined name d
  return id

/-- Adds a player, step by step, and gives its number. -/
def addInPlace (name : String) (d : PlayerDef) : OnStage Nat := do
  match (← get).directory.find? name with
  | some member => if member.definition == d then return member.id else createInPlace name d
  | none => createInPlace name d

/-- A refusal comes before the first change. -/
theorem runOn_addInPlace (s : Stage) (name : String) (d : PlayerDef) :
    (addInPlace name d).runOn s =
      match s.add name d with
      | .ok (id, t) => (.ok id, t)
      | .error fault => (.error fault, s) := by
  have hcreate : (createInPlace name d).runOn s =
      match s.create name d with
      | .ok (id, t) => (.ok id, t)
      | .error fault => (.error fault, s) := by
    unfold createInPlace create PlayerDef.validate
    cases d.problem? <;> rfl
  have hfind : (addInPlace name d).runOn s =
      (match s.directory.find? name with
        | some member => if member.definition == d then return member.id else createInPlace name d
        | none => createInPlace name d : OnStage Nat).runOn s := rfl
  rw [hfind]
  unfold add
  cases s.directory.find? name with
  | none => exact hcreate
  | some member =>
    dsimp only
    split
    · rfl
    · exact hcreate

/-! ## Requests -/

/-- What can be asked of the players on one engine, and what else may be done with the engine. -/
inductive Request where
  | add (name : String) (d : PlayerDef)
  | remove (name : String)
  /-- Players of other names leave. -/
  | keepOnly (kept : List String)
  | clear
  | call (name : String) (c : Call)
  | callId (id : Nat) (c : Call)
  | callAll (c : Call)
  /-- The first item is delivered, if it is due. -/
  | deliver (limit : Nat)
  | use (u : EngineUse)

/-- Does what is asked for. -/
def answer (s : Stage) : Request → Stage
  | .add name d => ((addInPlace name d).runOn s).2
  | .remove name => s.remove name
  | .keepOnly kept => s.keepOnly kept
  | .clear => s.keepOnly []
  | .call name c => s.call name c
  | .callId id c => s.callId id c
  | .callAll c => s.callAll c
  | .deliver limit => s.move (.deliver limit)
  | .use u => s.move (.use u)

/-- The number that a request gives to a player it makes. -/
def gives? (s : Stage) : Request → Option Nat
  | .add name d =>
    match ((addInPlace name d).runOn s).1 with
    | .ok id => if s.directory.members.any (·.id == id) then none else some id
    | .error _ => none
  | _ => none

/-- Answers requests in turn. -/
def serve (s : Stage) (requests : List Request) : Stage := requests.foldl answer s

/-- The numbers that are given while requests are answered in turn, first number first. -/
def given (s : Stage) : List Request → List Nat
  | [] => []
  | r :: rest => (s.gives? r).toList ++ (s.answer r).given rest

theorem answer_add (s : Stage) (name : String) (d : PlayerDef) :
    s.answer (.add name d) = s.move (.add name d) := by
  simp only [answer, move, runOn_addInPlace]
  cases s.add name d <;> rfl

/-! ## Numbers -/

/-- No member of `t` has a number that no member of `s` has, and the next number is the same. -/
structure Within (s t : Stage) : Prop where
  next : t.directory.nextId = s.directory.nextId
  ids : ∀ m ∈ t.directory.members, ∃ old ∈ s.directory.members, old.id = m.id

theorem Within.refl (s : Stage) : Within s s := ⟨rfl, fun m hm => ⟨m, hm, rfl⟩⟩

theorem within_ask (s : Stage) (asked : Member → Bool) (c : Call) :
    Within s ((s.ask? asked c).getD s) := by
  refine ⟨nextId_ask s asked c, ?_⟩
  cases h : s.ask? asked c with
  | none => exact (Within.refl s).ids
  | some t =>
    obtain ⟨before, member, after, hmem, -, -, rfl⟩ := ask?_eq_some h
    intro m hm
    rw [hmem]
    rcases List.mem_append.mp hm with hm | hm
    · exact ⟨m, List.mem_append_left _ hm, rfl⟩
    rcases List.mem_cons.mp hm with rfl | hm
    · exact ⟨member, List.mem_append_right _ List.mem_cons_self, rfl⟩
    · exact ⟨m, List.mem_append_right _ (List.mem_cons_of_mem _ hm), rfl⟩

theorem within_keepOnly (hs : s.directory.Sound) (kept : List String) :
    Within s (s.keepOnly kept) :=
  ⟨s.nextId_keepOnly kept, fun m hm => ⟨m, ((mem_keepOnly_iff hs).mp hm).1, rfl⟩⟩

theorem within_callAll (s : Stage) (c : Call) : Within s (s.callAll c) := by
  refine ⟨rfl, fun m hm => ?_⟩
  obtain ⟨old, hold, rfl⟩ := List.mem_map.mp hm
  exact ⟨old, hold, rfl⟩

theorem within_deliver (s : Stage) (limit : Nat) : Within s (s.move (.deliver limit)) := by
  refine ⟨nextId_deliver s limit, ?_⟩
  simp only [move]
  cases s.engine.popDue? limit with
  | none => exact (Within.refl s).ids
  | some found =>
    obtain ⟨⟨tick, serial, due⟩, popped⟩ := found
    cases due with
    | event player e => exact (Within.refl s).ids
    | callback player => exact (within_ask { s with engine := popped } _ .wake).ids

/-- A request gives no number, or the next one. -/
theorem within_answer (hs : s.directory.Sound) (r : Request) :
    (s.gives? r = none ∧ Within s (s.answer r)) ∨
    (s.gives? r = some s.directory.nextId ∧
      (s.answer r).directory.nextId = s.directory.nextId + 1 ∧
      ∀ m ∈ (s.answer r).directory.members,
        m.id = s.directory.nextId ∨ ∃ old ∈ s.directory.members, old.id = m.id) := by
  cases r with
  | remove name => exact .inl ⟨rfl, s.nextId_remove name, fun m hm =>
      ⟨m, ((mem_remove_iff hs).mp hm).1, rfl⟩⟩
  | keepOnly kept => exact .inl ⟨rfl, within_keepOnly hs kept⟩
  | clear => exact .inl ⟨rfl, within_keepOnly hs []⟩
  | call name c => exact .inl ⟨rfl, within_ask s _ c⟩
  | callId id c => exact .inl ⟨rfl, within_ask s _ c⟩
  | callAll c => exact .inl ⟨rfl, s.within_callAll c⟩
  | deliver limit => exact .inl ⟨rfl, s.within_deliver limit⟩
  | use u => exact .inl ⟨rfl, rfl, (Within.refl s).ids⟩
  | add name d =>
    simp only [gives?, answer, runOn_addInPlace]
    rcases s.add_eq name d with ⟨member, hfind, -, h⟩ | ⟨problem, -, h⟩ | ⟨-, -, h⟩
    · have hthere : s.directory.members.any (·.id == member.id) = true :=
        List.any_eq_true.mpr ⟨member, (mem_of_find? hfind).1, beq_self_eq_true _⟩
      rw [h]
      exact .inl ⟨if_pos hthere, .refl s⟩
    · rw [h]
      exact .inl ⟨rfl, .refl s⟩
    · have hnew : ¬ s.directory.members.any (·.id == s.directory.nextId) = true := by
        rw [List.any_eq_true]
        rintro ⟨m, hm, hid⟩
        exact absurd (hs.known m hm) (by simp [eq_of_beq hid])
      rw [h]
      refine .inr ⟨if_neg hnew, congrArg (· + 1) (s.nextId_remove name), fun m hm => ?_⟩
      rcases List.mem_append.mp hm with hm | hm
      · exact .inr ⟨m, ((mem_remove_iff hs).mp hm).1, rfl⟩
      · rw [List.mem_singleton.mp hm]
        exact .inl (s.nextId_remove name)

/-- Numbers that have been given, each once, with those of all members among them. -/
structure Numbered (s : Stage) (given : List Nat) : Prop where
  increasing : given.Pairwise (· < ·)
  below : ∀ id ∈ given, id < s.directory.nextId
  members : ∀ m ∈ s.directory.members, m.id ∈ given

theorem Numbered.answer {given : List Nat} (h : Numbered s given) (hs : s.directory.Sound)
    (r : Request) : Numbered (s.answer r) (given ++ (s.gives? r).toList) := by
  rcases within_answer hs r with ⟨hgives, hnext, hids⟩ | ⟨hgives, hnext, hids⟩
  · rw [hgives, Option.toList_none, List.append_nil]
    refine ⟨h.increasing, hnext ▸ h.below, fun m hm => ?_⟩
    obtain ⟨old, hold, hid⟩ := hids m hm
    exact hid ▸ h.members old hold
  · rw [hgives, Option.toList_some]
    refine ⟨List.pairwise_append.mpr ⟨h.increasing, List.pairwise_singleton _ _, ?_⟩, ?_, ?_⟩
    · intro a ha b hb
      rw [List.mem_singleton.mp hb]
      exact h.below a ha
    · intro id hid
      rw [hnext]
      rcases List.mem_append.mp hid with hid | hid
      · exact Nat.lt_succ_of_lt (h.below id hid)
      · rw [List.mem_singleton.mp hid]
        exact Nat.lt_succ_self _
    · intro m hm
      rcases hids m hm with hid | ⟨old, hold, hid⟩
      · exact List.mem_append_right _ (List.mem_singleton.mpr hid)
      · exact List.mem_append_left _ (hid ▸ h.members old hold)

/-! ## Lives -/

/-- A stage on which every number that has been given has a life. -/
def Alive (s : Stage) : Prop := ∃ born l, Lives .free born false s l

theorem Alive.sound (h : s.Alive) : s.directory.Sound := by
  obtain ⟨_, _, hlives⟩ := h
  exact hlives.sound

theorem alive_make (rate : Float) (config : SequencerConfig) : (make rate config).Alive :=
  ⟨_, _, lives_make .free rate config⟩

theorem allows_free (c : Call) : Conduct.free.Allows c := by
  cases c <;> trivial

theorem makes_free (s : Stage) (busy : Bool) (mv : Move) : s.Makes .free busy mv := by
  cases mv with
  | use u =>
    cases u with
    | setTick tick => exact .inl trivial
    | _ => trivial
  | deliver limit => trivial
  | call name c => exact ⟨allows_free c, fun _ => trivial⟩
  | _ => exact ⟨trivial, fun _ => trivial⟩

theorem Alive.move (h : s.Alive) (mv : Move) : (s.move mv).Alive := by
  obtain ⟨born, l, hlives⟩ := h
  obtain ⟨born', -, hmoved⟩ := hlives.move (makes_free s false mv)
  exact ⟨born', _, hmoved.settle fun _ => trivial⟩

theorem Alive.ask (h : s.Alive) (asked : Member → Bool) (c : Call) :
    ((s.ask? asked c).getD s).Alive := by
  obtain ⟨born, l, hlives⟩ := h
  exact ⟨born, _, hlives.stepAll (fun _ => trivial) (sound_ask hlives.sound asked c)
    (nextId_ask s asked c) (now_ask s asked c)
    fun id => (asked_ask hlives.sound asked c id).step (allows_free c)⟩

theorem Alive.callAll (h : s.Alive) (c : Call) : (s.callAll c).Alive := by
  obtain ⟨born, l, hlives⟩ := h
  exact ⟨born, _, hlives.stepAll (fun _ => trivial) (sound_callAll hlives.sound c) rfl
    (now_foldl _ _ _) fun id => (asked_callAll hlives.sound c id).step (allows_free c)⟩

theorem Alive.keepOnly (h : s.Alive) (kept : List String) : (s.keepOnly kept).Alive := by
  unfold Stage.keepOnly
  generalize s.directory.names.filter _ = names
  induction names generalizing s with
  | nil => exact h
  | cons name rest ih => exact ih (h.move (.remove name))

theorem Alive.answer (h : s.Alive) (r : Request) : (s.answer r).Alive := by
  cases r with
  | add name d => exact s.answer_add name d ▸ h.move (.add name d)
  | remove name => exact h.move (.remove name)
  | keepOnly kept => exact h.keepOnly kept
  | clear => exact h.keepOnly []
  | call name c => exact h.ask _ c
  | callId id c => exact h.ask _ c
  | callAll c => exact h.callAll c
  | deliver limit => exact h.move (.deliver limit)
  | use u => exact h.move (.use u)

/-- All that is queued is queued for a player that is there. -/
theorem Alive.owned (h : s.Alive) :
    ∀ item ∈ s.engine.queue.items, ∃ m ∈ s.directory.members, m.id = item.player := by
  obtain ⟨born, l, hlives⟩ := h
  intro item hitem
  have hqueued : s.engine.queue.agenda item.player ≠ [] :=
    fun hnil => Queue.agenda_eq_nil_iff.mp hnil item hitem rfl
  cases hplayer : s.player? item.player with
  | some p =>
    obtain ⟨m, hm, hid, -⟩ := exists_mem_of_player? hplayer
    exact ⟨m, hm, hid⟩
  | none =>
    refine absurd ?_ hqueued
    cases hborn : born item.player with
    | none => exact congrArg Part.agenda (hlives.unborn item.player hborn).1
    | some d =>
      have htidy := (hlives.life item.player d hborn).tidy
      rwa [part, hplayer] at htidy

/-! ## The roster as a whole -/

/-- Players and queue fit together, and numbers have been given once. -/
structure Consistent (s : Stage) (given : List Nat) : Prop where
  names : s.directory.names.Nodup
  ids : (s.directory.members.map Member.id).Nodup
  once : given.Nodup
  given : ∀ m ∈ s.directory.members, m.id ∈ given
  owned : ∀ item ∈ s.engine.queue.items, ∃ m ∈ s.directory.members, m.id = item.player

/-- The stage `t` after a player has been put in place of one that may have had its name. -/
structure Replaced (s : Stage) (name : String) (d : PlayerDef) (t : Stage) : Prop where
  /-- The others stay as they are, in their order, and the new one comes behind them. -/
  members : t.directory.members = (s.directory.members.filter fun m => m.name != name) ++
    [⟨s.directory.nextId, name, d,
      Player.make d s.directory.config s.engine.ticksPerSecond⟩]
  /-- The engine does what the old one asks for when it is dismissed, and nothing else. -/
  engine : t.engine = match s.directory.find? name with
    | some m => s.engine.perform m.id (m.player.respond s.engine.moment .dismiss).2
    | none => s.engine
  /-- The others have queued what they had, and the old one nothing. -/
  kept : ∀ m ∈ s.directory.members, m.name ≠ name →
    t.engine.queue.itemsOf m.id = s.engine.queue.itemsOf m.id
  gone : ∀ m ∈ s.directory.members, m.name = name → t.engine.queue.itemsOf m.id = []

/-- What an addition comes to: it is refused, changes nothing, or replaces one entry. -/
structure Adds (s : Stage) (given : List Nat) (name : String) (d : PlayerDef) : Prop where
  refused : ∀ problem, d.problem? = some problem →
    ((addInPlace name d).runOn s).2 = s ∧
      ((∀ m ∈ s.directory.members, m.name = name → (m.definition == d) = false) →
        ((addInPlace name d).runOn s).1 = .error (.player name problem))
  same : ∀ m ∈ s.directory.members, m.name = name → (m.definition == d) = true →
    (addInPlace name d).runOn s = (.ok m.id, s)
  replaced : d.problem? = none →
    (∀ m ∈ s.directory.members, m.name = name → (m.definition == d) = false) →
    ∃ t, (addInPlace name d).runOn s = (.ok s.directory.nextId, t) ∧
      s.directory.nextId ∉ given ∧ Replaced s name d t

theorem members_remove (hs : s.directory.Sound) (name : String) :
    (s.remove name).directory.members = s.directory.members.filter fun m => m.name != name := by
  rcases s.remove_eq name with ⟨h, hname⟩ | ⟨before, member, after, hmem, rfl, hbefore, h⟩
  · rw [h, List.filter_eq_self.mpr]
    exact fun m hm => bne_iff_ne.mpr fun heq => hname (heq ▸ List.mem_map_of_mem hm)
  · have hnames := hs.names
    unfold Directory.names at hnames
    rw [hmem, List.map_append, List.map_cons] at hnames
    have hother : ∀ m ∈ before ++ after, (m.name != member.name) = true := by
      refine fun m hm => bne_iff_ne.mpr fun heq => (List.nodup_middle.mp hnames).notMem ?_
      rw [← List.map_append, ← heq]
      exact List.mem_map_of_mem hm
    rw [h, hmem, List.filter_append, List.filter_cons_of_neg (by simp), ← List.filter_append,
      List.filter_eq_self.mpr hother]
    rfl

theorem engine_remove (hs : s.directory.Sound) (name : String) :
    (s.remove name).engine = match s.directory.find? name with
      | some m => s.engine.perform m.id (m.player.respond s.engine.moment .dismiss).2
      | none => s.engine := by
  rcases s.remove_eq name with ⟨h, hname⟩ | ⟨before, member, after, hmem, rfl, -, h⟩
  · have hfind : s.directory.find? name = none :=
      List.find?_eq_none.mpr fun m hm hx => hname (eq_of_beq hx ▸ List.mem_map_of_mem hm)
    rw [h, hfind]
  · rw [h, find?_of_mem hs (mem_of_split hmem)]
    rfl

/-- Of a player that is not there, nothing is queued. -/
theorem Alive.itemsOf_eq_nil (h : s.Alive) {id : Nat}
    (hgone : ∀ m ∈ s.directory.members, m.id ≠ id) : s.engine.queue.itemsOf id = [] := by
  refine List.filter_eq_nil_iff.mpr fun item hitem hid => ?_
  obtain ⟨m, hm, howner⟩ := h.owned item hitem
  exact hgone m hm (howner.trans (eq_of_beq hid))

theorem Alive.replaced (h : s.Alive) (h' : ((s.remove name).joined name d).Alive) :
    Replaced s name d ((s.remove name).joined name d) := by
  have hs := h.sound
  have hmembers : ((s.remove name).joined name d).directory.members =
      (s.directory.members.filter fun m => m.name != name) ++
        [⟨s.directory.nextId, name, d,
          Player.make d s.directory.config s.engine.ticksPerSecond⟩] := by
    rw [← members_remove hs name, ← s.nextId_remove name, ← s.config_remove name,
      ← s.rate_remove name]
    rfl
  refine ⟨hmembers, engine_remove hs name, fun m hm hname => (keeps_remove hs hm hname).items,
    fun m hm hname => h'.itemsOf_eq_nil fun x hx hid => ?_⟩
  rw [hmembers] at hx
  rcases List.mem_append.mp hx with hx | hx
  · obtain ⟨hx, hother⟩ := List.mem_filter.mp hx
    rw [hs.eq_of_id hx hm hid, hname] at hother
    simp at hother
  · rw [List.mem_singleton.mp hx] at hid
    exact absurd (hs.known m hm) (by simp [← hid])

theorem Alive.adds (h : s.Alive) {given : List Nat} (hgiven : Numbered s given) (name : String)
    (d : PlayerDef) : Adds s given name d := by
  have hs := h.sound
  have hrun := runOn_addInPlace s name d
  rcases s.add_eq name d with ⟨found, hfind, hsame, hadd⟩ | ⟨problem, hproblem, hadd⟩ |
    ⟨hvalid, hother, hadd⟩
  · obtain ⟨hfound, hname⟩ := mem_of_find? hfind
    rw [hadd] at hrun
    refine ⟨fun _ _ => ⟨congrArg Prod.snd hrun, fun hnone => ?_⟩, fun m hm hm' _ => ?_,
      fun _ hnone => ?_⟩
    · rw [hnone found hfound hname] at hsame
      cases hsame
    · rw [hrun, hs.eq_of_name hm hfound (hm'.trans hname.symm)]
    · rw [hnone found hfound hname] at hsame
      cases hsame
  · -- the same definition is kept before it is checked
    rw [hadd] at hrun
    refine ⟨fun other hother => ⟨congrArg Prod.snd hrun, fun _ => ?_⟩, fun m hm hname hsame => ?_,
      fun hvalid => ?_⟩
    · rw [hrun]
      rw [hproblem] at hother
      cases hother
      rfl
    · have hkept : s.add name d = .ok (m.id, s) := by
        unfold add
        rw [← hname, find?_of_mem hs hm]
        exact if_pos hsame
      rw [hkept] at hadd
      cases hadd
    · rw [hproblem] at hvalid
      cases hvalid
  · rw [hadd] at hrun
    refine ⟨fun problem hproblem => ?_, fun m hm hname hsame => ?_, fun _ _ => ⟨_, hrun, ?_, ?_⟩⟩
    · rw [hvalid] at hproblem
      cases hproblem
    · rw [hother m (hname ▸ find?_of_mem hs hm)] at hsame
      cases hsame
    · exact fun hid => Nat.lt_irrefl _ (hgiven.below _ hid)
    · refine h.replaced ?_
      have hmoved := h.answer (.add name d)
      rw [Stage.answer, hrun] at hmoved
      exact hmoved

theorem serve_kept (h : s.Alive) {given : List Nat} (hgiven : Numbered s given)
    (requests : List Request) :
    (s.serve requests).Alive ∧ Numbered (s.serve requests) (given ++ s.given requests) := by
  induction requests generalizing s given with
  | nil => exact ⟨h, (List.append_nil given).symm ▸ hgiven⟩
  | cons r rest ih =>
    rw [Stage.given, ← List.append_assoc]
    exact ih (h.answer r) (hgiven.answer h.sound r)

/-- Whatever has been asked of the players on an engine, in whatever order, the roster is
consistent, and an addition is refused, changes nothing or replaces one entry. -/
theorem roster_consistent (rate : Float) (config : SequencerConfig) (requests : List Request) :
    ((make rate config).serve requests).Consistent ((make rate config).given requests) ∧
      ∀ name d, ((make rate config).serve requests).Adds ((make rate config).given requests)
        name d := by
  have hfirst : Numbered (make rate config) [] :=
    ⟨.nil, nofun, fun _ hm => absurd hm List.not_mem_nil⟩
  obtain ⟨halive, hnumbered⟩ := serve_kept (alive_make rate config) hfirst requests
  rw [List.nil_append] at hnumbered
  refine ⟨⟨halive.sound.names, halive.sound.ids, ?_, hnumbered.members, halive.owned⟩,
    halive.adds hnumbered⟩
  exact hnumbered.increasing.imp Nat.ne_of_lt

end MidiRig.Stage
