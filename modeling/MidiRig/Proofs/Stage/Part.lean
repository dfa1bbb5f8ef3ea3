import MidiRig.Proofs.Stage.Move

/-!
# What happens to one player

`Stage.part s id` is all that a stage holds of one player: the player and its agenda. A move lets
a part stay, answer a call, or leave (`Part.Step`), and only the next number brings a new part
(`Stage.part_move`). A delivery is the turn of the part whose item comes first (`Part.Turn`,
`Stage.part_deliver`). So what is true of single players with their agendas is true on every stage.
-/

namespace MidiRig

/-! ## Parts -/

/-- What a stage holds of one player. -/
structure Part where
  player : Option Player
  agenda : Agenda

def Stage.part (s : Stage) (id : Nat) : Part := ⟨s.player? id, s.engine.queue.agenda id⟩

/-- What a move other than a delivery does to a part, where calls are allowed ones. -/
inductive Part.Step (m : Moment) (allowed : Call → Prop) : Part → List Played → Part → Prop where
  | stays (p : Part) : Step m allowed p [] p
  | answers {p : Player} {a : Agenda} (c : Call) (h : allowed c) :
      Step m allowed ⟨some p, a⟩ (atOnce m.now (p.respond m c).2)
        ⟨some (p.respond m c).1, a.perform m.now (p.respond m c).2⟩
  | leaves {p : Player} {a : Agenda} :
      Step m allowed ⟨some p, a⟩ (atOnce m.now (p.respond m .dismiss).2)
        ⟨none, a.perform m.now (p.respond m .dismiss).2⟩

/-- Where there is no player, nothing is played and nothing changes. -/
theorem Part.Step.of_none {m : Moment} {allowed : Call → Prop} {a : Agenda} {played : List Played}
    {p : Part} (h : Part.Step m allowed ⟨none, a⟩ played p) : played = [] ∧ p = ⟨none, a⟩ := by
  cases h
  exact ⟨rfl, rfl⟩

/-- What a call does to a part, which it reaches or not. -/
inductive Part.Asked (m : Moment) (c : Call) : Bool → Part → List Played → Part → Prop where
  | passed (p : Part) : Asked m c false p [] p
  | answers (p : Player) (a : Agenda) :
      Asked m c true ⟨some p, a⟩ (atOnce m.now (p.respond m c).2)
        ⟨some (p.respond m c).1, a.perform m.now (p.respond m c).2⟩

/-- What a removal does to a part, whose player is the one that is removed or not. -/
inductive Part.Dismissed (m : Moment) : Bool → Part → List Played → Part → Prop where
  | passed (p : Part) : Dismissed m false p [] p
  | leaves (p : Player) (a : Agenda) :
      Dismissed m true ⟨some p, a⟩ (atOnce m.now (p.respond m .dismiss).2)
        ⟨none, a.perform m.now (p.respond m .dismiss).2⟩

theorem Part.Asked.step {m : Moment} {c : Call} {allowed : Call → Prop} {reached : Bool}
    {played : List Played} {p q : Part} (h : Part.Asked m c reached p played q) (hc : allowed c) :
    Part.Step m allowed p played q := by
  cases h with
  | passed => exact .stays _
  | answers => exact .answers c hc

theorem Part.Dismissed.step {m : Moment} {allowed : Call → Prop} {reached : Bool}
    {played : List Played} {p q : Part} (h : Part.Dismissed m reached p played q) :
    Part.Step m allowed p played q := by
  cases h with
  | passed => exact .stays _
  | leaves => exact .leaves

/-- What the delivery of a part's first item does to it. -/
inductive Part.Turn (m : Moment) : Part → List Played → Part → Prop where
  | plays {p : Option Player} {a : Agenda} {tick : Nat} (e : Event) (h : tick ≤ m.now) :
      Turn m ⟨p, ⟨tick, some e⟩ :: a⟩ [⟨m.now, e, true⟩] ⟨p, a⟩
  | wakes {p : Player} {a : Agenda} {tick : Nat} (h : tick ≤ m.now) :
      Turn m ⟨some p, ⟨tick, none⟩ :: a⟩ (atOnce m.now (p.respond m .wake).2)
        ⟨some (p.respond m .wake).1, a.perform m.now (p.respond m .wake).2⟩
  | lost {a : Agenda} {tick : Nat} : Turn m ⟨none, ⟨tick, none⟩ :: a⟩ [] ⟨none, a⟩

/-- Whether a move is no delivery and makes only allowed calls. -/
def Move.Calls (allowed : Call → Prop) : Move → Prop
  | .call _ c => allowed c
  | .wake _ => allowed .wake
  | .report position => allowed (.fileTick position)
  | .deliver _ => False
  | _ => True

namespace Stage

variable {s t : Stage} {before after : List Member} {member : Member} {allowed : Call → Prop}

/-! ### Single calls -/

theorem part_of_mem (hs : s.directory.Sound) (hmem : member ∈ s.directory.members) :
    s.part member.id = ⟨some member.player, s.engine.queue.agenda member.id⟩ := by
  rw [part, player?_of_mem hs hmem]

theorem part_answered_self (hs : s.directory.Sound)
    (hmem : s.directory.members = before ++ member :: after) (c : Call) :
    (s.answered before member after c).part member.id =
      ⟨some (member.player.respond s.engine.moment c).1,
        (s.engine.queue.agenda member.id).perform s.engine.now
          (member.player.respond s.engine.moment c).2⟩ := by
  rw [part, player?_answered_self hs hmem]
  show Part.mk _ ((s.engine.perform member.id _).queue.agenda member.id) = _
  rw [Engine.agenda_perform_self]

theorem part_answered_other (hmem : s.directory.members = before ++ member :: after) {id : Nat}
    (h : member.id ≠ id) (c : Call) : (s.answered before member after c).part id = s.part id := by
  rw [part, player?_answered_other hmem h]
  show Part.mk _ ((s.engine.perform member.id _).queue.agenda id) = _
  rw [Engine.agenda_perform_other _ h]
  rfl

theorem asked_answered (hs : s.directory.Sound)
    (hmem : s.directory.members = before ++ member :: after) (c : Call) (id : Nat) :
    Part.Asked s.engine.moment c (member.id == id) (s.part id)
      ((Ledger.entries member.id
        (atOnce s.engine.now (member.player.respond s.engine.moment c).2)).of id)
      ((s.answered before member after c).part id) := by
  by_cases h : member.id = id
  · subst h
    rw [beq_self_eq_true, part_of_mem hs (mem_of_split hmem), part_answered_self hs hmem,
      Ledger.of_entries_self]
    exact .answers _ _
  · rw [beq_false_of_ne h, part_answered_other hmem h, Ledger.of_entries_other h]
    exact .passed _

theorem part_without_self (hs : s.directory.Sound)
    (hmem : s.directory.members = before ++ member :: after) :
    (s.without before member after).part member.id =
      ⟨none, (s.engine.queue.agenda member.id).perform s.engine.now
        (member.player.respond s.engine.moment .dismiss).2⟩ := by
  rw [part, player?_without_self hmem hs]
  show Part.mk _ ((s.engine.perform member.id _).queue.agenda member.id) = _
  rw [Engine.agenda_perform_self]

theorem part_without_other (hmem : s.directory.members = before ++ member :: after) {id : Nat}
    (h : member.id ≠ id) : (s.without before member after).part id = s.part id := by
  rw [part, player?_without_other hmem h]
  show Part.mk _ ((s.engine.perform member.id _).queue.agenda id) = _
  rw [Engine.agenda_perform_other _ h]
  rfl

theorem dismissed_without (hs : s.directory.Sound)
    (hmem : s.directory.members = before ++ member :: after) (id : Nat) :
    Part.Dismissed s.engine.moment (member.id == id) (s.part id)
      ((Ledger.entries member.id
        (atOnce s.engine.now (member.player.respond s.engine.moment .dismiss).2)).of id)
      ((s.without before member after).part id) := by
  by_cases h : member.id = id
  · subst h
    rw [beq_self_eq_true, part_of_mem hs (mem_of_split hmem), part_without_self hs hmem,
      Ledger.of_entries_self]
    exact .leaves _ _
  · rw [beq_false_of_ne h, part_without_other hmem h, Ledger.of_entries_other h]
    exact .passed _

/-- Whether the first of those asked for is the member of this number. -/
def reaches (s : Stage) (asked : Member → Bool) (id : Nat) : Bool :=
  (s.directory.members.find? asked).any fun m => m.id == id

theorem reaches_of_none {asked : Member → Bool} (h : ∀ x ∈ s.directory.members, asked x = false)
    (id : Nat) : s.reaches asked id = false := by
  unfold reaches
  rw [List.find?_eq_none.mpr fun x hx => by simp [h x hx]]
  rfl

theorem reaches_of_split {asked : Member → Bool}
    (hmem : s.directory.members = before ++ member :: after) (hasked : asked member = true)
    (hbefore : ∀ x ∈ before, asked x = false) (id : Nat) :
    s.reaches asked id = (member.id == id) := by
  have hnone : before.find? asked = none :=
    List.find?_eq_none.mpr fun x hx => by simp [hbefore x hx]
  unfold reaches
  rw [hmem, List.find?_append, hnone, List.find?_cons, hasked]
  rfl

theorem askLedger_of_none {asked : Member → Bool} (h : ∀ x ∈ s.directory.members, asked x = false)
    (c : Call) : s.askLedger asked c = [] := by
  unfold askLedger
  cases hask : Member.ask? asked s.engine.moment c s.directory.members with
  | none => rfl
  | some answer =>
    obtain ⟨_, member, _, hmem, hasked, -, -⟩ := Member.ask?_eq_some hask
    rw [h member (mem_of_split hmem)] at hasked
    cases hasked

theorem askLedger_of_split {asked : Member → Bool}
    (hmem : s.directory.members = before ++ member :: after) (hasked : asked member = true)
    (hbefore : ∀ x ∈ before, asked x = false) (c : Call) :
    s.askLedger asked c = Ledger.entries member.id
      (atOnce s.engine.now (member.player.respond s.engine.moment c).2) := by
  rw [askLedger, hmem, Member.ask?_split hbefore hasked]

theorem asked_ask (hs : s.directory.Sound) (asked : Member → Bool) (c : Call) (id : Nat) :
    Part.Asked s.engine.moment c (s.reaches asked id) (s.part id) ((s.askLedger asked c).of id)
      (((s.ask? asked c).getD s).part id) := by
  unfold ask? askLedger
  cases h : Member.ask? asked s.engine.moment c s.directory.members with
  | none =>
    rw [reaches_of_none (Member.ask?_eq_none h)]
    exact .passed _
  | some answer =>
    obtain ⟨before, member, after, hmem, hasked, hbefore, rfl⟩ := Member.ask?_eq_some h
    rw [reaches_of_split hmem hasked hbefore]
    exact asked_answered hs hmem c id

theorem dismissed_remove (hs : s.directory.Sound) (name : String) (id : Nat) :
    Part.Dismissed s.engine.moment (s.reaches (fun m => m.name == name) id) (s.part id)
      ((s.askLedger (fun m => m.name == name) .dismiss).of id) ((s.remove name).part id) := by
  rcases s.remove_eq name with ⟨h, hname⟩ | ⟨before, member, after, hmem, hname, hfirst, h⟩
  · have hnone : ∀ x ∈ s.directory.members, (x.name == name) = false := fun x hx =>
      beq_false_of_ne fun hx' => hname (hx' ▸ List.mem_map_of_mem hx)
    rw [h, reaches_of_none hnone, askLedger_of_none hnone]
    exact .passed _
  · have hasked : (member.name == name) = true := by simpa using hname
    rw [h, reaches_of_split hmem hasked hfirst, askLedger_of_split hmem hasked hfirst]
    exact dismissed_without hs hmem id

/-! ### Calls to all players -/

theorem agenda_foldl_other {id : Nat} (answer : Member → List Action) {members : List Member}
    (h : ∀ m ∈ members, m.id ≠ id) (e : Engine) :
    (members.foldl (fun e m => e.perform m.id (answer m)) e).queue.agenda id =
      e.queue.agenda id := by
  induction members generalizing e with
  | nil => rfl
  | cons m rest ih =>
    rw [List.foldl_cons, ih fun x hx => h x (List.mem_cons_of_mem _ hx)]
    exact Engine.agenda_perform_other e (h m List.mem_cons_self) _

theorem now_foldl (answer : Member → List Action) (members : List Member) (e : Engine) :
    (members.foldl (fun e m => e.perform m.id (answer m)) e).now = e.now := by
  induction members generalizing e with
  | nil => rfl
  | cons m rest ih => rw [List.foldl_cons, ih, Engine.now_perform]

theorem rate_foldl (answer : Member → List Action) (members : List Member) (e : Engine) :
    (members.foldl (fun e m => e.perform m.id (answer m)) e).ticksPerSecond =
      e.ticksPerSecond := by
  induction members generalizing e with
  | nil => rfl
  | cons m rest ih => rw [List.foldl_cons, ih, Engine.rate_perform]

theorem of_flatMap_entries_other {id : Nat} (played : Member → List Played) {members : List Member}
    (h : ∀ m ∈ members, m.id ≠ id) :
    Ledger.of (members.flatMap fun m => Ledger.entries m.id (played m)) id = [] := by
  induction members with
  | nil => rfl
  | cons m rest ih =>
    rw [List.flatMap_cons, Ledger.of_append, ih fun x hx => h x (List.mem_cons_of_mem _ hx),
      Ledger.of_entries_other (h m List.mem_cons_self)]
    rfl

/-- Numbers are distinct, so in a call to all each part gets one answer, its own. -/
theorem part_callAll_self (hs : s.directory.Sound) (c : Call)
    (hmem : member ∈ s.directory.members) :
    (s.callAll c).part member.id = ⟨some (member.player.respond s.engine.moment c).1,
        (s.engine.queue.agenda member.id).perform s.engine.now
          (member.player.respond s.engine.moment c).2⟩ ∧
      Ledger.of (s.directory.members.flatMap fun m =>
        Ledger.entries m.id (atOnce s.engine.now (m.player.respond s.engine.moment c).2))
        member.id = atOnce s.engine.now (member.player.respond s.engine.moment c).2 := by
  obtain ⟨before, after, hsplit⟩ := List.append_of_mem hmem
  have hbefore := fun x hx => ne_id_of_mem_before hs hsplit (x := x) hx
  have hafter := fun x hx => ne_id_of_mem_after hs hsplit (x := x) hx
  have hplayer : (s.callAll c).player? member.id =
      some (member.player.respond s.engine.moment c).1 :=
    player?_of_mem (sound_callAll hs c) (List.mem_map_of_mem hmem)
  have hagenda : (s.callAll c).engine.queue.agenda member.id =
      (s.engine.queue.agenda member.id).perform s.engine.now
        (member.player.respond s.engine.moment c).2 := by
    show (s.directory.members.foldl (fun e x => e.perform x.id
      (x.player.respond s.engine.moment c).2) s.engine).queue.agenda member.id = _
    rw [hsplit, List.foldl_append, List.foldl_cons, agenda_foldl_other _ hafter,
      Engine.agenda_perform_self, agenda_foldl_other _ hbefore, now_foldl]
  refine ⟨by rw [part, hplayer, hagenda], ?_⟩
  rw [hsplit, List.flatMap_append, List.flatMap_cons, Ledger.of_append, Ledger.of_append,
    of_flatMap_entries_other _ hbefore, of_flatMap_entries_other _ hafter,
    Ledger.of_entries_self, List.nil_append, List.append_nil]

theorem part_callAll_other (c : Call) {id : Nat} (h : ∀ m ∈ s.directory.members, m.id ≠ id) :
    (s.callAll c).part id = s.part id ∧
      Ledger.of (s.directory.members.flatMap fun m =>
        Ledger.entries m.id (atOnce s.engine.now (m.player.respond s.engine.moment c).2)) id =
        [] := by
  have hplayer : (s.callAll c).player? id = s.player? id := by
    rw [player?_eq_none_iff.mpr h, player?_eq_none_iff]
    intro m hm
    obtain ⟨old, hold, rfl⟩ := List.mem_map.mp hm
    exact h old hold
  have hagenda : (s.callAll c).engine.queue.agenda id = s.engine.queue.agenda id :=
    agenda_foldl_other _ h _
  exact ⟨by rw [part, hplayer, hagenda]; rfl, of_flatMap_entries_other _ h⟩

theorem asked_callAll (hs : s.directory.Sound) (c : Call) (id : Nat) :
    Part.Asked s.engine.moment c (s.player? id).isSome (s.part id)
      (Ledger.of (s.directory.members.flatMap fun m =>
        Ledger.entries m.id (atOnce s.engine.now (m.player.respond s.engine.moment c).2)) id)
      ((s.callAll c).part id) := by
  by_cases h : ∃ m ∈ s.directory.members, m.id = id
  · obtain ⟨m, hm, rfl⟩ := h
    obtain ⟨hpart, hplayed⟩ := part_callAll_self hs c hm
    rw [hpart, hplayed, part_of_mem hs hm, player?_of_mem hs hm]
    exact .answers _ _
  · have hnone : ∀ m ∈ s.directory.members, m.id ≠ id := fun m hm hid => h ⟨m, hm, hid⟩
    obtain ⟨hpart, hplayed⟩ := part_callAll_other c hnone
    rw [hpart, hplayed, player?_eq_none_iff.mpr hnone]
    exact .passed _

/-! ### Additions -/

/-- A new player comes at the number that was the next one, and plays nothing yet. -/
structure Arrives (s : Stage) (mv : Move) : Prop where
  moved : (s.move mv).directory.nextId = s.directory.nextId + 1
  part : ∃ d config rate, PlayerDef.problem? d = none ∧
    (s.move mv).part s.directory.nextId =
      ⟨some (Player.make d config rate), s.engine.queue.agenda s.directory.nextId⟩
  played : (s.ledger mv).of s.directory.nextId = []

/-- Its number is new, so the removal before it is not about it. -/
theorem part_joined_new (hs : s.directory.Sound) (name : String) (d : PlayerDef) :
    ((s.remove name).joined name d).part s.directory.nextId =
        ⟨some (Player.make d s.directory.config s.engine.ticksPerSecond),
          s.engine.queue.agenda s.directory.nextId⟩ ∧
      (s.askLedger (fun m => m.name == name) .dismiss).of s.directory.nextId = [] := by
  have hnone : s.part s.directory.nextId = ⟨none, s.engine.queue.agenda s.directory.nextId⟩ := by
    rw [part, player?_of_le hs (Nat.le_refl _)]
  have hstep : Part.Step s.engine.moment (fun _ => True) (s.part s.directory.nextId) _ _ :=
    (dismissed_remove hs name s.directory.nextId).step
  obtain ⟨hplayed, hremoved⟩ := Part.Step.of_none (hnone ▸ hstep)
  have hplayer := player?_joined_new (sound_remove hs name) name d
  rw [nextId_remove, config_remove, rate_remove] at hplayer
  refine ⟨?_, hplayed⟩
  rw [part, hplayer]
  exact congrArg (Part.mk _) (congrArg Part.agenda hremoved)

theorem part_joined_other (name : String) (d : PlayerDef) {id : Nat}
    (h : id ≠ s.directory.nextId) :
    ((s.remove name).joined name d).part id = (s.remove name).part id := by
  rw [part, player?_joined_other name d (by rwa [nextId_remove])]
  rfl

theorem step_add (hs : s.directory.Sound) (name : String) (d : PlayerDef) :
    ((s.move (.add name d)).directory.nextId = s.directory.nextId ∧ ∀ id,
      Part.Step s.engine.moment allowed (s.part id) ((s.ledger (.add name d)).of id)
        ((s.move (.add name d)).part id)) ∨
    (s.Arrives (.add name d) ∧ ∀ id, id ≠ s.directory.nextId →
      Part.Step s.engine.moment allowed (s.part id) ((s.ledger (.add name d)).of id)
        ((s.move (.add name d)).part id)) := by
  rcases move_add hs name d with ⟨hmove, hledger⟩ | ⟨hvalid, hmove, hledger⟩
  · rw [hmove, hledger]
    exact .inl ⟨rfl, fun id => .stays _⟩
  · obtain ⟨hpart, hplayed⟩ := part_joined_new hs name d
    refine .inr ⟨⟨?_, ⟨d, _, _, hvalid, hmove ▸ hpart⟩, hledger ▸ hplayed⟩, fun id hid => ?_⟩
    · rw [hmove, ← s.nextId_remove name]
      rfl
    · rw [hledger, hmove, part_joined_other name d hid]
      exact (dismissed_remove hs name id).step

/-! ### Moves of every kind -/

theorem queue_use (e : Engine) (u : EngineUse) : (e.use u).queue = e.queue := by
  cases u <;> rfl

/-- A move other than a delivery is a step of every part, or brings a new one. -/
theorem part_move (hs : s.directory.Sound) {mv : Move} (hmv : mv.Calls allowed) :
    ((s.move mv).directory.nextId = s.directory.nextId ∧ ∀ id,
      Part.Step s.engine.moment allowed (s.part id) ((s.ledger mv).of id)
        ((s.move mv).part id)) ∨
    (s.Arrives mv ∧ ∀ id, id ≠ s.directory.nextId →
      Part.Step s.engine.moment allowed (s.part id) ((s.ledger mv).of id)
        ((s.move mv).part id)) := by
  cases mv with
  | call name c => exact .inl ⟨nextId_ask s _ c, fun id => (asked_ask hs _ _ id).step hmv⟩
  | wake player => exact .inl ⟨nextId_ask s _ .wake, fun id => (asked_ask hs _ _ id).step hmv⟩
  | report position => exact .inl ⟨rfl, fun id => (asked_callAll hs _ id).step hmv⟩
  | add name d => exact step_add hs name d
  | remove name => exact .inl ⟨s.nextId_remove name, fun id => (dismissed_remove hs name id).step⟩
  | use u =>
    refine .inl ⟨rfl, fun id => ?_⟩
    have hpart : (s.move (.use u)).part id = s.part id := by
      unfold part
      rw [move, queue_use]
      rfl
    rw [hpart]
    exact .stays _
  | table rules => exact .inl ⟨rfl, fun id => .stays _⟩
  | deliver limit => exact hmv.elim

/-- A callback that has left the queue wakes its player, and no other part changes. -/
theorem turn_callback (hs : s.directory.Sound) (player : Nat) {tick : Nat}
    (h : tick ≤ s.engine.now) :
    Part.Turn s.engine.moment ⟨s.player? player, ⟨tick, none⟩ :: s.engine.queue.agenda player⟩
        ((s.askLedger (fun m => m.id == player) .wake).of player)
        ((s.callId player .wake).part player) ∧
      ∀ id, player ≠ id → (s.askLedger (fun m => m.id == player) .wake).of id = [] ∧
        (s.callId player .wake).part id = s.part id := by
  unfold callId callId? ask? askLedger
  cases hask : Member.ask? (fun m => m.id == player) s.engine.moment .wake s.directory.members with
  | none =>
    have hnone : s.player? player = none := player?_eq_none_iff.mpr fun m hm => by
      simpa using Member.ask?_eq_none hask m hm
    refine ⟨?_, fun id hne => ⟨rfl, rfl⟩⟩
    show Part.Turn _ _ [] ⟨s.player? player, _⟩
    rw [hnone]
    exact .lost
  | some answer =>
    obtain ⟨before, member, after, hmem, hasked, -, rfl⟩ := Member.ask?_eq_some hask
    obtain rfl : member.id = player := by simpa using hasked
    refine ⟨?_, fun id hne => ⟨Ledger.of_entries_other hne _, part_answered_other hmem hne .wake⟩⟩
    show Part.Turn _ _ ((Ledger.entries _ _).of _)
      ((s.answered before member after .wake).part member.id)
    rw [player?_of_mem hs (mem_of_split hmem), part_answered_self hs hmem,
      Ledger.of_entries_self]
    exact .wakes h

/-- A delivery is the turn of the part that has the first item, and leaves the others alone. -/
theorem part_deliver (hs : s.directory.Sound) {limit : Nat} {item : Item} {popped : Engine}
    (h : s.engine.popDue? limit = some (item, popped)) :
    Part.Turn popped.moment (s.part item.player) ((s.ledger (.deliver limit)).of item.player)
        ((s.move (.deliver limit)).part item.player) ∧
      ∀ id, item.player ≠ id → (s.ledger (.deliver limit)).of id = [] ∧
        (s.move (.deliver limit)).part id = s.part id := by
  obtain ⟨hfirst, -, hpopped⟩ := Engine.popDue?_eq_some h
  have hqueue : popped.queue = s.engine.queue.rest := by rw [hpopped]
  have htick : item.tick ≤ popped.now := hpopped ▸ Nat.le_max_right _ _
  have hself : s.part item.player =
      ⟨s.player? item.player, item.slot :: popped.queue.agenda item.player⟩ := by
    rw [part, Queue.agenda_rest_self hfirst, hqueue]
  have hother : ∀ id, item.player ≠ id →
      Stage.part { s with engine := popped } id = s.part id := by
    intro id hne
    show Part.mk (s.player? id) (popped.queue.agenda id) = _
    rw [hqueue, Queue.agenda_rest_other hfirst hne]
    rfl
  rw [hself]
  obtain ⟨tick, serial, due⟩ := item
  simp only [move, ledger, h, deliver]
  cases due with
  | event player e =>
    refine ⟨?_, fun id hne => ⟨Ledger.of_entries_other hne [_], hother id hne⟩⟩
    have hof : Ledger.of [(player, Played.mk popped.now e true)] player = [⟨popped.now, e, true⟩] :=
      Ledger.of_entries_self player [_]
    exact hof ▸ .plays e htick
  | callback player =>
    obtain ⟨hturn, hrest⟩ := turn_callback (s := { s with engine := popped }) hs player htick
    exact ⟨hturn, fun id hne => ⟨(hrest id hne).1, (hrest id hne).2.trans (hother id hne)⟩⟩

end Stage

end MidiRig
