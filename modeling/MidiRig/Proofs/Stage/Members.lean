import Mathlib.Data.List.Nodup
import MidiRig.Proofs.Engine.Agenda
import MidiRig.Stage.Basic

/-!
# The members of a stage

What calls, removals and additions do to the list of members and to the queue. A call changes one
member in its place (`Stage.answered`), a removal takes one out after its dismissal
(`Stage.without`), and a new member comes behind the others. `Directory.Sound` is what keeps
look-ups by name and by number unambiguous; each of the three keeps it.
-/

namespace MidiRig

/-! ## The first member of those asked for -/

theorem Member.ask?_eq_some {asked : Member → Bool} {m : Moment} {c : Call}
    {members : List Member} {answer : Answer}
    (h : Member.ask? asked m c members = some answer) :
    ∃ before member after, members = before ++ member :: after ∧ asked member = true ∧
      (∀ x ∈ before, asked x = false) ∧
      answer = ⟨member.id, (member.player.respond m c).2,
        before ++ { member with player := (member.player.respond m c).1 } :: after⟩ := by
  induction members generalizing answer with
  | nil => cases h
  | cons first rest ih =>
    unfold Member.ask? at h
    split at h
    · next hfirst =>
      cases h
      exact ⟨[], first, rest, rfl, hfirst, by simp, rfl⟩
    · next hfirst =>
      obtain ⟨inner, hinner, rfl⟩ := Option.map_eq_some_iff.mp h
      obtain ⟨before, member, after, rfl, hasked, hbefore, rfl⟩ := ih hinner
      refine ⟨first :: before, member, after, rfl, hasked, fun x hx => ?_, rfl⟩
      rcases List.mem_cons.mp hx with rfl | hx
      · exact Bool.not_eq_true _ ▸ hfirst
      · exact hbefore x hx

theorem Member.ask?_eq_none {asked : Member → Bool} {m : Moment} {c : Call}
    {members : List Member} (h : Member.ask? asked m c members = none) :
    ∀ x ∈ members, asked x = false := by
  induction members with
  | nil => intro x hx; cases hx
  | cons first rest ih =>
    unfold Member.ask? at h
    split at h
    · cases h
    · next hfirst =>
      intro x hx
      rcases List.mem_cons.mp hx with rfl | hx
      · exact Bool.not_eq_true _ ▸ hfirst
      · exact ih (Option.map_eq_none_iff.mp h) x hx

theorem Member.ask?_split {asked : Member → Bool} {m : Moment} {c : Call}
    {before after : List Member} {member : Member} (hbefore : ∀ x ∈ before, asked x = false)
    (h : asked member = true) :
    Member.ask? asked m c (before ++ member :: after) =
      some ⟨member.id, (member.player.respond m c).2,
        before ++ { member with player := (member.player.respond m c).1 } :: after⟩ := by
  induction before with
  | nil => exact if_pos h
  | cons first rest ih =>
    have hfirst := hbefore first List.mem_cons_self
    rw [List.cons_append, Member.ask?, hfirst, ih fun x hx => hbefore x (List.mem_cons_of_mem _ hx)]
    rfl

/-! ## Sound directories -/

/-- Names and numbers belong to one member each, and the number of the next player is a new one. -/
structure Directory.Sound (d : Directory) : Prop where
  ids : (d.members.map Member.id).Nodup
  names : d.names.Nodup
  known : ∀ m ∈ d.members, m.id < d.nextId

theorem Directory.sound_make (config : SequencerConfig) : (Directory.make config).Sound :=
  ⟨List.nodup_nil, List.nodup_nil, fun _ h => nomatch h⟩

/-- Two members of one name are the same. -/
theorem Directory.Sound.eq_of_name {d : Directory} (h : d.Sound) {x y : Member}
    (hx : x ∈ d.members) (hy : y ∈ d.members) (hxy : x.name = y.name) : x = y :=
  List.inj_on_of_nodup_map h.names hx hy hxy

theorem Directory.Sound.eq_of_id {d : Directory} (h : d.Sound) {x y : Member}
    (hx : x ∈ d.members) (hy : y ∈ d.members) (hxy : x.id = y.id) : x = y :=
  List.inj_on_of_nodup_map h.ids hx hy hxy

namespace Stage

variable {s t : Stage} {before after : List Member} {member : Member} {c : Call}

/-- The player of a number. -/
def player? (s : Stage) (id : Nat) : Option Player :=
  (s.directory.members.find? fun m => m.id == id).map Member.player

theorem player?_eq_none_iff {id : Nat} :
    s.player? id = none ↔ ∀ m ∈ s.directory.members, m.id ≠ id := by
  unfold player?
  rw [Option.map_eq_none_iff, List.find?_eq_none]
  simp

theorem player?_of_mem (hs : s.directory.Sound) (h : member ∈ s.directory.members) :
    s.player? member.id = some member.player := by
  unfold player?
  cases hfind : s.directory.members.find? fun m => m.id == member.id with
  | none =>
    have := List.find?_eq_none.mp hfind member h
    simp at this
  | some found =>
    have hid : found.id = member.id := by simpa using List.find?_some hfind
    rw [hs.eq_of_id (List.mem_of_find?_eq_some hfind) h hid]
    rfl

theorem find?_of_mem (hs : s.directory.Sound) (h : member ∈ s.directory.members) :
    s.directory.find? member.name = some member := by
  cases hfind : s.directory.find? member.name with
  | none =>
    have := List.find?_eq_none.mp hfind member h
    simp at this
  | some found =>
    have hname : found.name = member.name := by simpa using List.find?_some hfind
    rw [hs.eq_of_name (List.mem_of_find?_eq_some hfind) h hname]

theorem player?_of_le (hs : s.directory.Sound) {id : Nat} (h : s.directory.nextId ≤ id) :
    s.player? id = none := by
  rw [player?_eq_none_iff]
  intro m hm
  have := hs.known m hm
  omega

theorem exists_mem_of_player? {id : Nat} {p : Player} (h : s.player? id = some p) :
    ∃ m ∈ s.directory.members, m.id = id ∧ m.player = p := by
  obtain ⟨m, hm, rfl⟩ := Option.map_eq_some_iff.mp h
  exact ⟨m, List.mem_of_find?_eq_some hm, by simpa using List.find?_some hm, rfl⟩

/-! ## Calls -/

/-- After the member between `before` and `after` has answered a call. -/
def answered (s : Stage) (before : List Member) (member : Member) (after : List Member)
    (c : Call) : Stage :=
  { engine := s.engine.perform member.id (member.player.respond s.engine.moment c).2
    directory :=
      { s.directory with
        members := before ++
          { member with player := (member.player.respond s.engine.moment c).1 } :: after } }

theorem ask?_eq_some {asked : Member → Bool} (h : s.ask? asked c = some t) :
    ∃ before member after, s.directory.members = before ++ member :: after ∧
      asked member = true ∧ (∀ x ∈ before, asked x = false) ∧
      t = s.answered before member after c := by
  obtain ⟨answer, hanswer, rfl⟩ := Option.map_eq_some_iff.mp h
  obtain ⟨before, member, after, hmem, hasked, hbefore, rfl⟩ := Member.ask?_eq_some hanswer
  exact ⟨before, member, after, hmem, hasked, hbefore, rfl⟩

theorem ask?_eq_none {asked : Member → Bool} (h : s.ask? asked c = none) :
    ∀ x ∈ s.directory.members, asked x = false :=
  Member.ask?_eq_none (Option.map_eq_none_iff.mp h)

section Split

variable (hs : s.directory.Sound) (hmem : s.directory.members = before ++ member :: after)

include hmem

theorem mem_of_split : member ∈ s.directory.members := by
  rw [hmem]
  exact List.mem_append_right _ List.mem_cons_self

theorem sound_answered (hs : s.directory.Sound) :
    (s.answered before member after c).directory.Sound := by
  have hids := hs.ids
  have hnames := hs.names
  unfold Directory.names at hnames
  rw [hmem] at hids hnames
  refine ⟨by simpa [answered] using hids, by simpa [answered, Directory.names] using hnames, ?_⟩
  intro m hm
  rcases List.mem_append.mp hm with hm | hm
  · exact hs.known m (by rw [hmem]; exact List.mem_append_left _ hm)
  rcases List.mem_cons.mp hm with rfl | hm
  · exact hs.known member (mem_of_split hmem)
  · exact hs.known m (by rw [hmem]; simp [hm])

include hs

theorem ne_id_of_mem_before {x : Member} (hx : x ∈ before) : x.id ≠ member.id := by
  have hids := hs.ids
  rw [hmem, List.map_append, List.nodup_append] at hids
  exact hids.2.2 _ (List.mem_map_of_mem hx) _ (by simp)

theorem ne_id_of_mem_after {x : Member} (hx : x ∈ after) : x.id ≠ member.id := by
  have hids := hs.ids
  rw [hmem, List.map_append, List.nodup_append, List.map_cons] at hids
  exact fun h => (List.nodup_cons.mp hids.2.1).1 (h ▸ List.mem_map_of_mem hx)

theorem player?_answered_self :
    (s.answered before member after c).player? member.id =
      some (member.player.respond s.engine.moment c).1 := by
  have hnew : { member with player := (member.player.respond s.engine.moment c).1 } ∈
      (s.answered before member after c).directory.members :=
    List.mem_append_right _ List.mem_cons_self
  exact player?_of_mem (sound_answered hmem hs) hnew

omit hs in
theorem player?_answered_other {id : Nat} (h : member.id ≠ id) :
    (s.answered before member after c).player? id = s.player? id := by
  unfold player?
  rw [hmem]
  simp [answered, List.find?_append, h]

end Split

/-! ## Removals -/

/-- After the member between `before` and `after` has been dismissed and taken out. -/
def without (s : Stage) (before : List Member) (member : Member) (after : List Member) : Stage :=
  { engine := s.engine.perform member.id (member.player.respond s.engine.moment .dismiss).2
    directory := { s.directory with members := before ++ after } }

theorem remove_eq (s : Stage) (name : String) :
    (s.remove name = s ∧ name ∉ s.directory.names) ∨
      ∃ before member after, s.directory.members = before ++ member :: after ∧
        member.name = name ∧ (∀ x ∈ before, (x.name == name) = false) ∧
        s.remove name = s.without before member after := by
  unfold remove call call?
  cases h : s.ask? (fun m => m.name == name) .dismiss with
  | none =>
    have hnone := ask?_eq_none h
    refine .inl ⟨?_, fun hname => ?_⟩
    · have herase : s.directory.erase name = s.directory := by
        unfold Directory.erase
        rw [List.eraseP_of_forall_not fun m hm => by simp [hnone m hm]]
      show { s with directory := s.directory.erase name } = s
      rw [herase]
    · obtain ⟨m, hm, rfl⟩ := List.mem_map.mp hname
      have := hnone m hm
      simp at this
  | some t =>
    obtain ⟨before, member, after, hmem, hname, hbefore, rfl⟩ := ask?_eq_some h
    refine .inr ⟨before, member, after, hmem, by simpa using hname, hbefore, ?_⟩
    simp only [without, answered, Directory.erase, Option.getD_some]
    rw [List.eraseP_append_right _ fun m hm => by simp [hbefore m hm]]
    simp [hname]

section Split

variable (hmem : s.directory.members = before ++ member :: after)

include hmem

theorem sublist_without :
    (s.without before member after).directory.members.Sublist s.directory.members := by
  rw [hmem]
  exact (List.Sublist.refl before).append (List.sublist_cons_self member after)

theorem sound_without (hs : s.directory.Sound) :
    (s.without before member after).directory.Sound := by
  have hsub := sublist_without hmem
  exact ⟨hs.ids.sublist (hsub.map _), hs.names.sublist (hsub.map _),
    fun m hm => hs.known m (hsub.subset hm)⟩

theorem player?_without_self (hs : s.directory.Sound) :
    (s.without before member after).player? member.id = none := by
  rw [player?_eq_none_iff]
  intro m hm
  rcases List.mem_append.mp hm with hm | hm
  · exact ne_id_of_mem_before hs hmem hm
  · exact ne_id_of_mem_after hs hmem hm

theorem player?_without_other {id : Nat} (h : member.id ≠ id) :
    (s.without before member after).player? id = s.player? id := by
  unfold player?
  rw [hmem]
  simp [without, List.find?_append, h]

end Split

theorem sound_remove (hs : s.directory.Sound) (name : String) :
    (s.remove name).directory.Sound := by
  rcases s.remove_eq name with ⟨h, -⟩ | ⟨before, member, after, hmem, -, -, h⟩
  · rwa [h]
  · rw [h]
    exact sound_without hmem hs

theorem not_mem_names_remove (hs : s.directory.Sound) (name : String) :
    name ∉ (s.remove name).directory.names := by
  rcases s.remove_eq name with ⟨h, hname⟩ | ⟨before, member, after, hmem, rfl, -, h⟩
  · rwa [h]
  · have hnames := hs.names
    unfold Directory.names at hnames ⊢
    rw [hmem, List.map_append, List.map_cons] at hnames
    rw [h]
    show _ ∉ (before ++ after).map Member.name
    rw [List.map_append]
    exact (List.nodup_middle.mp hnames).notMem

/-! ## New members -/

/-- With a new member behind the others. -/
def joined (s : Stage) (name : String) (d : PlayerDef) : Stage :=
  { s with directory := s.directory.push name d s.engine.ticksPerSecond }

theorem sound_joined (hs : s.directory.Sound) {name : String} (hname : name ∉ s.directory.names)
    (d : PlayerDef) : (s.joined name d).directory.Sound := by
  refine ⟨?_, ?_, ?_⟩
  · show ((s.directory.members ++ [_]).map Member.id).Nodup
    rw [List.map_append, List.nodup_append]
    refine ⟨hs.ids, List.nodup_singleton _, fun a ha b hb hab => ?_⟩
    obtain ⟨m, hm, rfl⟩ := List.mem_map.mp ha
    have hb : b = s.directory.nextId := by simpa using hb
    have := hs.known m hm
    omega
  · show ((s.directory.members ++ [_]).map Member.name).Nodup
    rw [List.map_append, List.nodup_append]
    refine ⟨hs.names, List.nodup_singleton _, fun a ha b hb hab => hname ?_⟩
    have hb : b = name := by simpa using hb
    exact hb ▸ hab ▸ ha
  · intro m hm
    show m.id < s.directory.nextId + 1
    rcases List.mem_append.mp hm with hm | hm
    · have := hs.known m hm
      omega
    · rw [List.mem_singleton.mp hm]
      exact Nat.lt_succ_self _

theorem player?_joined_other (name : String) (d : PlayerDef) {id : Nat}
    (h : id ≠ s.directory.nextId) : (s.joined name d).player? id = s.player? id := by
  have hne : (s.directory.nextId == id) = false := beq_false_of_ne (Ne.symm h)
  unfold player?
  show ((s.directory.members ++ [_]).find? _).map _ = _
  rw [List.find?_append, List.find?_cons]
  simp [hne]

theorem player?_joined_new (hs : s.directory.Sound) (name : String) (d : PlayerDef) :
    (s.joined name d).player? s.directory.nextId =
      some (Player.make d s.directory.config s.engine.ticksPerSecond) := by
  have hold : s.directory.members.find? (fun m => m.id == s.directory.nextId) = none :=
    List.find?_eq_none.mpr fun m hm h => Nat.ne_of_lt (hs.known m hm) (by simpa using h)
  unfold player?
  show ((s.directory.members ++ [_]).find? _).map _ = _
  rw [List.find?_append, hold]
  simp

theorem nextId_ask (s : Stage) (asked : Member → Bool) (c : Call) :
    ((s.ask? asked c).getD s).directory.nextId = s.directory.nextId := by
  cases h : s.ask? asked c with
  | none => rfl
  | some t =>
    obtain ⟨_, _, _, -, -, -, rfl⟩ := ask?_eq_some h
    rfl

theorem nextId_remove (s : Stage) (name : String) :
    (s.remove name).directory.nextId = s.directory.nextId := by
  rcases s.remove_eq name with ⟨h, -⟩ | ⟨_, _, _, -, -, -, h⟩ <;> rw [h]; rfl

theorem config_ask (s : Stage) (asked : Member → Bool) (c : Call) :
    ((s.ask? asked c).getD s).directory.config = s.directory.config := by
  cases h : s.ask? asked c with
  | none => rfl
  | some t =>
    obtain ⟨_, _, _, -, -, -, rfl⟩ := ask?_eq_some h
    rfl

theorem config_remove (s : Stage) (name : String) :
    (s.remove name).directory.config = s.directory.config := config_ask s _ .dismiss

theorem rate_ask (s : Stage) (asked : Member → Bool) (c : Call) :
    ((s.ask? asked c).getD s).engine.ticksPerSecond = s.engine.ticksPerSecond := by
  cases h : s.ask? asked c with
  | none => rfl
  | some t =>
    obtain ⟨_, _, _, -, -, -, rfl⟩ := ask?_eq_some h
    exact Engine.rate_perform _ _ _

theorem rate_remove (s : Stage) (name : String) :
    (s.remove name).engine.ticksPerSecond = s.engine.ticksPerSecond := rate_ask s _ .dismiss

/-- A player is kept, refused, or made in place of the one that has its name. -/
theorem add_eq (s : Stage) (name : String) (d : PlayerDef) :
    (∃ member, s.directory.find? name = some member ∧ (member.definition == d) = true ∧
      s.add name d = .ok (member.id, s)) ∨
    (∃ problem, d.problem? = some problem ∧ s.add name d = .error (.player name problem)) ∨
    (d.problem? = none ∧ (∀ member, s.directory.find? name = some member →
        (member.definition == d) = false) ∧
      s.add name d = .ok (s.directory.nextId, (s.remove name).joined name d)) := by
  have hcreate : (∃ problem, d.problem? = some problem ∧
      s.create name d = .error (.player name problem)) ∨
      (d.problem? = none ∧
        s.create name d = .ok (s.directory.nextId, (s.remove name).joined name d)) := by
    unfold create PlayerDef.validate
    cases hproblem : d.problem? with
    | some problem => exact .inl ⟨problem, rfl, rfl⟩
    | none =>
      refine .inr ⟨rfl, ?_⟩
      show Except.ok ((s.remove name).directory.nextId, _) = _
      rw [nextId_remove]
      rfl
  unfold add
  cases hfind : s.directory.find? name with
  | none =>
    rcases hcreate with h | ⟨hvalid, h⟩
    · exact .inr (.inl h)
    · exact .inr (.inr ⟨hvalid, fun _ hmember => absurd hmember (by simp), h⟩)
  | some member =>
    by_cases hsame : (member.definition == d) = true
    · exact .inl ⟨member, rfl, hsame, if_pos hsame⟩
    · simp only [hsame, Bool.false_eq_true, if_false]
      rcases hcreate with h | ⟨hvalid, h⟩
      · exact .inr (.inl h)
      · refine .inr (.inr ⟨hvalid, fun found hfound => ?_, h⟩)
        cases hfound
        exact Bool.not_eq_true _ ▸ hsame

end Stage

end MidiRig
