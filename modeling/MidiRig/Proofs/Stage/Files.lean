import MidiRig.Proofs.Player.Files
import MidiRig.Proofs.Stage.Kept
import MidiRig.Proofs.Stage.Move

/-!
# Tracks that share the transport

There is one transport, and each track keeps for itself whether it plays. Nothing tells a track
that another one has taken the transport over, so the two come apart as soon as a track is started
while another plays. Where that does not happen (`Stage.Turns`), one track at most plays, and the
transport plays its file (`Stage.Tuned.run`). What is done to the others meanwhile does not reach
the file (`Stage.Tuned.spares_run`).
-/

namespace MidiRig

/-- Whether a use of the engine starts, stops or moves a file. -/
def EngineUse.movesFile : EngineUse → Bool
  | .filePlay _ | .fileStop | .fileSeek _ => true
  | .setTick _ | .send _ _ | .clearSent | .setting _ _ | .port _ _ _ | .resolution _
  | .fileTempo _ => false

theorem Engine.undisturbed_use (e : Engine) {u : EngineUse} (hu : u.movesFile = false) :
    e.transport.Undisturbed (e.use u).transport := by
  cases u <;> first | exact ⟨rfl, rfl, rfl⟩ | cases hu

namespace Stage

variable {s t : Stage} {mv : Move} {moves : List Move}

/-- Whether a call to a name starts a file. -/
def startsFile (s : Stage) (name : String) (c : Call) : Bool :=
  c.starts && s.directory.members.any fun m => m.name == name && m.player.isTrack

/-- A track is started only when no other one plays, and the transport is left to the players. -/
def Turns (s : Stage) : Move → Prop
  | .call name c => s.startsFile name c = true →
    ∀ m ∈ s.directory.members, m.name ≠ name → m.player.file? = none
  | .use u => u.movesFile = false
  | .wake _ | .report _ | .add _ _ | .remove _ | .table _ | .deliver _ => True

/-- The same of moves made in turn. -/
def TakesTurns (s : Stage) : List Move → Prop
  | [] => True
  | mv :: rest => s.Turns mv ∧ (s.move mv).TakesTurns rest

instance (s : Stage) : (mv : Move) → Decidable (s.Turns mv)
  | .call name c => inferInstanceAs (Decidable (s.startsFile name c = true →
    ∀ m ∈ s.directory.members, m.name ≠ name → m.player.file? = none))
  | .use u => inferInstanceAs (Decidable (u.movesFile = false))
  | .wake _ | .report _ | .add _ _ | .remove _ | .table _ | .deliver _ => .isTrue trivial

instance decidableTakesTurns (s : Stage) : (moves : List Move) → Decidable (s.TakesTurns moves)
  | [] => .isTrue trivial
  | mv :: rest =>
    have := (s.move mv).decidableTakesTurns rest
    inferInstanceAs (Decidable (s.Turns mv ∧ (s.move mv).TakesTurns rest))

/-! ## Answers -/

section Answers

variable {before after : List Member} {member : Member} {c : Call}

theorem mem_answered (hs : s.directory.Sound)
    (hmem : s.directory.members = before ++ member :: after) {x : Member}
    (hx : x ∈ (s.answered before member after c).directory.members) :
    x = { member with player := (member.player.respond s.engine.moment c).1 } ∨
      (x ∈ s.directory.members ∧ x.id ≠ member.id) := by
  rcases List.mem_append.mp hx with hx | hx
  · exact .inr ⟨by rw [hmem]; exact List.mem_append_left _ hx, ne_id_of_mem_before hs hmem hx⟩
  rcases List.mem_cons.mp hx with rfl | hx
  · exact .inl rfl
  · exact .inr ⟨by rw [hmem]; simp [hx], ne_id_of_mem_after hs hmem hx⟩

theorem transport_answered (s : Stage) (before : List Member) (member : Member)
    (after : List Member) (c : Call) :
    (s.answered before member after c).engine.transport =
      s.engine.transport.perform (member.player.respond s.engine.moment c).2 :=
  Engine.transport_perform _ _ _

/-- A player that plays no file leaves the transport alone, unless it is started. -/
theorem undisturbed_answered (hsilent : member.player.file? = none) (hc : c.starts = false) :
    s.engine.transport.Undisturbed (s.answered before member after c).engine.transport := by
  rw [transport_answered]
  exact Player.undisturbed_of_silent hsilent hc _ _

theorem undisturbed_call {name : String} (hc : c.starts = false)
    (hsilent : ∀ m ∈ s.directory.members, m.name = name → m.player.file? = none) :
    s.engine.transport.Undisturbed (s.call name c).engine.transport := by
  unfold call
  cases hcall : s.call? name c with
  | none => exact .refl _
  | some t =>
    obtain ⟨before, m, after, hmem, hname, -, rfl⟩ := ask?_eq_some hcall
    exact undisturbed_answered (hsilent m (mem_of_split hmem) (beq_iff_eq.mp hname)) hc

theorem undisturbed_remove {name : String}
    (hsilent : ∀ m ∈ s.directory.members, m.name = name → m.player.file? = none) :
    s.engine.transport.Undisturbed (s.remove name).engine.transport :=
  undisturbed_call (c := .dismiss) rfl hsilent

end Answers

/-! ## In tune -/

/-- The transport plays what a track says it plays, and one track at most says so. -/
structure Tuned (s : Stage) : Prop where
  sound : s.directory.Sound
  plays : ∀ m ∈ s.directory.members, ∀ path, m.player.file? = some path →
    s.engine.transport.Plays path
  one : ∀ m ∈ s.directory.members, ∀ n ∈ s.directory.members, m.player.file? ≠ none →
    n.player.file? ≠ none → m.id = n.id

namespace Tuned

/-- While no track plays there is nothing to be in tune with. -/
theorem of_silent (hs : s.directory.Sound)
    (h : ∀ m ∈ s.directory.members, m.player.file? = none) : s.Tuned := by
  refine ⟨hs, fun m hm path hfile => ?_, fun m hm n hn hfile => absurd (h m hm) hfile⟩
  rw [h m hm] at hfile
  cases hfile

/-- No other track plays. -/
theorem silent (h : s.Tuned) {m n : Member} (hm : m ∈ s.directory.members)
    (hfile : m.player.file? ≠ none) (hn : n ∈ s.directory.members) (hid : n.id ≠ m.id) :
    n.player.file? = none := by
  by_contra hplays
  exact hid (h.one n hn m hm hplays hfile)

/-- Those that play played before, and the transport has not been told otherwise. -/
theorem of_old (h : s.Tuned) (ht : t.directory.Sound)
    (hold : ∀ m ∈ t.directory.members, m.player.file? ≠ none →
      ∃ n ∈ s.directory.members, n.id = m.id ∧ n.player.file? = m.player.file?)
    (htransport : ∀ path, s.engine.transport.Plays path → t.engine.transport.Plays path) :
    t.Tuned := by
  refine ⟨ht, fun m hm path hfile => ?_, fun m hm n hn hmfile hnfile => ?_⟩
  · obtain ⟨x, hx, -, hxfile⟩ := hold m hm (by rw [hfile]; nofun)
    exact htransport path (h.plays x hx path (hxfile.trans hfile))
  · obtain ⟨x, hx, hxid, hxfile⟩ := hold m hm hmfile
    obtain ⟨y, hy, hyid, hyfile⟩ := hold n hn hnfile
    rw [← hxid, ← hyid]
    exact h.one x hx y hy (hxfile ▸ hmfile) (hyfile ▸ hnfile)

/-- None plays but this one. -/
theorem of_one (ht : t.directory.Sound) (x : Member)
    (hother : ∀ m ∈ t.directory.members, m = x ∨ m.player.file? = none)
    (hplays : ∀ path, x.player.file? = some path → t.engine.transport.Plays path) : t.Tuned := by
  refine ⟨ht, fun m hm path hfile => ?_, fun m hm n hn hmfile hnfile => ?_⟩
  · rcases hother m hm with rfl | hnone
    · exact hplays path hfile
    · rw [hnone] at hfile
      cases hfile
  · obtain rfl := (hother m hm).resolve_right hmfile
    obtain rfl := (hother n hn).resolve_right hnfile
    rfl

/-- The engine changes, and the transport does not. -/
theorem of_engine (h : s.Tuned) {e : Engine}
    (he : s.engine.transport.Undisturbed e.transport) : Tuned { s with engine := e } :=
  h.of_old h.sound (fun m hm _ => ⟨m, hm, rfl, rfl⟩) fun _ => he.plays

/-! ## One member answers a call -/

section Split

variable {before after : List Member} {member : Member} {c : Call}

theorem answered (h : s.Tuned) (hmem : s.directory.members = before ++ member :: after)
    (hturn : c.starts = true → member.player.isTrack = true →
      ∀ x ∈ s.directory.members, x.id ≠ member.id → x.player.file? = none) :
    (s.answered before member after c).Tuned := by
  have hmember := mem_of_split hmem
  have hsound := sound_answered (c := c) hmem h.sound
  have hmembers := fun x => mem_answered (c := c) (x := x) h.sound hmem
  have htransport := s.transport_answered before member after c
  have hdrives := member.player.drives_respond s.engine.moment c
  generalize hplayer : (member.player.respond s.engine.moment c).1 = q at hdrives hmembers
  generalize (member.player.respond s.engine.moment c).2 = xs at hdrives htransport
  -- those that play after it played before it
  have hold : q.file? = member.player.file? →
      ∀ x ∈ (s.answered before member after c).directory.members, x.player.file? ≠ none →
        ∃ y ∈ s.directory.members, y.id = x.id ∧ y.player.file? = x.player.file? := by
    intro hfile x hx _
    rcases hmembers x hx with rfl | ⟨hx, -⟩
    · exact ⟨member, hmember, rfl, hfile.symm⟩
    · exact ⟨x, hx, rfl, rfl⟩
  cases hdrives with
  | keeps hfile hxs =>
    refine h.of_old hsound (hold hfile) fun path hplays => ?_
    rw [htransport]
    exact (hxs _).plays hplays
  | moves position hp hq =>
    refine h.of_old hsound (hold (hq.trans hp.symm)) fun path hplays => ?_
    rw [htransport]
    exact hplays
  | stops hp hq =>
    refine of_silent hsound fun x hx => ?_
    rcases hmembers x hx with rfl | ⟨hx, hid⟩
    · exact hq
    · exact h.silent hmember (by rw [hp]; nofun) hx hid
  | @starts _ path tempo hc hp hq =>
    refine of_one hsound { member with player := q } (fun x hx => ?_) fun other hother => ?_
    · exact (hmembers x hx).imp_right fun ⟨hx, hid⟩ => hturn hc hp x hx hid
    · obtain rfl : path = other := Option.some.inj (hq.symm.trans hother)
      rw [htransport, Transport.perform_cons]
      exact (Transport.undisturbed_tempo _ tempo).plays ⟨rfl, rfl⟩

theorem without (h : s.Tuned) (hmem : s.directory.members = before ++ member :: after) :
    (s.without before member after).Tuned := by
  refine (h.answered (c := .dismiss) hmem nofun).of_old (sound_without hmem h.sound)
    (fun x hx _ => ⟨x, ?_, rfl, rfl⟩) fun _ => id
  exact List.Sublist.mem hx ((List.Sublist.refl before).append (List.sublist_cons_self _ after))

end Split

/-! ## Moves -/

/-- Calls to those that play no file change nothing when they report a position. -/
theorem report_silent {members : List Member} (hsilent : ∀ m ∈ members, m.player.file? = none)
    (moment : Moment) (position : Nat) (e : Engine) :
    members.foldl (fun e m =>
        e.perform m.id (m.player.respond moment (.fileTick position)).2) e = e ∧
      members.map (fun m =>
        { m with player := (m.player.respond moment (.fileTick position)).1 }) = members := by
  induction members with
  | nil => exact ⟨rfl, rfl⟩
  | cons m rest ih =>
    obtain ⟨hfold, hmap⟩ := ih fun x hx => hsilent x (List.mem_cons_of_mem _ hx)
    have hm := Player.respond_fileTick_of_silent (hsilent m List.mem_cons_self) moment position
    refine ⟨?_, ?_⟩
    · rw [List.foldl_cons, hm]
      exact hfold
    · rw [List.map_cons, hm, hmap]

/-- A report of the position is a call to the track that plays. -/
theorem report_eq (h : s.Tuned) {m : Member} (hm : m ∈ s.directory.members)
    (hfile : m.player.file? ≠ none) (position : Nat) :
    ∃ before after, s.directory.members = before ++ m :: after ∧
      s.callAll (.fileTick position) = s.answered before m after (.fileTick position) := by
  obtain ⟨before, after, hmem⟩ := List.append_of_mem hm
  have hsub : ∀ x ∈ before ++ after, x.player.file? = none := by
    intro x hx
    rcases List.mem_append.mp hx with hx | hx
    · exact h.silent hm hfile (by rw [hmem]; exact List.mem_append_left _ hx)
        (ne_id_of_mem_before h.sound hmem hx)
    · exact h.silent hm hfile (by rw [hmem]; simp [hx]) (ne_id_of_mem_after h.sound hmem hx)
  have hbefore := report_silent (fun x hx => hsub x (List.mem_append_left _ hx))
    s.engine.moment position
  have hafter := report_silent (fun x hx => hsub x (List.mem_append_right _ hx))
    s.engine.moment position
  refine ⟨before, after, hmem, ?_⟩
  unfold callAll Stage.answered
  simp only [hmem, List.foldl_append, List.foldl_cons, List.map_append, List.map_cons,
    (hbefore _).1, (hafter _).1, (hbefore s.engine).2, (hafter s.engine).2]

theorem report (h : s.Tuned) (position : Nat) : (s.callAll (.fileTick position)).Tuned := by
  by_cases hsilent : ∀ m ∈ s.directory.members, m.player.file? = none
  · obtain ⟨hfold, hmap⟩ := report_silent hsilent s.engine.moment position s.engine
    have hsame : s.callAll (.fileTick position) = s := by
      unfold callAll
      simp only [hfold, hmap]
    rwa [hsame]
  · obtain ⟨m, hm, hfile⟩ := not_forall₂.mp hsilent
    obtain ⟨before, after, hmem, heq⟩ := h.report_eq hm hfile position
    rw [heq]
    exact h.answered hmem nofun

theorem ask (h : s.Tuned) {asked : Member → Bool} {c : Call}
    (hturn : c.starts = true → ∀ m ∈ s.directory.members, asked m = true →
      m.player.isTrack = true → ∀ x ∈ s.directory.members, x.id ≠ m.id → x.player.file? = none) :
    ((s.ask? asked c).getD s).Tuned := by
  cases hask : s.ask? asked c with
  | none => exact h
  | some t =>
    obtain ⟨before, m, after, hmem, hm, -, rfl⟩ := ask?_eq_some hask
    exact h.answered hmem fun hc htrack => hturn hc m (mem_of_split hmem) hm htrack

/-- Calls other than to start need no turn. -/
theorem ask_quiet (h : s.Tuned) {c : Call} (hc : c.starts = false) (asked : Member → Bool) :
    ((s.ask? asked c).getD s).Tuned :=
  h.ask fun hstarts => absurd (hc.symm.trans hstarts) Bool.false_ne_true

theorem remove (h : s.Tuned) (name : String) : (s.remove name).Tuned := by
  rcases s.remove_eq name with ⟨heq, -⟩ | ⟨before, m, after, hmem, -, -, heq⟩
  · rwa [heq]
  · rw [heq]
    exact h.without hmem

theorem joined (h : s.Tuned) {name : String} (hname : name ∉ s.directory.names) (d : PlayerDef) :
    (s.joined name d).Tuned := by
  refine h.of_old (sound_joined h.sound hname d) (fun m hm hfile => ?_) fun _ => id
  rcases List.mem_append.mp hm with hm | hm
  · exact ⟨m, hm, rfl, rfl⟩
  · rw [List.mem_singleton.mp hm] at hfile
    exact absurd (Player.file?_make d _ _) hfile

/-- Tracks that take turns stay in tune with the transport. -/
theorem move (h : s.Tuned) (hmv : s.Turns mv) : (s.move mv).Tuned := by
  cases mv with
  | call name c =>
    refine h.ask fun hc m hm hname htrack x hx hid => hmv ?_ x hx fun hxname => hid ?_
    · exact Bool.and_eq_true_iff.mpr ⟨hc, List.any_eq_true.mpr ⟨m, hm, by simp_all⟩⟩
    · rw [h.sound.eq_of_name hx hm (hxname.trans (beq_iff_eq.mp hname).symm)]
  | wake id => exact h.ask_quiet rfl _
  | report position => exact h.report position
  | add name d =>
    rcases move_add h.sound name d with ⟨heq, -⟩ | ⟨-, heq, -⟩
    · rwa [heq]
    · rw [heq]
      exact (h.remove name).joined (not_mem_names_remove h.sound name) d
  | remove name => exact h.remove name
  | use u => exact h.of_engine (s.engine.undisturbed_use hmv)
  | table rules => exact h.of_engine (.refl _)
  | deliver limit =>
    cases hpop : s.engine.popDue? limit with
    | none => simpa only [Stage.move, hpop] using h
    | some found =>
      obtain ⟨⟨tick, serial, due⟩, popped⟩ := found
      obtain ⟨-, -, hpopped⟩ := Engine.popDue?_eq_some hpop
      rw [move_deliver hpop, hpopped]
      have hnext := h.of_engine (e := { s.engine.setTick tick with queue := s.engine.queue.rest })
        (.refl _)
      cases due with
      | event player e => exact hnext.of_engine (.refl _)
      | callback player => exact hnext.ask_quiet rfl _

theorem run (h : s.Tuned) (hmoves : s.TakesTurns moves) : (s.run moves).Tuned := by
  induction moves generalizing s with
  | nil => exact h
  | cons mv rest ih => exact ih (h.move hmoves.1) hmoves.2

end Tuned

end Stage

/-! ## Sparing the file that plays -/

/-- Moves that leave a member where it is, do not call it, and start no other: the others may be
stopped, dismissed, removed, replaced. -/
def Move.Spares (m : Member) : Move → Prop
  | .call name c => name ≠ m.name ∧ c.starts = false
  | .add name d => name ≠ m.name ∨ (m.definition == d) = true
  | .remove name => name ≠ m.name
  | .use u => u.movesFile = false
  | .report _ => False
  | .wake _ | .table _ | .deliver _ => True

namespace Stage

variable {s : Stage} {m : Member} {mv : Move} {moves : List Move}

theorem turns_of_spares (h : mv.Spares m) (s : Stage) : s.Turns mv := by
  cases mv with
  | call name c =>
    intro hstarts
    rw [startsFile, h.2] at hstarts
    cases hstarts
  | use u => exact h
  | _ => trivial

/-- A player that is added again as it is stays. -/
theorem move_add_same (hs : s.directory.Sound) (hm : m ∈ s.directory.members) {d : PlayerDef}
    (hsame : (m.definition == d) = true) : s.move (.add m.name d) = s := by
  simp only [move, add, find?_of_mem hs hm, hsame, if_true]

namespace Tuned

/-- A call to another, or a callback: the file goes on, and the track that plays it stays. -/
theorem spares_answered {before after : List Member} {member : Member} {c : Call} (h : s.Tuned)
    (hm : m ∈ s.directory.members) (hfile : m.player.file? ≠ none)
    (hmem : s.directory.members = before ++ member :: after)
    (hc : c.starts = false) (hother : member.id ≠ m.id ∨ c = .wake) :
    s.engine.transport.Undisturbed (s.answered before member after c).engine.transport ∧
      m ∈ (s.answered before member after c).directory.members := by
  have hmember := mem_of_split hmem
  by_cases hid : member.id = m.id
  · obtain rfl := hother.resolve_left fun hne => hne hid
    obtain rfl := h.sound.eq_of_id hmember hm hid
    have hwake := Player.respond_wake_of_file hfile s.engine.moment
    rw [transport_answered, hwake]
    refine ⟨.refl _, ?_⟩
    unfold Stage.answered
    simp only [hwake, List.mem_append, List.mem_cons, true_or, or_true]
  · refine ⟨undisturbed_answered (h.silent hm hfile hmember hid) hc, ?_⟩
    rw [hmem, List.mem_append, List.mem_cons] at hm
    rcases hm with hm | rfl | hm
    · exact List.mem_append_left _ hm
    · exact absurd rfl hid
    · exact List.mem_append_right _ (List.mem_cons_of_mem _ hm)

theorem spares_ask (h : s.Tuned) (hm : m ∈ s.directory.members) (hfile : m.player.file? ≠ none)
    {asked : Member → Bool} {c : Call} (hc : c.starts = false)
    (hother : (∀ x, asked x = true → x.name ≠ m.name) ∨ c = .wake) :
    s.engine.transport.Undisturbed ((s.ask? asked c).getD s).engine.transport ∧
      m ∈ ((s.ask? asked c).getD s).directory.members := by
  cases hask : s.ask? asked c with
  | none => exact ⟨.refl _, hm⟩
  | some t =>
    obtain ⟨before, x, after, hmem, hx, -, rfl⟩ := ask?_eq_some hask
    refine h.spares_answered hm hfile hmem hc (hother.imp_left fun hne hid => ?_)
    exact hne x hx (congrArg Member.name (h.sound.eq_of_id (mem_of_split hmem) hm hid))

theorem spares_remove (h : s.Tuned) (hm : m ∈ s.directory.members)
    (hfile : m.player.file? ≠ none) {name : String} (hname : name ≠ m.name) :
    s.engine.transport.Undisturbed (s.remove name).engine.transport ∧
      m ∈ (s.remove name).directory.members := by
  refine ⟨undisturbed_remove fun x hx hxname => ?_, (keeps_remove h.sound hm hname.symm).there⟩
  refine h.silent hm hfile hx fun hid => hname ?_
  rw [← hxname, h.sound.eq_of_id hx hm hid]

theorem spares_move (h : s.Tuned) (hm : m ∈ s.directory.members) (hfile : m.player.file? ≠ none)
    (hmv : mv.Spares m) :
    s.engine.transport.Undisturbed (s.move mv).engine.transport ∧
      m ∈ (s.move mv).directory.members := by
  cases mv with
  | call name c =>
    refine h.spares_ask hm hfile hmv.2 (.inl fun x hx => ?_)
    rw [beq_iff_eq.mp hx]
    exact hmv.1
  | wake id => exact h.spares_ask hm hfile rfl (.inr rfl)
  | report position => exact hmv.elim
  | add name d =>
    by_cases hname : name = m.name
    · rw [hname, move_add_same h.sound hm (hmv.resolve_left fun hne => hne hname)]
      exact ⟨.refl _, hm⟩
    rcases move_add h.sound name d with ⟨heq, -⟩ | ⟨-, heq, -⟩
    · rw [heq]
      exact ⟨.refl _, hm⟩
    · rw [heq]
      obtain ⟨hfirst, hthere⟩ := h.spares_remove hm hfile hname
      exact ⟨hfirst, List.mem_append_left _ hthere⟩
  | remove name => exact h.spares_remove hm hfile hmv
  | use u => exact ⟨s.engine.undisturbed_use hmv, hm⟩
  | table rules => exact ⟨.refl _, hm⟩
  | deliver limit =>
    cases hpop : s.engine.popDue? limit with
    | none =>
      simp only [Stage.move, hpop]
      exact ⟨.refl _, hm⟩
    | some found =>
      obtain ⟨⟨tick, serial, due⟩, popped⟩ := found
      obtain ⟨-, -, hpopped⟩ := Engine.popDue?_eq_some hpop
      rw [move_deliver hpop, hpopped]
      have hnext := h.of_engine (e := { s.engine.setTick tick with queue := s.engine.queue.rest })
        (.refl _)
      cases due with
      | event player e => exact ⟨.refl _, hm⟩
      | callback player => exact hnext.spares_ask hm hfile rfl (.inr rfl)

/-- However the others are called, removed and replaced, the file that plays goes on, and so does
the track that plays it. -/
theorem spares_run (h : s.Tuned) (hm : m ∈ s.directory.members) (hfile : m.player.file? ≠ none)
    (hmoves : ∀ mv ∈ moves, mv.Spares m) :
    s.engine.transport.Undisturbed (s.run moves).engine.transport ∧
      m ∈ (s.run moves).directory.members := by
  induction moves generalizing s with
  | nil => exact ⟨.refl _, hm⟩
  | cons mv rest ih =>
    have hmv := hmoves mv List.mem_cons_self
    obtain ⟨hfirst, hthere⟩ := h.spares_move hm hfile hmv
    obtain ⟨hrest, hlast⟩ := ih (h.move (turns_of_spares hmv s)) hthere fun x hx =>
      hmoves x (List.mem_cons_of_mem _ hx)
    exact ⟨hfirst.trans hrest, hlast⟩

end Tuned

end Stage

end MidiRig
