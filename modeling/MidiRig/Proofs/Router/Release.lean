import MidiRig.Proofs.Router.Native

/-!
# Keys that are pressed are released

A key that goes through a rule must be let go through the same rule, or it would sound for ever.
Press and release take different ways through a rule: the value of a release is not looked at, it
is mapped as that of a key without velocity, and it reaches other effects. Channel and number go
the same way in both (`Rule.event_apply_release`), and no effect changes them
(`Desk.runEffects_event`). `Rig.tableOutputs` and `Rig.outputs` tell what the engine's table and the
router give for an event, each event with the rule that it comes from, and `owed` what has to
follow for the keys among that.
-/

namespace MidiRig

/-! ## Press and release through one rule -/

namespace Rule

variable {rule : Rule} {p u : Event}

theorem releases_of_kind (hp : p.kind = .note) : rule.releases p = false := by
  simp [releases, hp]

/-- Only rules for notes match a note. -/
theorem kind_of_applies (hp : p.kind = .note) (h : rule.applies p = true) : rule.kind = .note := by
  simp only [applies, releases_of_kind hp, Bool.or_false, Bool.and_eq_true,
    decide_eq_true_eq] at h
  exact h.1.1.1.trans hp

theorem releases_of_applies (hp : p.kind = .note) (hu : u.kind = .noteOff)
    (h : rule.applies p = true) : rule.releases u = true := by
  simp [releases, kind_of_applies hp h, hu]

/-- A rule that matches a key matches its release, whatever the values are. -/
theorem applies_release (hp : p.kind = .note) (hu : u.kind = .noteOff)
    (hchannel : u.channel = p.channel) (hnumber : u.number = p.number)
    (h : rule.applies p = true) : rule.applies u = true := by
  have hreleases := releases_of_applies hp hu h
  simp only [applies, Bool.and_eq_true] at h ⊢
  rw [hreleases, hchannel, hnumber]
  refine ⟨⟨⟨Bool.or_true _, h.1.1.2⟩, h.1.2⟩, ?_⟩
  -- there is no value to look at
  rw [if_neg (by simp)]
  cases rule.value <;> rfl

/-- What comes out has the kind that the rule aims at, unless it is a release. -/
theorem kind_apply (hp : p.kind = .note) : (rule.apply p).event.kind = rule.target := by
  have hmessage : rule.apply p = rule.applyMessage p := if_neg (by simp [hp, Kind.isTransport])
  simp only [hmessage, applyMessage, releases_of_kind hp, Bool.false_and, Bool.false_eq_true,
    if_false]
  split
  · next h => exact h.symm
  · rfl

theorem kind_lowByte {low : Event} (h : low ∈ (rule.apply p).lowByte) : low.kind = .control := by
  unfold apply at h
  split at h
  · cases h
  · obtain ⟨controller, -, rfl⟩ := Option.map_eq_some_iff.mp h
    rfl

/-- Between notes a release comes out on the channel and number on which the key comes out. -/
theorem event_apply_release (hp : p.kind = .note) (hu : u.kind = .noteOff)
    (hchannel : u.channel = p.channel) (hnumber : u.number = p.number)
    (hreleases : rule.releases u = true) (htarget : rule.target = .note) :
    (rule.apply u).event =
      Event.make .noteOff (rule.apply p).event.channel (rule.apply p).event.number 0.0 := by
  have hpress : rule.apply p = rule.applyMessage p := if_neg (by simp [hp, Kind.isTransport])
  have hrelease : rule.apply u = rule.applyMessage u := if_neg (by simp [hu, Kind.isTransport])
  simp only [hpress, hrelease, applyMessage, releases_of_kind hp, hreleases, htarget, hchannel,
    hnumber]
  rfl

end Rule

/-! ## What comes from which rule -/

/-- The note-offs that the keys among what has come out of rules are owed. -/
def owed (outputs : List (Rule × Event)) : List (Rule × Event) :=
  (outputs.filter fun x => x.2.isKeyDown).map fun x =>
    (x.1, Event.make .noteOff x.2.channel x.2.number 0.0)

theorem owed_append (xs ys : List (Rule × Event)) : owed (xs ++ ys) = owed xs ++ owed ys := by
  unfold owed
  rw [List.filter_append, List.map_append]

variable {p u : Event} {rule : Rule}

/-- What a rule gives for a key, with whichever value, and what it gives for the release. -/
theorem owed_event (hp : p.kind = .note) (hu : u.kind = .noteOff)
    (hchannel : u.channel = p.channel) (hnumber : u.number = p.number)
    (h : rule.applies p = true) (value : Float) :
    (owed [(rule, (rule.apply p).event.withValue value)]).Sublist
      [(rule, (rule.apply u).event)] := by
  cases hdown : ((rule.apply p).event.withValue value).isKeyDown with
  | false =>
    have hnone : owed [(rule, (rule.apply p).event.withValue value)] = [] := by simp [owed, hdown]
    rw [hnone]
    exact List.nil_sublist _
  | true =>
    have htarget : rule.target = .note := by
      simp only [Event.isKeyDown, Bool.and_eq_true, decide_eq_true_eq] at hdown
      exact (Rule.kind_apply hp).symm.trans hdown.1
    have hoff := Rule.event_apply_release hp hu hchannel hnumber
      (Rule.releases_of_applies hp hu h) htarget
    have hone : owed [(rule, (rule.apply p).event.withValue value)] =
        [(rule, (rule.apply u).event)] := by
      rw [hoff]
      simp only [owed, List.filter_singleton, hdown, cond_true, List.map_singleton]
      rfl
    rw [hone]

/-- A low byte is no key. -/
theorem owed_lowByte (rule : Rule) (p : Event) :
    owed ((rule.apply p).lowByte.toList.map fun event => (rule, event)) = [] := by
  unfold owed
  rw [List.map_eq_nil_iff, List.filter_eq_nil_iff]
  intro x hx
  obtain ⟨low, hlow, rfl⟩ := List.mem_map.mp hx
  simp [Event.isKeyDown, Rule.kind_lowByte (Option.mem_toList.mp hlow)]

/-- What the engine's table gives for an event. The rule added last is asked first. -/
def Engine.outputs (e : Engine) (event : Event) : List (Rule × Event) :=
  (e.native.reverse.filter fun rule => rule.applies event).map fun rule =>
    (rule, (rule.apply event).event)

theorem Engine.map_snd_outputs (e : Engine) (event : Event) :
    (e.outputs event).map Prod.snd = e.route event := by
  unfold outputs route
  rw [List.map_map]
  rfl

namespace Desk

/-- What rules that are applied in turn send themselves, apart from the players that they call. -/
def outputs (config : RouterConfig) (d : Desk) (e : Event) : List Rule → List (Rule × Event)
  | [] => []
  | rule :: rest =>
    let (after, sent) := d.applyRule config e rule
    sent.map (fun event => (rule, event)) ++ outputs config after e rest

variable (config : RouterConfig) (d : Desk) (e : Event)

/-- Effects change the value of an event at most. -/
theorem runEffect_event (range : Option Route) (effect : Effect) :
    ∃ value, (d.runEffect config range e effect).2 = e.withValue value := by
  cases effect with
  | counter name increment => exact ⟨_, rfl⟩
  | arpeggio player => exact ⟨_, rfl⟩
  | _ => exact ⟨e.value, rfl⟩

theorem runEffects_event (rule : Rule) :
    ∃ value, (d.runEffects config rule e).2 = e.withValue value := by
  unfold runEffects
  induction rule.effects generalizing d e with
  | nil => exact ⟨e.value, rfl⟩
  | cons effect rest ih =>
    obtain ⟨value, hvalue⟩ := runEffect_event config d e rule.value effect
    obtain ⟨last, hlast⟩ := ih (d.runEffect config rule.value e effect).1
      (d.runEffect config rule.value e effect).2
    exact ⟨last, hlast.trans (hvalue ▸ rfl)⟩

variable {p u : Event} {rule : Rule}

theorem sent_press (hp : p.kind = .note) :
    (d.applyRule config p rule).2 =
      (d.runEffects config rule (rule.apply p).event).2 :: (rule.apply p).lowByte.toList := by
  simp only [applyRule, Rule.releases_of_kind hp, Bool.false_eq_true, if_false]

theorem sent_release (hreleases : rule.releases u = true) :
    (d.applyRule config u rule).2 = (rule.apply u).event :: (rule.apply u).lowByte.toList := by
  simp only [applyRule, hreleases, if_true]

/-- At whichever desks a rule is applied to a key and to its release: what is owed for the one
comes out for the other. -/
theorem owed_applyRule {c c' : RouterConfig} (d d' : Desk) (hp : p.kind = .note)
    (hu : u.kind = .noteOff) (hchannel : u.channel = p.channel) (hnumber : u.number = p.number)
    (h : rule.applies p = true) :
    (owed ((d.applyRule c p rule).2.map fun event => (rule, event))).Sublist
      ((d'.applyRule c' u rule).2.map fun event => (rule, event)) := by
  obtain ⟨value, hvalue⟩ := runEffects_event c d (rule.apply p).event rule
  rw [sent_press c d hp, sent_release c' d' (Rule.releases_of_applies hp hu h), hvalue,
    List.map_cons, List.map_cons, ← List.singleton_append, owed_append, owed_lowByte,
    ← List.singleton_append (x := (rule, (rule.apply u).event))]
  exact (owed_event hp hu hchannel hnumber h value).append (List.nil_sublist _)

/-- The rules that match a key are among those that match its release, in the same order. -/
theorem owed_outputs {c c' : RouterConfig} (hp : p.kind = .note) (hu : u.kind = .noteOff)
    (hchannel : u.channel = p.channel) (hnumber : u.number = p.number) (rules : List Rule)
    (d d' : Desk) :
    (owed (d.outputs c p (rules.filter fun rule => rule.applies p))).Sublist
      (d'.outputs c' u (rules.filter fun rule => rule.applies u)) := by
  induction rules generalizing d d' with
  | nil => exact List.nil_sublist _
  | cons rule rest ih =>
    by_cases hpress : rule.applies p = true
    · have hrelease := Rule.applies_release hp hu hchannel hnumber hpress
      simp only [List.filter_cons, hpress, hrelease, if_true]
      rw [outputs, outputs, owed_append]
      exact (owed_applyRule d d' hp hu hchannel hnumber hpress).append (ih _ _)
    · simp only [List.filter_cons, hpress, Bool.false_eq_true, if_false]
      split
      · exact (ih d _).trans (List.sublist_append_right _ _)
      · exact ih d d'

/-! ### What is recorded -/

theorem sent_sends (events : List Event) :
    ((events.foldl send d).stage.engine.sent).map Sent.event =
      d.stage.engine.sent.map Sent.event ++ events := by
  induction events generalizing d with
  | nil => exact (List.append_nil _).symm
  | cons event rest ih =>
    have hsend : (d.send event).stage.engine.sent.map Sent.event =
        d.stage.engine.sent.map Sent.event ++ [event] := List.map_append
    rw [List.foldl_cons, ih, hsend, List.append_assoc]
    rfl

/-- What a rule sends itself is recorded last, behind what the players send that it calls. -/
theorem suffix_sentBy (rule : Rule) : (d.applyRule config e rule).2 <:+ d.sentBy config e rule := by
  have hsame : (d.applyRule config e rule).2 = (d.blank.applyRule config e rule).2 := by
    have hafter := applyRule_after config d.blank d.stage.engine.record e rule
    rw [after_record] at hafter
    rw [hafter]
  rw [sentBy_eq, hsame]
  unfold applyRule
  rw [sent_sends]
  exact List.suffix_append _ _

theorem sublist_firings (rules : List Rule) :
    ((d.outputs config e rules).map Prod.snd).Sublist
      ((d.firings config e rules).flatMap Prod.snd) := by
  induction rules generalizing d with
  | nil => exact .refl _
  | cons rule rest ih =>
    have hmap : ((d.applyRule config e rule).2.map fun event => (rule, event)).map Prod.snd =
        (d.applyRule config e rule).2 := by
      rw [List.map_map]
      exact List.map_id' _
    rw [outputs, firings, List.map_append, List.flatMap_cons, hmap]
    exact (suffix_sentBy config d e rule).sublist.append (ih _)

end Desk

/-! ## Router and engine -/

namespace Rig

/-- What the engine's table gives for an event, with the rules that it comes from. -/
def tableOutputs (g : Rig) (e : Event) : List (Rule × Event) := g.stage.engine.outputs e

/-- What the router's rules send for an event, with the rules that it comes from. -/
def outputs (g : Rig) (e : Event) : List (Rule × Event) :=
  (g.desk e).outputs g.router.config e (g.router.matching e)

variable {g h : Rig} {p u : Event}

theorem owed_tableOutputs (htable : h.stage.engine.native = g.stage.engine.native)
    (hp : p.kind = .note) (hu : u.kind = .noteOff) (hchannel : u.channel = p.channel)
    (hnumber : u.number = p.number) : (owed (g.tableOutputs p)).Sublist (h.tableOutputs u) := by
  unfold tableOutputs Engine.outputs
  rw [htable]
  induction g.stage.engine.native.reverse with
  | nil => exact .refl _
  | cons rule rest ih =>
    by_cases hpress : rule.applies p = true
    · have hrelease := Rule.applies_release hp hu hchannel hnumber hpress
      simp only [List.filter_cons, hpress, hrelease, if_true, List.map_cons]
      rw [← List.singleton_append, owed_append, ← List.singleton_append (x := (rule, _))]
      exact (owed_event hp hu hchannel hnumber hpress _).append ih
    · simp only [List.filter_cons, hpress, Bool.false_eq_true, if_false]
      split
      · exact ih.cons _
      · exact ih

theorem owed_outputs (hrules : h.router.rules = g.router.rules) (hp : p.kind = .note)
    (hu : u.kind = .noteOff) (hchannel : u.channel = p.channel) (hnumber : u.number = p.number) :
    (owed (g.outputs p)).Sublist (h.outputs u) := by
  unfold outputs Router.matching
  rw [hrules]
  exact Desk.owed_outputs hp hu hchannel hnumber _ _ _

/-- That the outputs of a rig are what comes out of it: all that is routed, and of what is sent all
that the players have not sent. -/
structure Accounted (g : Rig) (e : Event) : Prop where
  routed : g.routes e = (g.tableOutputs e).map Prod.snd
  sent : ((g.outputs e).map Prod.snd).Sublist (g.sends e)

theorem accounted (g : Rig) (e : Event) : g.Accounted e := by
  refine ⟨?_, ?_⟩
  · rw [routes_eq]
    exact (g.stage.engine.map_snd_outputs e).symm
  · rw [sends_eq]
    exact Desk.sublist_firings g.router.config (g.desk e) e (g.router.matching e)

/-- While the rules stay as they are, a key that comes out of a rule is let go by the same rule: it
matches the release, and gives for it the note-off of that channel and number with value zero. -/
theorem routed_keys_released (hrules : h.router.rules = g.router.rules)
    (htable : h.stage.engine.native = g.stage.engine.native) (hp : p.isKeyDown = true)
    (hu : u.kind = .noteOff) (hchannel : u.channel = p.channel) (hnumber : u.number = p.number) :
    (∀ rule : Rule, rule.applies p = true → rule.applies u = true) ∧
      (owed (g.tableOutputs p)).Sublist (h.tableOutputs u) ∧
      (owed (g.outputs p)).Sublist (h.outputs u) ∧ g.Accounted p ∧ h.Accounted u := by
  have hnote : p.kind = .note := by
    simp only [Event.isKeyDown, Bool.and_eq_true, decide_eq_true_eq] at hp
    exact hp.1
  exact ⟨fun rule => Rule.applies_release hnote hu hchannel hnumber,
    owed_tableOutputs htable hnote hu hchannel hnumber,
    owed_outputs hrules hnote hu hchannel hnumber, accounted g p, accounted h u⟩

/-- A rule with effects, and one that the engine applies, both to other channels. The key is
handled, and then its release. -/
theorem routed_keys_released_two_rules :
    let moved (channel : Float) : Rule :=
      ⟨.note, .note, some (.fromTo 1.0 1.0 channel channel), none, none, none, none, []⟩
    let taped : Rule := { moved 2.0 with effects := [.setting "gain", .loop "tape"] }
    let p := Event.note 1 60 100.0
    let u := Event.noteOff 1 60
    let g := (start .default (.make 1000.0 .default)).run
      [.install taped .patch, .install (moved 3.0) .persistent]
    let h := g.step (.handle p)
    p.isKeyDown = true ∧ h.router.rules = g.router.rules ∧
      h.stage.engine.native = g.stage.engine.native ∧
      (owed (g.tableOutputs p)).length = 1 ∧ (owed (g.tableOutputs p)).Sublist (h.tableOutputs u) ∧
      (owed (g.outputs p)).length = 1 ∧ (owed (g.outputs p)).Sublist (h.outputs u) := by
  intro moved taped p u g h
  have hp : p.isKeyDown = true := by decide
  have hrules : h.router.rules = g.router.rules := rfl
  have htable : h.stage.engine.native = g.stage.engine.native := rfl
  obtain ⟨-, hengine, hrouter, -, -⟩ := routed_keys_released (u := u) hrules htable hp rfl rfl rfl
  exact ⟨hp, hrules, htable, by decide +kernel, hengine, by decide +kernel, hrouter⟩

end Rig

end MidiRig
