import MidiRig.Proofs.Stage.Life
import MidiRig.Proofs.Stage.Record
import MidiRig.Router.Basic

/-!
# What the router does to its stage

Rules that run make moves: effects call players and set what the engine holds, and what comes out
is sent. `Desk.rulesMoves` collects the moves in the order in which they are made, and
`Desk.stage_applyRules` says that the stage of the desk is the one they lead to. None of them wakes
a player or sets the clock.
-/

namespace MidiRig

namespace Desk

/-- What a tap calls for. -/
def tapMoves (config : RouterConfig) (d : Desk) (player : String) (beats : Float) : List Move :=
  if beats ≤ 0.0 then []
  else
    let engine := d.stage.engine
    let rule : TapRule := ⟨engine.ticksPerSecond, config.tapRatio, config.tapTimeout⟩
    let bpm := (((d.taps.get? player).getD .untapped).tap rule engine.now beats).2
    (bpm.map fun bpm => Move.call player (.tempo bpm)).toList

def effectMoves (config : RouterConfig) (d : Desk) (e : Event) : Effect → List Move
  | .counter _ _ => []
  | .setting name => [.use (.setting name e.value)]
  | .port effect port => [.use (.port effect port e.value)]
  | .play player => [.call player (.play e.value)]
  | .tempo player => [.call player (.tempo e.value)]
  | .record player => [.call player (.record e.value)]
  | .swing player => [.call player (.swing e.value)]
  | .groove player => [.call player (.groove [e.value, 1.0])]
  | .tap player => d.tapMoves config player e.value
  | .arpeggio player => [.call player (.add e)]
  | .loop player => [.call player (.add e)]

/-- Effects in turn, each on the event that the one before it leaves. -/
def effectsMoves (config : RouterConfig) (range : Option Route) (d : Desk) (e : Event) :
    List Effect → List Move
  | [] => []
  | effect :: rest =>
    let (after, left) := d.runEffect config range e effect
    d.effectMoves config e effect ++ effectsMoves config range after left rest

def releaseMoves (rule : Rule) (e : Event) : List Move :=
  rule.effects.filterMap fun effect =>
    match effect with
    | .arpeggio player | .loop player => some (.call player (.add e))
    | _ => none

def ruleMoves (config : RouterConfig) (d : Desk) (e : Event) (rule : Rule) : List Move :=
  let out := (rule.apply e).event
  (if rule.releases e then releaseMoves rule out
    else d.effectsMoves config rule.value out rule.effects) ++
  (d.applyRule config e rule).2.map fun sent => .use (.send sent false)

def rulesMoves (config : RouterConfig) (d : Desk) (e : Event) : List Rule → List Move
  | [] => []
  | rule :: rest =>
    d.ruleMoves config e rule ++ rulesMoves config (d.applyRule config e rule).1 e rest

theorem stage_tap (config : RouterConfig) (d : Desk) (player : String) (beats : Float) :
    (d.tap config player beats).stage = d.stage.run (d.tapMoves config player beats) := by
  unfold tap tapMoves
  by_cases h : beats ≤ 0.0
  · rw [if_pos h, if_pos h]
    rfl
  · rw [if_neg h, if_neg h]
    cases hbpm : (((d.taps.get? player).getD .untapped).tap
      ⟨d.stage.engine.ticksPerSecond, config.tapRatio, config.tapTimeout⟩ d.stage.engine.now
      beats).2 with
    | none => simp only [hbpm]; rfl
    | some bpm => simp only [hbpm]; rfl

theorem stage_runEffect (config : RouterConfig) (range : Option Route) (d : Desk) (e : Event)
    (effect : Effect) :
    (d.runEffect config range e effect).1.stage = d.stage.run (d.effectMoves config e effect) := by
  cases effect with
  | tap player => exact stage_tap config d player e.value
  | _ => rfl

theorem stage_runEffects (config : RouterConfig) (range : Option Route) (d : Desk) (e : Event)
    (effects : List Effect) :
    (effects.foldl (fun (d, e) effect => d.runEffect config range e effect) (d, e)).1.stage =
      d.stage.run (d.effectsMoves config range e effects) := by
  induction effects generalizing d e with
  | nil => rfl
  | cons effect rest ih =>
    rw [effectsMoves, Stage.run_append, ← stage_runEffect config range d e effect]
    exact ih _ _

theorem stage_runRelease (rule : Rule) (d : Desk) (e : Event) :
    (d.runRelease rule e).stage = d.stage.run (releaseMoves rule e) := by
  unfold runRelease releaseMoves
  induction rule.effects generalizing d with
  | nil => rfl
  | cons effect rest ih => cases effect <;> exact ih _

theorem stage_sends (d : Desk) (events : List Event) :
    (events.foldl send d).stage =
      d.stage.run (events.map fun sent => .use (.send sent false)) := by
  induction events generalizing d with
  | nil => rfl
  | cons e rest ih => exact ih (d.send e)

theorem stage_applyRule (config : RouterConfig) (d : Desk) (e : Event) (rule : Rule) :
    (d.applyRule config e rule).1.stage = d.stage.run (d.ruleMoves config e rule) := by
  unfold ruleMoves
  rw [Stage.run_append]
  by_cases h : rule.releases e
  · rw [if_pos h, ← stage_runRelease, applyRule, if_pos h]
    exact stage_sends _ _
  · rw [if_neg h, ← stage_runEffects, applyRule, if_neg h]
    exact stage_sends _ _

theorem stage_applyRules (config : RouterConfig) (d : Desk) (e : Event) (rules : List Rule) :
    (d.applyRules config e rules).1.stage = d.stage.run (d.rulesMoves config e rules) := by
  induction rules generalizing d with
  | nil => rfl
  | cons rule rest ih =>
    rw [rulesMoves, Stage.run_append, ← stage_applyRule]
    exact ih _

end Desk

namespace Router

/-- What a router does to handle an event: the engine gets it first, then the rules run. -/
def handleMoves (r : Router) (stage : Stage) (e : Event) : List Move :=
  let received := { stage with engine := stage.engine.send e true }
  .use (.send e true) ::
    (Desk.mk r.counters r.taps received).rulesMoves r.config e (r.matching e)

theorem stage_handle (r : Router) (stage : Stage) (e : Event) :
    (r.handle stage e).2.2 = stage.run (r.handleMoves stage e) := by
  unfold handle handleMoves
  exact Desk.stage_applyRules r.config _ e _

/-! ## Which moves these are -/

/-- What rules do: they call players, though never to wake them, set what the engine holds, and
send events that are not routed again. -/
def IsRuleMove : Move → Prop
  | .call _ c => c ≠ .wake
  | .use (.setting _ _) | .use (.port _ _ _) => True
  | .use (.send _ routed) => routed = false
  | _ => False

theorem IsRuleMove.makes {mv : Move} (h : IsRuleMove mv) (r : Conduct) (t : Stage) :
    t.Makes r false mv := by
  cases mv with
  | call name c =>
    refine ⟨?_, nofun⟩
    cases c with
    | wake => exact absurd rfl h
    | _ => trivial
  | use u => cases u <;> trivial
  | _ => exact h.elim

theorem IsRuleMove.leaves {mv : Move} (h : IsRuleMove mv) : mv.leaves false = false := by
  cases mv with
  | deliver limit => exact h.elim
  | use u => cases u <;> rfl
  | _ => rfl

theorem IsRuleMove.plain {mv : Move} (h : IsRuleMove mv) : mv.Plain := by
  cases mv with
  | use u =>
    cases u with
    | setting name value => trivial
    | port effect port value => trivial
    | send e routed => trivial
    | _ => exact h.elim
  | deliver limit => exact h.elim
  | _ => trivial

theorem IsRuleMove.keepsTable {mv : Move} (h : IsRuleMove mv) : mv.KeepsTable := by
  rintro rules rfl
  exact h

theorem isRuleMove_effectMoves {config : RouterConfig} {d : Desk} {e : Event} {effect : Effect}
    {mv : Move} (h : mv ∈ d.effectMoves config e effect) : IsRuleMove mv := by
  cases effect with
  | counter name increment => cases h
  | tap player =>
    change mv ∈ d.tapMoves config player e.value at h
    unfold Desk.tapMoves at h
    split at h
    · cases h
    · obtain ⟨bpm, -, rfl⟩ := by simpa using h
      exact nofun
  | setting name => rw [List.mem_singleton.mp h]; trivial
  | port effect port => rw [List.mem_singleton.mp h]; trivial
  | _ =>
    rw [List.mem_singleton.mp h]
    exact nofun

theorem isRuleMove_effectsMoves {config : RouterConfig} {range : Option Route}
    {effects : List Effect} {d : Desk} {e : Event} {mv : Move}
    (h : mv ∈ d.effectsMoves config range e effects) : IsRuleMove mv := by
  induction effects generalizing d e with
  | nil => cases h
  | cons effect rest ih =>
    rcases List.mem_append.mp h with h | h
    · exact isRuleMove_effectMoves h
    · exact ih h

theorem isRuleMove_ruleMoves {config : RouterConfig} {d : Desk} {e : Event} {rule : Rule}
    {mv : Move} (h : mv ∈ d.ruleMoves config e rule) : IsRuleMove mv := by
  rcases List.mem_append.mp h with h | h
  · split at h
    · obtain ⟨effect, -, heffect⟩ := List.mem_filterMap.mp h
      cases effect <;> cases heffect <;> exact nofun
    · exact isRuleMove_effectsMoves h
  · obtain ⟨sent, -, rfl⟩ := List.mem_map.mp h
    rfl

theorem isRuleMove_rulesMoves {config : RouterConfig} {rules : List Rule} {d : Desk} {e : Event}
    {mv : Move} (h : mv ∈ d.rulesMoves config e rules) : IsRuleMove mv := by
  induction rules generalizing d with
  | nil => cases h
  | cons rule rest ih =>
    rcases List.mem_append.mp h with h | h
    · exact isRuleMove_ruleMoves h
    · exact ih h

theorem keepsTable_handleMoves {router : Router} {stage : Stage} {e : Event} {mv : Move}
    (h : mv ∈ router.handleMoves stage e) : mv.KeepsTable := by
  rcases List.mem_cons.mp h with rfl | h
  · intro rules htable
    cases htable
  · exact (isRuleMove_rulesMoves h).keepsTable

/-! ## What they record -/

/-- Rules route nothing, and add to the record what is not to be routed. -/
structure Mutters (before after : Engine) : Prop where
  routed : after.routed = before.routed
  sent : ∃ new, after.sent = before.sent ++ new ∧ ∀ x ∈ new, x.routed = false

theorem Mutters.of_eq {e f : Engine} (hrouted : f.routed = e.routed) (hsent : f.sent = e.sent) :
    Mutters e f := ⟨hrouted, [], hsent.trans (List.append_nil _).symm, nofun⟩

theorem Mutters.refl (e : Engine) : Mutters e e := .of_eq rfl rfl

theorem Mutters.trans {e f g : Engine} (h : Mutters e f) (h' : Mutters f g) : Mutters e g := by
  obtain ⟨new, hnew, hunrouted⟩ := h.sent
  obtain ⟨more, hmore, hunrouted'⟩ := h'.sent
  refine ⟨h'.routed.trans h.routed, new ++ more, ?_, fun x hx => ?_⟩
  · rw [hmore, hnew, List.append_assoc]
  · exact (List.mem_append.mp hx).elim (hunrouted x) (hunrouted' x)

theorem mutters_act (e : Engine) (player : Nat) (x : Action) : Mutters e (e.act player x) := by
  cases x with
  | send event =>
    refine ⟨rfl, [⟨e.now, event, false⟩], rfl, fun x hx => ?_⟩
    rw [List.mem_singleton.mp hx]
  | _ => exact .of_eq rfl rfl

theorem mutters_perform (e : Engine) (player : Nat) (xs : List Action) :
    Mutters e (e.perform player xs) := by
  induction xs generalizing e with
  | nil => exact .refl e
  | cons x xs ih => exact (mutters_act e player x).trans (ih _)

theorem IsRuleMove.mutters {mv : Move} (h : IsRuleMove mv) (s : Stage) :
    Mutters s.engine (s.move mv).engine := by
  cases mv with
  | call name c =>
    show Mutters s.engine ((s.ask? _ c).getD s).engine
    cases hask : s.ask? (fun member => member.name == name) c with
    | none => exact .refl _
    | some t =>
      obtain ⟨_, _, _, -, -, -, rfl⟩ := Stage.ask?_eq_some hask
      exact mutters_perform _ _ _
  | use u =>
    cases u with
    | send event routed =>
      obtain rfl : routed = false := h
      exact mutters_act s.engine 0 (.send event)
    | setting name value => exact .of_eq rfl rfl
    | port effect port value => exact .of_eq rfl rfl
    | _ => exact h.elim
  | _ => exact h.elim

theorem mutters_run {moves : List Move} (h : ∀ mv ∈ moves, IsRuleMove mv) (s : Stage) :
    Mutters s.engine (s.run moves).engine := by
  induction moves generalizing s with
  | nil => exact .refl _
  | cons mv rest ih =>
    exact ((h mv List.mem_cons_self).mutters s).trans
      (ih (fun x hx => h x (List.mem_cons_of_mem _ hx)) _)

end Router

theorem Desk.mutters_applyRules (config : RouterConfig) (d : Desk) (e : Event) (rules : List Rule) :
    Router.Mutters d.stage.engine (d.applyRules config e rules).1.stage.engine := by
  rw [stage_applyRules]
  exact Router.mutters_run (fun _ hmv => Router.isRuleMove_rulesMoves hmv) _

end MidiRig
