import MidiRig.Proofs.Router.Desk
import MidiRig.Proofs.Router.Table

/-!
# Native routing

Whether the engine or the router applies the rules that both could apply makes no difference that
can be heard. Two routers that differ in this alone, each on its own stage, are given the same rules
and events (`Rig.run`). The rules of one are split between engine and router, the other keeps them
all (`Rig.Keeps`); apart from record and table both stages stay alike (`Rig.Twins`). So both give
the same events and run the same effects (`Rig.Agree`).
-/

namespace MidiRig

/-- A router with the stage that it acts on. -/
structure Rig where
  router : Router
  stage : Stage

inductive RigOp where
  | install (rule : Rule) (scope : Scope)
  | clearPatch
  | reset
  | handle (e : Event)
  /-- Something else happens on the stage. -/
  | move (mv : Move)

/-- Only the router writes the engine's table. -/
def RigOp.KeepsTable : RigOp → Prop
  | .move mv => mv.KeepsTable
  | _ => True

namespace Rig

/-- No rules, and an empty table. -/
def start (config : RouterConfig) (stage : Stage) : Rig :=
  ⟨.make config, { stage with engine := stage.engine.clearNative }⟩

/-- Changes router and engine together. -/
def onRouter (g : Rig) (change : Router → Engine → Router × Engine) : Rig :=
  let (router, engine) := change g.router g.stage.engine
  ⟨router, { g.stage with engine }⟩

def step (g : Rig) : RigOp → Rig
  | .install rule scope => g.onRouter fun router engine => router.install engine rule scope
  | .clearPatch => g.onRouter Router.clearPatch
  | .reset => g.onRouter Router.reset
  | .handle e =>
    let (_, router, stage) := g.router.handle g.stage e
    ⟨router, stage⟩
  | .move mv => { g with stage := g.stage.move mv }

def run (g : Rig) (ops : List RigOp) : Rig := ops.foldl step g

end Rig

/-! ## Which rules stand -/

/-- What an operation does to the list of all rules. -/
def RigOp.stand (rules : List Installed) : RigOp → List Installed
  | .install rule scope => rules ++ Router.asInstalled scope (Router.parts rule)
  | .clearPatch => rules.filter fun installed => installed.scope = .persistent
  | .reset => []
  | .handle _ | .move _ => rules

/-- All rules that stand after some operations, in the order in which they were installed. -/
def RigOp.standing (ops : List RigOp) : List Installed := ops.foldl stand []

namespace Rig

variable {config : RouterConfig} {native : Bool} {rules : List Installed} {g : Rig}

/-- Of all rules the engine has those that it could apply, if it may. -/
structure Keeps (config : RouterConfig) (native : Bool) (rules : List Installed) (g : Rig) :
    Prop where
  config : g.router.config = { config with nativeRouting := native }
  own : g.router.rules = rules.filter fun installed =>
    !(native && installed.rule.isNativeEligible)
  native : g.router.native = rules.filter fun installed =>
    native && installed.rule.isNativeEligible
  fills : g.router.Fills g.stage.engine

theorem keeps_start (config : RouterConfig) (native : Bool) (stage : Stage) :
    (start { config with nativeRouting := native } stage).Keeps config native [] :=
  ⟨rfl, rfl, rfl, rfl⟩

theorem filter_asInstalled (scope : Scope) (p : Rule → Bool) (rules : List Rule) :
    (Router.asInstalled scope rules).filter (fun installed => p installed.rule) =
      Router.asInstalled scope (rules.filter p) := by
  unfold Router.asInstalled
  rw [List.filter_map]
  rfl

theorem Keeps.install (h : g.Keeps config native rules) (rule : Rule) (scope : Scope) :
    (g.step (.install rule scope)).Keeps config native
      (RigOp.stand rules (.install rule scope)) := by
  have hpart : Router.isNative g.router.config =
      fun part => native && part.isNativeEligible := by
    rw [h.config]
    rfl
  refine ⟨h.config, ?_, ?_, Router.fills_install h.fills rule scope⟩
  · show (g.router.install g.stage.engine rule scope).1.rules = _
    rw [Router.rules_install, h.own, hpart, RigOp.stand, List.filter_append,
      filter_asInstalled scope fun part => !(native && part.isNativeEligible)]
  · show (g.router.install g.stage.engine rule scope).1.native = _
    rw [Router.native_install, h.native, hpart, RigOp.stand, List.filter_append,
      filter_asInstalled scope fun part => native && part.isNativeEligible]

theorem Keeps.clearPatch (h : g.Keeps config native rules) :
    (g.step .clearPatch).Keeps config native (RigOp.stand rules .clearPatch) := by
  refine ⟨h.config, ?_, ?_, Router.fills_clearPatch h.fills⟩
  · show g.router.rules.filter _ = _
    rw [h.own, RigOp.stand, List.filter_filter, List.filter_filter]
    exact List.filter_congr fun _ _ => Bool.and_comm _ _
  · show g.router.native.filter _ = _
    rw [h.native, RigOp.stand, List.filter_filter, List.filter_filter]
    exact List.filter_congr fun _ _ => Bool.and_comm _ _

theorem Keeps.of_stage {stage : Stage} {router : Router} (h : g.Keeps config native rules)
    (hconfig : router.config = g.router.config) (hrules : router.rules = g.router.rules)
    (hnative : router.native = g.router.native)
    (htable : stage.engine.native = g.stage.engine.native) :
    Keeps config native rules ⟨router, stage⟩ := by
  refine ⟨hconfig.trans h.config, hrules.trans h.own, hnative.trans h.native, ?_⟩
  unfold Router.Fills
  rw [hnative, htable]
  exact h.fills

theorem Keeps.step (h : g.Keeps config native rules) {op : RigOp} (hop : op.KeepsTable) :
    (g.step op).Keeps config native (op.stand rules) := by
  cases op with
  | install rule scope => exact h.install rule scope
  | clearPatch => exact h.clearPatch
  | reset => exact ⟨h.config, rfl, rfl, Router.fills_reset g.router g.stage.engine⟩
  | handle e =>
    refine h.of_stage rfl rfl rfl ?_
    show (g.router.handle g.stage e).2.2.engine.native = _
    rw [Router.stage_handle]
    exact Stage.native_run fun _ hmv => Router.keepsTable_handleMoves hmv
  | move mv => exact h.of_stage rfl rfl rfl (Stage.native_move hop)

theorem Keeps.run (h : g.Keeps config native rules) {ops : List RigOp}
    (hops : ∀ op ∈ ops, op.KeepsTable) :
    (g.run ops).Keeps config native (ops.foldl RigOp.stand rules) := by
  induction ops generalizing g rules with
  | nil => exact h
  | cons op rest ih =>
    exact ih (h.step (hops op List.mem_cons_self)) fun x hx => hops x (List.mem_cons_of_mem _ hx)

/-! ## What comes out of an event -/

/-- What the engine records as an event is handled. -/
def newSent (g : Rig) (e : Event) : List Sent :=
  (g.step (.handle e)).stage.engine.sent.drop g.stage.engine.sent.length

/-- What is sent, by rules and by the players that they call, and not routed. -/
def sends (g : Rig) (e : Event) : List Event :=
  ((g.newSent e).filter fun x => !x.routed).map Sent.event

/-- What the engine's own rules give. -/
def routes (g : Rig) (e : Event) : List Event :=
  (g.step (.handle e)).stage.engine.routed.drop g.stage.engine.routed.length

/-- Where the router applies its rules: the engine has got the event first. -/
def desk (g : Rig) (e : Event) : Desk :=
  ⟨g.router.counters, g.router.taps, { g.stage with engine := g.stage.engine.send e true }⟩

/-- The rules of the router that match, in turn, each with what is sent then. -/
def firings (g : Rig) (e : Event) : List (Rule × List Event) :=
  (g.desk e).firings g.router.config e (g.router.matching e)

/-- The effects that are run, in turn, each with the event that it is run on. -/
def trace (g : Rig) (e : Event) : List EffectRun :=
  (g.desk e).trace g.router.config e (g.router.matching e)

theorem engine_handle (g : Rig) (e : Event) :
    Router.Mutters (g.desk e).stage.engine (g.step (.handle e)).stage.engine :=
  Desk.mutters_applyRules g.router.config (g.desk e) e (g.router.matching e)

/-- What is sent is what the rules send, rule by rule. -/
theorem sends_eq (g : Rig) (e : Event) : g.sends e = (g.firings e).flatMap Prod.snd := by
  obtain ⟨sent, hsent, hevents⟩ :=
    (g.desk e).sent_applyRules g.router.config e (g.router.matching e)
  obtain ⟨new, hnew, hunrouted⟩ := (g.engine_handle e).sent
  have hsame : new = sent := List.append_cancel_left (hnew.symm.trans hsent)
  have hall : g.newSent e = ⟨g.stage.engine.now, e, true⟩ :: sent := by
    have hrecord : (g.step (.handle e)).stage.engine.sent =
        g.stage.engine.sent ++ (⟨g.stage.engine.now, e, true⟩ :: sent) := by
      rw [hnew, hsame]
      exact List.append_assoc _ [_] _
    unfold newSent
    rw [hrecord, List.drop_left]
  have hkept : (⟨g.stage.engine.now, e, true⟩ :: sent).filter (fun x => !x.routed) = sent := by
    refine (List.filter_cons_of_neg Bool.false_ne_true).trans (List.filter_eq_self.mpr ?_)
    intro x hx
    rw [hunrouted x (hsame ▸ hx)]
    rfl
  unfold sends
  rw [hall, hkept, hevents]
  rfl

/-- What the engine's own rules give is what its table gives for the event. -/
theorem routes_eq (g : Rig) (e : Event) : g.routes e = g.stage.engine.route e := by
  have hrouted : (g.step (.handle e)).stage.engine.routed =
      g.stage.engine.routed ++ g.stage.engine.route e := (g.engine_handle e).routed
  unfold routes
  rw [hrouted, List.drop_left]

theorem map_rule_filter (p : Rule → Bool) (rules : List Installed) :
    (rules.filter fun installed => p installed.rule).map Installed.rule =
      (rules.map Installed.rule).filter p := by
  rw [List.filter_map]
  rfl

/-- The table holds the newest rule first and is asked from its end, so rules give what they give in
the order in which they were installed. -/
theorem Keeps.routes_eq (h : g.Keeps config native rules) (e : Event) :
    g.routes e = ((rules.map Installed.rule).filter fun rule =>
      rule.applies e && (native && rule.isNativeEligible)).map
        fun rule => (rule.apply e).event := by
  have hfills : g.stage.engine.native = (g.router.native.map Installed.rule).reverse := h.fills
  rw [Rig.routes_eq, Engine.route, hfills, List.reverse_reverse, h.native,
    map_rule_filter fun rule => native && rule.isNativeEligible, List.filter_filter]

/-- The router applies what is left, in the same order. -/
theorem Keeps.matching_eq (h : g.Keeps config native rules) (e : Event) :
    g.router.matching e = ((rules.map Installed.rule).filter fun rule => rule.applies e).filter
      fun rule => !(native && rule.isNativeEligible) := by
  unfold Router.matching
  rw [h.own, map_rule_filter fun rule => !(native && rule.isNativeEligible), List.filter_filter,
    List.filter_filter]
  exact List.filter_congr fun _ _ => Bool.and_comm _ _

/-! ## Two rigs -/

variable {on off : Rig} {e : Event}

/-- Rigs that only differ in rules, record and table. -/
structure Twins (on off : Rig) : Prop where
  counters : on.router.counters = off.router.counters
  taps : on.router.taps = off.router.taps
  stage : on.stage.blank = off.stage.blank

theorem Twins.desk (h : Twins on off) (e : Event) : (on.desk e).blank = (off.desk e).blank := by
  unfold Rig.desk Desk.blank
  rw [h.counters, h.taps]
  exact congrArg (Desk.mk _ _) h.stage

/-- The router that leaves nothing to the engine applies all rules. -/
theorem Keeps.matching_all (hoff : off.Keeps config false rules) (e : Event) :
    off.router.matching e = (rules.map Installed.rule).filter fun rule => rule.applies e := by
  rw [hoff.matching_eq]
  exact List.filter_eq_self.mpr fun _ _ => rfl

/-- The other one applies all but those that the engine could apply. -/
theorem matching_thinned (hon : on.Keeps config true rules) (hoff : off.Keeps config false rules) :
    on.router.matching e = (off.router.matching e).filter fun rule => !rule.isNativeEligible := by
  rw [hon.matching_eq, hoff.matching_all]
  rfl

theorem handle_thinned (h : Twins on off) (hon : on.Keeps config true rules)
    (hoff : off.Keeps config false rules) :
    ((on.desk e).applyRules on.router.config e (on.router.matching e)).1.blank =
        ((off.desk e).applyRules off.router.config e (off.router.matching e)).1.blank ∧
      on.firings e = (off.firings e).filter (fun f => !f.1.isNativeEligible) ∧
      on.trace e = off.trace e := by
  have hconfig : Desk.runEffect on.router.config = Desk.runEffect off.router.config := by
    rw [hon.config, hoff.config]
    exact Desk.runEffect_nativeRouting config true false
  unfold firings trace
  rw [matching_thinned hon hoff]
  exact Desk.thinned hconfig e (off.router.matching e) (h.desk e)

theorem Twins.handle (h : Twins on off) (hon : on.Keeps config true rules)
    (hoff : off.Keeps config false rules) :
    Twins (on.step (.handle e)) (off.step (.handle e)) := by
  have hdesk := (handle_thinned (e := e) h hon hoff).1
  have hcounters := congrArg Desk.counters hdesk
  have htaps := congrArg Desk.taps hdesk
  have hstage := congrArg Desk.stage hdesk
  exact ⟨hcounters, htaps, hstage⟩

/-- Changes of the rules leave everything else on the stage as it is. -/
theorem blank_onRouter (g : Rig) {change : Router → Engine → Router × Engine}
    (h : ∀ router engine, (change router engine).2.blank = engine.blank) :
    (g.onRouter change).stage.blank = g.stage.blank :=
  congrArg (fun engine => ({ g.stage with engine } : Stage)) (h g.router g.stage.engine)

theorem Twins.step (h : Twins on off) (hon : on.Keeps config true rules)
    (hoff : off.Keeps config false rules) (op : RigOp) : Twins (on.step op) (off.step op) := by
  have hchange : ∀ {change : Router → Engine → Router × Engine},
      (∀ router engine, (change router engine).2 =
        { engine with native := (change router engine).2.native }) →
      (on.onRouter change).stage.blank = (off.onRouter change).stage.blank := by
    intro change hengine
    have hblank : ∀ router engine, (change router engine).2.blank = engine.blank := by
      intro router engine
      rw [hengine]
      rfl
    rw [blank_onRouter on hblank, blank_onRouter off hblank]
    exact h.stage
  cases op with
  | install rule scope =>
    exact ⟨h.counters, h.taps, hchange fun router engine => router.engine_install engine rule scope⟩
  | clearPatch => exact ⟨h.counters, h.taps, hchange Router.engine_clearPatch⟩
  | reset => exact ⟨h.counters, h.taps, hchange Router.engine_reset⟩
  | handle e => exact h.handle hon hoff
  | move mv =>
    refine ⟨h.counters, h.taps, ?_⟩
    show (on.stage.move mv).blank = (off.stage.move mv).blank
    rw [Stage.blank_move, h.stage, ← Stage.blank_move]

theorem Twins.run (h : Twins on off) (hon : on.Keeps config true rules)
    (hoff : off.Keeps config false rules) {ops : List RigOp} (hops : ∀ op ∈ ops, op.KeepsTable) :
    Twins (on.run ops) (off.run ops) := by
  induction ops generalizing on off rules with
  | nil => exact h
  | cons op rest ih =>
    have hop := hops op List.mem_cons_self
    exact ih (h.step hon hoff op) (hon.step hop) (hoff.step hop) fun x hx =>
      hops x (List.mem_cons_of_mem _ hx)

/-! ## Agreement -/

/-- That two rigs do the same with an event, where the engine of one applies some of the rules. -/
structure Agree (rules : List Rule) (on off : Rig) (e : Event) : Prop where
  /-- The same events come out, each as often. -/
  outputs : (on.routes e ++ on.sends e).Perm (off.sends e)
  unrouted : off.routes e = []
  /-- The same effects are run on the same events, in the same order, and lead to the same. -/
  effects : on.trace e = off.trace e
  twins : Twins (on.step (.handle e)) (off.step (.handle e))
  /-- The engine gives its events in the order of the rules. -/
  native : on.routes e = (rules.filter fun rule => rule.applies e && rule.isNativeEligible).map
    fun rule => (rule.apply e).event
  /-- Each router sends what its rules send, in the order of the rules; the one that splits them
  sends what the other sends for the rules that it keeps. -/
  sends_on : on.sends e = (on.firings e).flatMap Prod.snd
  sends_off : off.sends e = (off.firings e).flatMap Prod.snd
  rules_off : (off.firings e).map Prod.fst = rules.filter fun rule => rule.applies e
  firings : on.firings e = (off.firings e).filter fun f => !f.1.isNativeEligible

/-- What is filtered out, and what is not, is all there is. -/
theorem perm_flatMap_filter (p : Rule → Bool) (firings : List (Rule × List Event)) :
    ((firings.filter fun f => p f.1).flatMap Prod.snd ++
      (firings.filter fun f => !p f.1).flatMap Prod.snd).Perm (firings.flatMap Prod.snd) := by
  rw [← List.flatMap_append]
  exact (List.filter_append_perm (fun f => p f.1) firings).flatMap_right _

theorem Twins.agree (h : Twins on off) (hon : on.Keeps config true rules)
    (hoff : off.Keeps config false rules) (e : Event) :
    Agree (rules.map Installed.rule) on off e := by
  obtain ⟨-, hfirings, htrace⟩ := handle_thinned (e := e) h hon hoff
  have hroutes : on.routes e = ((rules.map Installed.rule).filter fun rule =>
      rule.applies e && rule.isNativeEligible).map fun rule => (rule.apply e).event :=
    hon.routes_eq e
  -- what the engine gives is what the other router sends for the same rules
  have hnative : on.routes e =
      ((off.firings e).filter fun f => f.1.isNativeEligible).flatMap Prod.snd := by
    unfold Rig.firings
    rw [hroutes, Desk.firings_of_isNativeEligible, hoff.matching_all, List.filter_filter]
    exact congrArg _ (List.filter_congr fun _ _ => Bool.and_comm _ _)
  refine ⟨?_, ?_, htrace, h.handle hon hoff, hroutes, on.sends_eq e, off.sends_eq e, ?_, hfirings⟩
  · rw [hnative, on.sends_eq, off.sends_eq, hfirings]
    exact perm_flatMap_filter Rule.isNativeEligible (off.firings e)
  · rw [hoff.routes_eq]
    simp
  · unfold Rig.firings
    rw [Desk.map_fst_firings, hoff.matching_all]

/-- Whatever rules are installed and removed, and whatever happens on the stages in between: with
and without native routing every event has the same outcome. -/
theorem native_routing_agrees (config : RouterConfig) (stage : Stage) {ops : List RigOp}
    (hops : ∀ op ∈ ops, op.KeepsTable) (e : Event) :
    Agree ((RigOp.standing ops).map Installed.rule)
      ((start { config with nativeRouting := true } stage).run ops)
      ((start { config with nativeRouting := false } stage).run ops) e := by
  have hon := (keeps_start config true stage).run hops
  have hoff := (keeps_start config false stage).run hops
  have htwins : Twins (start { config with nativeRouting := true } stage)
      (start { config with nativeRouting := false } stage) := ⟨rfl, rfl, rfl⟩
  exact (htwins.run (keeps_start config true stage) (keeps_start config false stage) hops).agree
    hon hoff e

/-- A rule that the engine could apply and one that it could not, on a controller. -/
theorem native_routing_agrees_two_rules :
    let plain : Rule := ⟨.control, .control, none, none, none, none, none, []⟩
    let gain : Rule := { plain with effects := [.setting "gain"] }
    let ops : List RigOp := [.install plain .patch, .install gain .persistent,
      .handle (Event.make .control (some 1) (some 7) 64.0)]
    let stage := Stage.make 1000.0 .default
    let on := (start { RouterConfig.default with nativeRouting := true } stage).run ops
    let off := (start { RouterConfig.default with nativeRouting := false } stage).run ops
    (∀ op ∈ ops, op.KeepsTable) ∧ on.router.native.length = 1 ∧ off.router.native.length = 0 ∧
      Agree [plain, gain] on off (Event.make .control (some 2) (some 7) 32.0) := by
  intro plain gain ops stage on off
  have hops : ∀ op ∈ ops, op.KeepsTable := by simp [ops, RigOp.KeepsTable]
  exact ⟨hops, rfl, rfl, native_routing_agrees .default stage hops _⟩

end Rig

end MidiRig
