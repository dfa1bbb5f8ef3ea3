import MidiRig.Proofs.Number.Whole
import MidiRig.Proofs.Router.Native

/-!
# Rules for several channels

A rule whose channels are a span is installed as one rule for each channel in it. Its bounds may lie
between channels, and then they are rounded inward; the channels of events are whole numbers, so
for each event that the rule matches exactly one of the parts matches, and does the same
(`Rule.SameBut`). So it makes no difference whether a router takes rules apart or not, whatever is
installed and removed as events come in (`Rig.Spreads.run`, `Rig.channels_expand`).
-/

namespace MidiRig

open Binary64

/-! ## Channels of a route -/

namespace Route

variable {route : Route} {c d : ℤ}

/-- Both ends of the domain are numbers. -/
def Bounded (route : Route) : Prop := isFinite route.min = true ∧ isFinite route.max = true

/-- The channels in a span are the whole numbers between its bounds. -/
theorem contains_span (hbounded : route.Bounded) (hspan : route.isSpan = true) (hc : IsInt32 c) :
    route.contains (Float.ofInt c) = true ↔
      ceilInt64 route.min ≤ c ∧ c ≤ floorInt64 route.max := by
  obtain ⟨lo, hlo⟩ := isFinite_iff.mp hbounded.1
  obtain ⟨hi, hhi⟩ := isFinite_iff.mp hbounded.2
  have hvalue := has_ofInt (hc.small.trans (by norm_num))
  have hinclusive : ¬ route.isExclusion = true := by
    have hlt := (hlo.lt_iff hhi).mp (by simpa [isSpan] using hspan)
    simpa [isExclusion, hhi.lt_iff hlo] using hlt.le
  have hmin : minInt64 < minInt32 := by decide
  have hmax : maxInt32 < maxInt64 := by decide
  unfold contains
  rw [if_neg hinclusive, Bool.and_eq_true, decide_eq_true_iff, decide_eq_true_iff,
    hlo.le_iff hvalue, hvalue.le_iff hhi,
    hlo.ceilInt64_le_iff (hmin.trans_le hc.1).le (hc.2.trans_lt hmax),
    hhi.le_floorInt64_iff (hmin.trans_le hc.1) (hc.2.trans hmax.le)]

/-- A channel that has been pinned is that channel alone, also where it is too large for a double
to tell it from its neighbours. -/
theorem contains_pinned (hc : IsInt32 c) (hd : |d| ≤ 2 ^ 63) :
    (route.pinned (Float.ofInt d)).contains (Float.ofInt c) = true ↔ d = c := by
  have hvalue := has_ofInt (hc.small.trans (by norm_num))
  have hpin := has_ofInt_nearest (abs_intCast_lt_beyond (n := 63) (by norm_num) hd)
  have hinclusive : ¬ (route.pinned (Float.ofInt d)).isExclusion = true := by
    simp [isExclusion, pinned, hpin.lt_iff hpin]
  unfold contains
  rw [if_neg hinclusive, Bool.and_eq_true, decide_eq_true_iff, decide_eq_true_iff]
  show Float.ofInt d ≤ Float.ofInt c ∧ Float.ofInt c ≤ Float.ofInt d ↔ _
  rw [hpin.le_iff hvalue, hvalue.le_iff hpin, ← le_antisymm_iff, nearest_intCast_eq_iff hc.small]

end Route

/-! ## The parts of a rule -/

namespace Rule

variable {rule : Rule} {route : Route} {e : Event} {c d : ℤ}

/-- Whether the ends of the channels are numbers. -/
def Bounded (rule : Rule) : Prop := ∀ route, rule.channel = some route → route.Bounded

/-- A part for one channel. -/
def onChannel (rule : Rule) (route : Route) (c : ℤ) : Rule :=
  { rule with channel := some (route.pinned (Float.ofInt c)) }

theorem mem_between {first last : ℤ} : c ∈ between first last ↔ first ≤ c ∧ c ≤ last := by
  unfold between
  rw [List.mem_map]
  constructor
  · rintro ⟨i, hi, rfl⟩
    have := List.mem_range.mp hi
    omega
  · rintro ⟨hfirst, hlast⟩
    exact ⟨(c - first).toNat, List.mem_range.mpr (by omega), by omega⟩

theorem nodup_between (first last : ℤ) : (between first last).Nodup := by
  refine List.nodup_range.map fun i k h => ?_
  have : first + (i : ℤ) = first + k := h
  omega

theorem perChannel_of_span (hroute : rule.channel = some route) (hspan : route.isSpan = true) :
    rule.perChannel =
      (between (ceilInt64 route.min) (floorInt64 route.max)).map (rule.onChannel route) := by
  unfold perChannel
  rw [hroute]
  exact if_pos hspan

theorem perChannel_of_not_span (h : ∀ route, rule.channel = some route → ¬ route.isSpan = true) :
    rule.perChannel = [rule] := by
  unfold perChannel
  split
  · next route hroute => exact if_neg (h route hroute)
  · rfl

/-- What a channel has to do with whether a rule matches. -/
theorem applies_eq (hroute : rule.channel = some route) (hc : e.channel = some c) :
    rule.applies e =
      ({ rule with channel := none }.applies e && route.contains (Float.ofInt c)) := by
  have hchannel : accepts rule.channel (e.channel.map Float.ofInt) =
      route.contains (Float.ofInt c) := by
    rw [hroute, hc]
    rfl
  have hnone : accepts none (e.channel.map Float.ofInt) = true := by cases e.channel <;> rfl
  unfold applies
  rw [hchannel, hnone, Bool.and_true, Bool.and_right_comm _ (route.contains _),
    Bool.and_right_comm _ (route.contains _)]
  rfl

/-- All parts are for numbers of 64 bits. -/
theorem abs_le_of_mem_between (hd : d ∈ between (ceilInt64 route.min) (floorInt64 route.max)) :
    |d| ≤ 2 ^ 63 := by
  have hlo : minInt64 ≤ ceilInt64 route.min := le_toIntWith ceilInt (by decide) (by decide) _
  have hhi : floorInt64 route.max ≤ maxInt64 := toIntWith_le floorInt (by decide) (by decide) _
  have hmin : minInt64 = -2 ^ 63 := rfl
  have hmax : maxInt64 = 2 ^ 63 - 1 := rfl
  have := mem_between.mp hd
  rw [abs_le]
  omega

/-- Of the parts of a rule those match that are for the channel of the event. -/
theorem applies_onChannel (hc : e.channel = some c) (hrange : IsInt32 c) (hd : |d| ≤ 2 ^ 63) :
    (rule.onChannel route d).applies e =
      ({ rule with channel := none }.applies e && decide (d = c)) := by
  have hcontains : (route.pinned (Float.ofInt d)).contains (Float.ofInt c) = decide (d = c) := by
    rw [Bool.eq_iff_iff, Route.contains_pinned hrange hd, decide_eq_true_iff]
  have hpart : (rule.onChannel route d).applies e = _ := applies_eq rfl hc
  rw [hpart, hcontains]
  rfl

/-- Rules that differ in the channels that they match, and make the same of an event. -/
structure SameBut (e : Event) (x y : Rule) : Prop where
  fields : x = { y with channel := x.channel }
  apply : x.apply e = y.apply e

theorem SameBut.refl (e : Event) (x : Rule) : SameBut e x x := ⟨rfl, rfl⟩

/-- A rule for events with channels matches no others. -/
theorem hasChannel_of_applies (hkind : rule.kind.hasChannel = true) (h : rule.applies e = true) :
    e.kind.hasChannel = true := by
  have hmatch : rule.kind = e.kind ∨ rule.releases e = true := by
    simp only [applies, Bool.and_eq_true, Bool.or_eq_true, decide_eq_true_eq] at h
    exact h.1.1.1
  rcases hmatch with heq | hreleases
  · exact heq ▸ hkind
  · have hoff : e.kind = .noteOff := by
      simp only [releases, Bool.and_eq_true, decide_eq_true_eq] at hreleases
      exact hreleases.2
    rw [hoff]
    rfl

theorem not_isTransport_of_applies (hkind : rule.kind.hasChannel = true)
    (h : rule.applies e = true) : e.kind.isTransport = false := by
  have hchannel := hasChannel_of_applies hkind h
  cases he : e.kind <;> rw [he] at hchannel <;> first | rfl | cases hchannel

theorem kind_of_mem_perChannel {part : Rule} (h : part ∈ rule.perChannel) :
    part.kind = rule.kind := by
  obtain ⟨_, rfl⟩ := eq_of_mem_perChannel h
  rfl

theorem sameBut_onChannel (hroute : rule.channel = some route) (hc : e.channel = some c)
    (htransport : e.kind.isTransport = false) : SameBut e (rule.onChannel route d) rule := by
  refine ⟨rfl, ?_⟩
  have hmessage : ∀ r : Rule, r.apply e = r.applyMessage e := fun r =>
    if_neg (by rw [htransport]; exact Bool.false_ne_true)
  rw [hmessage, hmessage]
  unfold applyMessage
  rw [hroute, hc]
  rfl

/-- Of the parts of a rule for a span at most the one for the channel of the event matches, if the
rest of the rule does. -/
theorem filter_parts (hroute : rule.channel = some route) (hspan : route.isSpan = true)
    (hc : e.channel = some c) (hrange : IsInt32 c) :
    rule.perChannel.filter (fun part => part.applies e) =
      ((between (ceilInt64 route.min) (floorInt64 route.max)).filter fun d =>
        { rule with channel := none }.applies e && decide (d = c)).map (rule.onChannel route) := by
  rw [perChannel_of_span hroute hspan, List.filter_map]
  refine congrArg _ (List.filter_congr fun d hd => ?_)
  exact applies_onChannel hc hrange (abs_le_of_mem_between hd)

theorem filter_between {first last : ℤ} :
    (between first last).filter (fun d => decide (d = c)) =
      if first ≤ c ∧ c ≤ last then [c] else [] := by
  have hbeq : (fun d => decide (d = c)) = (· == c) := by
    funext d
    exact (beq_eq_decide d c).symm
  rw [hbeq, List.filter_beq, (nodup_between first last).count]
  simp only [mem_between]
  split <;> rfl

theorem filter_perChannel_span (hkind : rule.kind.hasChannel = true)
    (hroute : rule.channel = some route) (hbounded : route.Bounded) (hspan : route.isSpan = true)
    (hc : e.channel = some c) (hrange : IsInt32 c) :
    (rule.applies e = true ∧ ∃ part, SameBut e part rule ∧
      rule.perChannel.filter (fun part => part.applies e) = [part]) ∨
    (rule.applies e = false ∧ rule.perChannel.filter (fun part => part.applies e) = []) := by
  have hrule : rule.applies e =
      ({ rule with channel := none }.applies e && route.contains (Float.ofInt c)) :=
    applies_eq hroute hc
  rw [filter_parts hroute hspan hc hrange]
  cases hrest : { rule with channel := none }.applies e with
  | false =>
    refine .inr ⟨by rw [hrule, hrest, Bool.false_and], ?_⟩
    simp only [Bool.false_and, List.filter_false, List.map_nil]
  | true =>
    simp only [Bool.true_and, filter_between]
    rw [hrest, Bool.true_and, Bool.eq_iff_iff, Route.contains_span hbounded hspan hrange] at hrule
    by_cases hin : ceilInt64 route.min ≤ c ∧ c ≤ floorInt64 route.max
    · have happlies := hrule.mpr hin
      refine .inl ⟨happlies, rule.onChannel route c, ?_, by rw [if_pos hin]; rfl⟩
      exact sameBut_onChannel hroute hc (not_isTransport_of_applies hkind happlies)
    · refine .inr ⟨Bool.eq_false_iff.mpr fun h => hin (hrule.mp h), by rw [if_neg hin]; rfl⟩

/-- Of the parts of a rule that matches exactly one matches, and it does the same; of those of a
rule that does not match none does. -/
theorem filter_perChannel (hkind : rule.kind.hasChannel = true) (hbounded : rule.Bounded)
    (hc : e.channel = some c) (hrange : IsInt32 c) :
    (rule.applies e = true ∧ ∃ part, SameBut e part rule ∧
      rule.perChannel.filter (fun part => part.applies e) = [part]) ∨
    (rule.applies e = false ∧ rule.perChannel.filter (fun part => part.applies e) = []) := by
  by_cases hspan : ∃ route, rule.channel = some route ∧ route.isSpan = true
  · obtain ⟨route, hroute, hspan⟩ := hspan
    exact filter_perChannel_span hkind hroute (hbounded route hroute) hspan hc hrange
  · rw [perChannel_of_not_span fun route hroute hs => hspan ⟨route, hroute, hs⟩]
    cases happlies : rule.applies e with
    | true => exact .inl ⟨rfl, rule, .refl e rule, List.filter_cons_of_pos happlies⟩
    | false => exact .inr ⟨rfl, List.filter_cons_of_neg (by simp [happlies])⟩

end Rule

/-! ## What a desk makes of alike rules -/

namespace Desk

open List

variable {config : RouterConfig} {d : Desk} {e : Event} {x y : Rule} {xs ys : List Rule}

theorem applyRule_sameBut (h : Rule.SameBut e x y) :
    d.applyRule config e x = d.applyRule config e y := by
  obtain ⟨hfields, happly⟩ := h
  unfold applyRule
  rw [happly]
  generalize x.channel = channel at hfields
  subst hfields
  rfl

theorem ruleTrace_sameBut (h : Rule.SameBut e x y) :
    d.ruleTrace config e x = d.ruleTrace config e y := by
  obtain ⟨hfields, happly⟩ := h
  unfold ruleTrace
  rw [happly]
  generalize x.channel = channel at hfields
  subst hfields
  rfl

theorem applyRules_sameBut (h : Forall₂ (Rule.SameBut e) xs ys) :
    d.applyRules config e xs = d.applyRules config e ys := by
  induction h generalizing d with
  | nil => rfl
  | cons hxy _ ih =>
    unfold applyRules
    rw [applyRule_sameBut hxy]
    simp only [ih]

theorem trace_sameBut (h : Forall₂ (Rule.SameBut e) xs ys) :
    d.trace config e xs = d.trace config e ys := by
  induction h generalizing d with
  | nil => rfl
  | cons hxy _ ih =>
    unfold trace
    rw [ruleTrace_sameBut hxy, applyRule_sameBut hxy, ih]

end Desk

/-! ## Routers that take rules apart, and routers that do not -/

/-- Whether an event has a channel where its kind says so. -/
def Event.Addressed (e : Event) : Prop :=
  e.kind.hasChannel = true → ∃ c, e.channel = some c ∧ IsInt32 c

/-- Whether the rule can be taken apart, if it is to be. -/
def Rule.Divisible (rule : Rule) : Prop := rule.kind.hasChannel = true → rule.Bounded

/-- Lists of rules of which the first has some rules of the second in parts. -/
inductive Apart : List Installed → List Installed → Prop
  | nil : Apart [] []
  | kept {spread whole : List Installed} (installed : Installed) :
    Apart spread whole → Apart (installed :: spread) (installed :: whole)
  | parts {spread whole : List Installed} {rule : Rule} (scope : Scope) (hrule : rule.Divisible) :
    Apart spread whole →
      Apart (Router.asInstalled scope (Router.parts rule) ++ spread) (⟨rule, scope⟩ :: whole)

namespace Apart

variable {spread whole spread' whole' : List Installed} {e : Event} {rule : Rule}

theorem refl : ∀ rules, Apart rules rules
  | [] => .nil
  | installed :: rest => .kept installed (refl rest)

theorem append (h : Apart spread whole) (h' : Apart spread' whole') :
    Apart (spread ++ spread') (whole ++ whole') := by
  induction h with
  | nil => exact h'
  | kept installed _ ih => exact .kept installed ih
  | parts scope hrule _ ih =>
    rw [List.append_assoc]
    exact .parts scope hrule ih

theorem filter_scope (h : Apart spread whole) (p : Scope → Bool) :
    Apart (spread.filter fun installed => p installed.scope)
      (whole.filter fun installed => p installed.scope) := by
  induction h with
  | nil => exact .nil
  | kept installed _ ih =>
    rw [List.filter_cons, List.filter_cons]
    split
    · exact .kept installed ih
    · exact ih
  | @parts spread whole rule scope hrule _ ih =>
    have hparts : (Router.asInstalled scope (Router.parts rule)).filter
        (fun installed => p installed.scope) =
        if p scope then Router.asInstalled scope (Router.parts rule) else [] := by
      unfold Router.asInstalled
      rw [List.filter_map]
      cases hp : p scope <;> simp [Function.comp_def, hp]
    rw [List.filter_append, hparts, List.filter_cons]
    split
    · exact .parts scope hrule ih
    · exact ih

/-- The parts of a rule that match are as many as match of the rule itself. -/
theorem matching_parts (hrule : rule.Divisible) (he : e.Addressed) :
    List.Forall₂ (Rule.SameBut e) ((Router.parts rule).filter fun part => part.applies e)
      ([rule].filter fun rule => rule.applies e) := by
  have hself : ∀ rules, List.Forall₂ (Rule.SameBut e) rules rules := fun rules =>
    List.forall₂_same.mpr fun x _ => .refl e x
  unfold Router.parts
  by_cases hkind : rule.kind.hasChannel = true
  swap
  · rw [if_neg hkind]
    exact hself _
  rw [if_pos hkind]
  by_cases hchannel : e.kind.hasChannel = true
  · obtain ⟨c, hc, hrange⟩ := he hchannel
    rcases Rule.filter_perChannel hkind (hrule hkind) hc hrange with
      ⟨happlies, part, hpart, hfilter⟩ | ⟨happlies, hfilter⟩
    · rw [hfilter, List.filter_singleton, happlies]
      exact .cons hpart .nil
    · rw [hfilter, List.filter_singleton, happlies]
      exact .nil
  · -- no rule for events with channels matches
    have hnone : ∀ part : Rule, part.kind = rule.kind → ¬ part.applies e = true := by
      intro part hpart happlies
      exact hchannel (Rule.hasChannel_of_applies (hpart ▸ hkind) happlies)
    rw [List.filter_eq_nil_iff.mpr fun part hpart => hnone part (Rule.kind_of_mem_perChannel hpart),
      List.filter_singleton, Bool.eq_false_iff.mpr (hnone rule rfl)]
    exact .nil

theorem matching (h : Apart spread whole) (he : e.Addressed) :
    List.Forall₂ (Rule.SameBut e)
      ((spread.map Installed.rule).filter fun rule => rule.applies e)
      ((whole.map Installed.rule).filter fun rule => rule.applies e) := by
  induction h with
  | nil => exact .nil
  | kept installed _ ih =>
    rw [List.map_cons, List.map_cons, List.filter_cons, List.filter_cons]
    split
    · exact .cons (.refl e _) ih
    · exact ih
  | @parts spread whole rule scope hrule _ ih =>
    have hmap : (Router.asInstalled scope (Router.parts rule)).map Installed.rule =
        Router.parts rule := by
      unfold Router.asInstalled
      rw [List.map_map]
      exact List.map_id _
    rw [List.map_append, hmap, List.filter_append, List.map_cons, ← List.singleton_append,
      List.filter_append]
    exact List.rel_append (matching_parts hrule he) ih

end Apart

/-- Whether rules can be taken apart, and events have their channels. -/
def RigOp.Sound : RigOp → Prop
  | .install rule _ => rule.Divisible
  | .handle e => e.Addressed
  | _ => True

/-- Without native routing the router keeps all parts, and the engine is left alone. -/
theorem Router.install_off {r : Router} (h : r.config.nativeRouting = false) (engine : Engine)
    (rule : Rule) (scope : Scope) :
    r.install engine rule scope =
      ({ r with rules := r.rules ++ asInstalled scope (parts rule) }, engine) := by
  have hoff : ∀ part, isNative r.config part = false := by
    intro part
    unfold isNative
    rw [h, Bool.false_and]
  have hnone : (parts rule).filter (isNative r.config) = [] :=
    List.filter_eq_nil_iff.mpr fun part _ => Bool.eq_false_iff.mp (hoff part)
  have hall : (parts rule).filter (fun part => !isNative r.config part) = parts rule :=
    List.filter_eq_self.mpr fun part _ => by rw [hoff part]; rfl
  have hnative := r.native_install engine rule scope
  have hrules := r.rules_install engine rule scope
  rw [hnone] at hnative
  rw [hall] at hrules
  simp only [install, List.partition_eq_filter_filter] at hnative hrules ⊢
  rw [hnative, hrules, hnone]
  simp [asInstalled]

namespace Rig

variable {spread whole g : Rig} {e : Event} {rule : Rule} {c : ℤ}

def withRules (g : Rig) (rules : List Installed) : Rig :=
  { g with router := { g.router with rules } }

/-- Takes no rule apart. -/
def stepWhole (g : Rig) : RigOp → Rig
  | .install rule scope => g.withRules (g.router.rules ++ [⟨rule, scope⟩])
  | op => g.step op

def runWhole (g : Rig) (ops : List RigOp) : Rig := ops.foldl stepWhole g

theorem step_install (h : g.router.config.nativeRouting = false) (rule : Rule) (scope : Scope) :
    g.step (.install rule scope) =
      g.withRules (g.router.rules ++ Router.asInstalled scope (Router.parts rule)) := by
  have hinstall := Router.install_off h g.stage.engine rule scope
  exact congrArg (fun result : Router × Engine =>
    (⟨result.1, { g.stage with engine := result.2 }⟩ : Rig)) hinstall

/-- What can be seen of how rigs handle an event. -/
structure SameOutcome (spread whole : Rig) (e : Event) : Prop where
  /-- As many rules match, and the same is heard. -/
  handled : (spread.router.handle spread.stage e).1 = (whole.router.handle whole.stage e).1
  sends : spread.sends e = whole.sends e
  /-- The same effects are run, on the same events. -/
  effects : spread.trace e = whole.trace e
  /-- All but the rules is left alike. -/
  after : spread.step (.handle e) = (whole.step (.handle e)).withRules spread.router.rules

/-- Rigs that only differ in whether rules are in parts; neither gives rules to the engine. -/
inductive Spreads : Rig → Rig → Prop
  | of_rules (whole : Rig) (rules : List Installed)
    (hoff : whole.router.config.nativeRouting = false) (hrules : Apart rules whole.router.rules) :
    Spreads (whole.withRules rules) whole

theorem Spreads.refl (h : g.router.config.nativeRouting = false) : Spreads g g := by
  have hself : g.withRules g.router.rules = g := rfl
  rw [← hself]
  exact .of_rules g _ h (.refl _)

theorem Spreads.outcome (h : Spreads spread whole) (he : e.Addressed) :
    SameOutcome spread whole e := by
  cases h with | of_rules _ rules hoff hrules =>
  have hmatching : List.Forall₂ (Rule.SameBut e) ((whole.withRules rules).router.matching e)
      (whole.router.matching e) := hrules.matching he
  have happly : (whole.desk e).applyRules whole.router.config e
        ((whole.withRules rules).router.matching e) =
      (whole.desk e).applyRules whole.router.config e (whole.router.matching e) :=
    Desk.applyRules_sameBut hmatching
  have hstep : (whole.withRules rules).step (.handle e) =
      (whole.step (.handle e)).withRules rules :=
    congrArg (fun result : Desk × List Event =>
      (⟨{ whole.router with rules, counters := result.1.counters, taps := result.1.taps },
        result.1.stage⟩ : Rig)) happly
  refine ⟨?_, ?_, Desk.trace_sameBut hmatching, hstep⟩
  · exact congrArg₂ Handled.mk hmatching.length_eq (congrArg (fun result => e :: result.2) happly)
  · unfold sends newSent
    rw [hstep]
    rfl

theorem Spreads.install (h : Spreads spread whole) {rule : Rule} (hrule : rule.Divisible)
    (scope : Scope) :
    Spreads (spread.step (.install rule scope)) (whole.stepWhole (.install rule scope)) := by
  cases h with | of_rules _ rules hoff hrules =>
  have hsplit : Apart (Router.asInstalled scope (Router.parts rule)) [⟨rule, scope⟩] := by
    rw [← List.append_nil (Router.asInstalled _ _)]
    exact .parts scope hrule .nil
  rw [step_install (show (whole.withRules rules).router.config.nativeRouting = false from hoff)]
  exact .of_rules (whole.withRules (whole.router.rules ++ [⟨rule, scope⟩])) _ hoff
    (hrules.append hsplit)

theorem Spreads.step (h : Spreads spread whole) {op : RigOp} (hop : op.Sound) :
    Spreads (spread.step op) (whole.stepWhole op) := by
  cases op with
  | install rule scope => exact h.install hop scope
  | handle e =>
    rw [(h.outcome hop).after]
    cases h with | of_rules _ rules hoff hrules =>
    exact .of_rules (whole.step (.handle e)) rules hoff hrules
  | clearPatch =>
    cases h with | of_rules _ rules hoff hrules =>
    exact .of_rules (whole.step .clearPatch) _ hoff
      (hrules.filter_scope fun scope => scope = .persistent)
  | reset =>
    cases h with | of_rules _ _ hoff _ => exact .of_rules (whole.step .reset) [] hoff .nil
  | move mv =>
    cases h with | of_rules _ rules hoff hrules =>
    exact .of_rules (whole.step (.move mv)) rules hoff hrules

/-- Whatever rules are installed and removed and whatever events are handled, a rig that takes rules
apart stays like one that does not. -/
theorem Spreads.run (h : Spreads spread whole) {ops : List RigOp} (hops : ∀ op ∈ ops, op.Sound) :
    Spreads (spread.run ops) (whole.runWhole ops) := by
  induction ops generalizing spread whole with
  | nil => exact h
  | cons op rest ih =>
    exact ih (h.step (hops op List.mem_cons_self)) fun x hx => hops x (List.mem_cons_of_mem _ hx)

/-- A rule for several channels does what its parts do: of these exactly one matches where the rule
does, and makes the same of the event. So it makes no difference whether the rule is installed as it
is or in parts, nor which other operations come in between. -/
theorem channels_expand (hkind : rule.kind.hasChannel = true) (hbounded : rule.Bounded)
    (hc : e.channel = some c) (hrange : IsInt32 c) :
    (rule.applies e = true → ∃ part, rule.perChannel.filter (fun part => part.applies e) = [part] ∧
      part.apply e = rule.apply e) ∧
    (rule.applies e = false → ∀ part ∈ rule.perChannel, part.applies e = false) ∧
    ∀ (g : Rig) (scope : Scope), g.router.config.nativeRouting = false →
      SameOutcome (g.step (.install rule scope)) (g.stepWhole (.install rule scope)) e ∧
      ∀ ops : List RigOp, (∀ op ∈ ops, op.Sound) →
        SameOutcome ((g.step (.install rule scope)).run ops)
          ((g.stepWhole (.install rule scope)).runWhole ops) e := by
  have hparts := Rule.filter_perChannel hkind hbounded hc hrange
  have haddressed : e.Addressed := fun _ => ⟨c, hc, hrange⟩
  refine ⟨fun happlies => ?_, fun happlies part hpart => ?_, fun g scope hoff => ?_⟩
  · obtain ⟨-, part, hpart, hfilter⟩ | ⟨hnone, -⟩ := hparts
    · exact ⟨part, hfilter, hpart.apply⟩
    · simp [hnone] at happlies
  · obtain ⟨hsome, -⟩ | ⟨-, hfilter⟩ := hparts
    · simp [hsome] at happlies
    · exact Bool.eq_false_iff.mpr (List.filter_eq_nil_iff.mp hfilter part hpart)
  · have hinstall := (Spreads.refl hoff).install (fun _ => hbounded : rule.Divisible) scope
    exact ⟨hinstall.outcome haddressed, fun ops hops => (hinstall.run hops).outcome haddressed⟩

/-- A rule whose span has its ends between channels, and runs an effect: three parts, of which one
matches a note, and one its release. -/
theorem channels_expand_half_open :
    let route := Route.identity 0.5 3.5
    let rule : Rule := ⟨.note, .note, some route, none, none, none, none, [.setting "gain"]⟩
    let note := Event.make .note (some 2) (some 60) 100.0
    let release := Event.make .noteOff (some 2) (some 60) 0.0
    let stage := Stage.make 1000.0 .default
    let g : Rig := ⟨.make { RouterConfig.default with nativeRouting := false }, stage⟩
    let ops : List RigOp := [.install rule .persistent, .handle note, .clearPatch]
    rule.kind.hasChannel = true ∧ rule.Bounded ∧ rule.perChannel.length = 3 ∧
      rule.applies note = true ∧
      (∃ part, rule.perChannel.filter (fun part => part.applies note) = [part] ∧
        part.apply note = rule.apply note) ∧
      (∃ part, rule.perChannel.filter (fun part => part.applies release) = [part]) ∧
      SameOutcome (g.step (.install rule .patch)) (g.stepWhole (.install rule .patch)) note ∧
      SameOutcome ((g.step (.install rule .patch)).run ops)
        ((g.stepWhole (.install rule .patch)).runWhole ops) note := by
  intro route rule note release stage g ops
  have hbounded : rule.Bounded := by
    rintro _ ⟨⟩
    exact ⟨by decide +kernel, by decide +kernel⟩
  have hrange : IsInt32 2 := ⟨by decide, by decide⟩
  have hops : ∀ op ∈ ops, op.Sound := by
    simp only [ops, List.forall_mem_cons]
    exact ⟨fun _ => hbounded, fun _ => ⟨2, rfl, hrange⟩, trivial, fun _ h =>
      absurd h List.not_mem_nil⟩
  have hnote : rule.applies note = true := by decide +kernel
  have hrelease : rule.applies release = true := by decide +kernel
  have houtcome := channels_expand (e := note) rfl hbounded rfl hrange
  obtain ⟨part, hpart, -⟩ := (channels_expand (e := release) rfl hbounded rfl hrange).1 hrelease
  exact ⟨rfl, hbounded, by decide +kernel, hnote, houtcome.1 hnote, ⟨part, hpart⟩,
    (houtcome.2.2 g .patch rfl).1, (houtcome.2.2 g .patch rfl).2 ops hops⟩

end Rig

end MidiRig
