import MidiRig.Proofs.Router.Moves
import MidiRig.Proofs.Stage.Record

/-!
# Rules at work

What a rule does at a desk does not depend on what has been recorded before
(`Desk.applyRule_after`). `Desk.firings` tells what each rule sends, and `Desk.trace` which effects
are run, in order, each with the event that it is run on; to run them again leads to the same desk
(`Desk.blank_rerun_trace`). A rule that could as well be the engine's has no effects and sends one
event, so without such rules everything else stays as it is (`Desk.thinned`).
-/

namespace MidiRig

/-- An effect that has been run, for the value route of its rule. -/
structure EffectRun where
  effect : Effect
  event : Event
  range : Option Route

namespace Desk

/-- Without record and table. -/
def blank (d : Desk) : Desk := { d with stage := d.stage.blank }

def after (d : Desk) (g : Record) : Desk := { d with stage := d.stage.after g }

theorem after_record (d : Desk) : d.blank.after d.stage.engine.record = d := by
  unfold after blank
  simp only [Stage.after_record]

/-! ## After another record -/

section After

variable (config : RouterConfig) (d : Desk) (g : Record)

theorem call_after (player : String) (c : Call) :
    (d.after g).call player c = (d.call player c).after g :=
  congrArg (fun stage => ({ d with stage } : Desk)) (Stage.call_after d.stage g player c)

theorem send_after (e : Event) : (d.after g).send e = (d.send e).after g :=
  congrArg (fun engine => ({ d with stage.engine := engine } : Desk))
    (Engine.send_after d.stage.engine g e)

theorem tap_after (player : String) (beats : Float) :
    (d.after g).tap config player beats = (d.tap config player beats).after g := by
  unfold tap
  by_cases h : beats ≤ 0.0
  · rw [if_pos h, if_pos h]
  · rw [if_neg h, if_neg h]
    let rule : TapRule := ⟨d.stage.engine.ticksPerSecond, config.tapRatio, config.tapTimeout⟩
    let tapped := ((d.taps.get? player).getD .untapped).tap rule d.stage.engine.now beats
    dsimp only [after, Stage.after, Engine.after]
    cases tapped.2 with
    | none => rfl
    | some bpm =>
      exact call_after { d with taps := d.taps.insert player tapped.1 } g player (.tempo bpm)

theorem runEffect_after (range : Option Route) (e : Event) (effect : Effect) :
    (d.after g).runEffect config range e effect =
      ((d.runEffect config range e effect).1.after g, (d.runEffect config range e effect).2) := by
  cases effect with
  | counter name increment => rfl
  | setting name => rfl
  | port effect port => rfl
  | tap player => exact congrArg (·, e) (tap_after config d g player e.value)
  | arpeggio player => exact congrArg (·, e.withValue 0.0) (call_after d g player (.add e))
  | play player => exact congrArg (·, e) (call_after d g player (.play e.value))
  | tempo player => exact congrArg (·, e) (call_after d g player (.tempo e.value))
  | record player => exact congrArg (·, e) (call_after d g player (.record e.value))
  | swing player => exact congrArg (·, e) (call_after d g player (.swing e.value))
  | groove player => exact congrArg (·, e) (call_after d g player (.groove [e.value, 1.0]))
  | loop player => exact congrArg (·, e) (call_after d g player (.add e))

theorem foldl_runEffect_after (range : Option Route) (e : Event) (effects : List Effect) :
    effects.foldl (fun (d, e) effect => d.runEffect config range e effect) (d.after g, e) =
      ((effects.foldl (fun (d, e) effect => d.runEffect config range e effect) (d, e)).1.after g,
        (effects.foldl (fun (d, e) effect => d.runEffect config range e effect) (d, e)).2) := by
  induction effects generalizing d e with
  | nil => rfl
  | cons effect rest ih =>
    simp only [List.foldl_cons]
    rw [runEffect_after]
    exact ih _ _

theorem runRelease_after (rule : Rule) (e : Event) :
    (d.after g).runRelease rule e = (d.runRelease rule e).after g := by
  unfold runRelease
  induction rule.effects generalizing d with
  | nil => rfl
  | cons effect rest ih =>
    cases effect with
    | arpeggio player =>
      simp only [List.foldl_cons]
      rw [call_after]
      exact ih _
    | loop player =>
      simp only [List.foldl_cons]
      rw [call_after]
      exact ih _
    | _ => exact ih d

theorem sends_after (events : List Event) :
    events.foldl send (d.after g) = (events.foldl send d).after g := by
  induction events generalizing d with
  | nil => rfl
  | cons e rest ih =>
    rw [List.foldl_cons, send_after]
    exact ih _

theorem applyRule_after (e : Event) (rule : Rule) :
    (d.after g).applyRule config e rule =
      ((d.applyRule config e rule).1.after g, (d.applyRule config e rule).2) := by
  unfold applyRule
  by_cases h : rule.releases e
  · simp only [if_pos h, runRelease_after, sends_after]
  · simp only [if_neg h, runEffects, foldl_runEffect_after, sends_after]

end After

/-! ## What rules send and run -/

variable (config : RouterConfig) (d : Desk) (e : Event)

/-- What is sent when a rule is applied, by the players that it calls and by the rule. -/
def sentBy (rule : Rule) : List Event :=
  ((d.applyRule config e rule).1.stage.engine.sent.drop d.stage.engine.sent.length).map Sent.event

/-- Rules that are applied in turn, each with what is sent then. -/
def firings (d : Desk) : List Rule → List (Rule × List Event)
  | [] => []
  | rule :: rest =>
    (rule, d.sentBy config e rule) :: firings (d.applyRule config e rule).1 rest

/-- Effects of a rule in turn, each with the event that it is run on. -/
def effectsTrace (range : Option Route) (d : Desk) (e : Event) : List Effect → List EffectRun
  | [] => []
  | effect :: rest =>
    let (after, left) := d.runEffect config range e effect
    ⟨effect, e, range⟩ :: effectsTrace range after left rest

/-- The effects that a rule runs. A release only reaches some of them. -/
def ruleTrace (rule : Rule) : List EffectRun :=
  let out := (rule.apply e).event
  if rule.releases e then
    rule.effects.filterMap fun effect =>
      match effect with
      | .arpeggio _ | .loop _ => some ⟨effect, out, rule.value⟩
      | _ => none
  else d.effectsTrace config rule.value out rule.effects

/-- The effects that rules run in turn. -/
def trace (d : Desk) : List Rule → List EffectRun
  | [] => []
  | rule :: rest => d.ruleTrace config e rule ++ trace (d.applyRule config e rule).1 rest

/-- Runs effects again. -/
def rerun (runs : List EffectRun) : Desk :=
  runs.foldl (fun d x => (d.runEffect config x.range x.event x.effect).1) d

theorem applyRule_eq (rule : Rule) :
    (d.applyRule config e rule).1 =
      (d.blank.applyRule config e rule).1.after d.stage.engine.record := by
  have hafter := applyRule_after config d.blank d.stage.engine.record e rule
  rw [after_record] at hafter
  rw [hafter]

theorem blank_applyRule (rule : Rule) :
    (d.applyRule config e rule).1.blank = (d.blank.applyRule config e rule).1.blank := by
  rw [applyRule_eq]
  rfl

/-- A rule adds to the record. -/
theorem sent_applyRule (rule : Rule) :
    (d.applyRule config e rule).1.stage.engine.sent =
      d.stage.engine.sent ++ (d.blank.applyRule config e rule).1.stage.engine.sent := by
  rw [applyRule_eq]
  rfl

theorem sentBy_eq (rule : Rule) :
    d.sentBy config e rule =
      (d.blank.applyRule config e rule).1.stage.engine.sent.map Sent.event := by
  unfold sentBy
  rw [sent_applyRule, List.drop_left]

theorem effectsTrace_after (g : Record) (range : Option Route) (effects : List Effect) :
    (d.after g).effectsTrace config range e effects = d.effectsTrace config range e effects := by
  induction effects generalizing d e with
  | nil => rfl
  | cons effect rest ih =>
    unfold effectsTrace
    rw [runEffect_after]
    exact congrArg _ (ih _ _)

theorem ruleTrace_blank (rule : Rule) :
    d.ruleTrace config e rule = d.blank.ruleTrace config e rule := by
  have hafter := effectsTrace_after config d.blank (rule.apply e).event d.stage.engine.record
    rule.value rule.effects
  rw [after_record] at hafter
  unfold ruleTrace
  simp only [hafter]

/-- All that rules send is recorded, in the order in which they are applied. -/
theorem sent_applyRules (rules : List Rule) :
    ∃ sent, (d.applyRules config e rules).1.stage.engine.sent = d.stage.engine.sent ++ sent ∧
      sent.map Sent.event = (d.firings config e rules).flatMap Prod.snd := by
  induction rules generalizing d with
  | nil => exact ⟨[], (List.append_nil _).symm, rfl⟩
  | cons rule rest ih =>
    obtain ⟨sent, hsent, hevents⟩ := ih (d.applyRule config e rule).1
    refine ⟨(d.blank.applyRule config e rule).1.stage.engine.sent ++ sent, ?_, ?_⟩
    · show ((d.applyRule config e rule).1.applyRules config e rest).1.stage.engine.sent = _
      rw [hsent, sent_applyRule, List.append_assoc]
    · show _ = d.sentBy config e rule ++ (firings config e _ rest).flatMap Prod.snd
      rw [List.map_append, hevents, sentBy_eq]

/-! ### The trace tells all -/

theorem blank_sends (events : List Event) : (events.foldl send d).blank = d.blank := by
  induction events generalizing d with
  | nil => rfl
  | cons event rest ih => exact ih (d.send event)

theorem rerun_append (xs ys : List EffectRun) :
    d.rerun config (xs ++ ys) = (d.rerun config xs).rerun config ys := List.foldl_append

theorem rerun_after (g : Record) (runs : List EffectRun) :
    (d.after g).rerun config runs = (d.rerun config runs).after g := by
  induction runs generalizing d with
  | nil => rfl
  | cons x rest ih =>
    show ((d.after g).runEffect config x.range x.event x.effect).1.rerun config rest = _
    rw [runEffect_after]
    exact ih _

theorem blank_rerun (runs : List EffectRun) :
    (d.rerun config runs).blank = (d.blank.rerun config runs).blank := by
  have hafter := rerun_after config d.blank d.stage.engine.record runs
  rw [after_record] at hafter
  rw [hafter]
  rfl

theorem rerun_effectsTrace (range : Option Route) (effects : List Effect) :
    d.rerun config (d.effectsTrace config range e effects) =
      (effects.foldl (fun (d, e) effect => d.runEffect config range e effect) (d, e)).1 := by
  induction effects generalizing d e with
  | nil => rfl
  | cons effect rest ih => exact ih _ _

theorem rerun_release (rule : Rule) (out : Event) :
    d.rerun config (rule.effects.filterMap fun effect =>
      match effect with
      | .arpeggio _ | .loop _ => some ⟨effect, out, rule.value⟩
      | _ => none) = d.runRelease rule out := by
  unfold runRelease
  induction rule.effects generalizing d with
  | nil => rfl
  | cons effect rest ih => cases effect <;> exact ih _

theorem blank_rerun_ruleTrace (rule : Rule) :
    (d.rerun config (d.ruleTrace config e rule)).blank = (d.applyRule config e rule).1.blank := by
  unfold ruleTrace applyRule
  by_cases h : rule.releases e
  · simp only [if_pos h, rerun_release, blank_sends]
  · simp only [if_neg h, rerun_effectsTrace, blank_sends]
    rfl

/-- Apart from record and table, rules do what the effects in their trace do. -/
theorem blank_rerun_trace (rules : List Rule) :
    (d.rerun config (d.trace config e rules)).blank = (d.applyRules config e rules).1.blank := by
  induction rules generalizing d with
  | nil => rfl
  | cons rule rest ih =>
    rw [trace, rerun_append, blank_rerun, blank_rerun_ruleTrace, ← blank_rerun]
    exact ih _

theorem map_fst_firings (rules : List Rule) : (d.firings config e rules).map Prod.fst = rules := by
  induction rules generalizing d with
  | nil => rfl
  | cons rule rest ih => exact congrArg (rule :: ·) (ih _)

/-! ### With another configuration -/

section Congr

variable {c c' : RouterConfig}

/-- Whether the engine routes by itself does not matter to effects. -/
theorem runEffect_nativeRouting (config : RouterConfig) (on off : Bool) :
    runEffect { config with nativeRouting := on } =
      runEffect { config with nativeRouting := off } := by
  funext range d e effect
  cases effect <;> rfl

theorem applyRule_congr (h : runEffect c = runEffect c') : applyRule c = applyRule c' := by
  unfold applyRule runEffects
  rw [h]

theorem sentBy_congr (h : runEffect c = runEffect c') : sentBy c = sentBy c' := by
  unfold sentBy
  rw [applyRule_congr h]

theorem effectsTrace_congr (h : runEffect c = runEffect c') : effectsTrace c = effectsTrace c' := by
  funext range d e effects
  induction effects generalizing d e with
  | nil => rfl
  | cons effect rest ih =>
    unfold effectsTrace
    rw [h]
    exact congrArg _ (ih _ _)

theorem ruleTrace_congr (h : runEffect c = runEffect c') : ruleTrace c = ruleTrace c' := by
  unfold ruleTrace
  rw [effectsTrace_congr h]

end Congr

end Desk

/-! ## Rules that the engine could apply -/

/-- Such a rule has nothing but its routes. -/
theorem Rule.plain_of_isNativeEligible {rule : Rule} (h : rule.isNativeEligible = true) :
    rule.effects = [] ∧ rule.lowByte = none := by
  simp only [isNativeEligible, Bool.and_eq_true, List.isEmpty_iff, Option.isNone_iff_eq_none] at h
  exact ⟨h.1.1.2, h.2⟩

theorem Rule.lowByte_apply {rule : Rule} (h : rule.lowByte = none) (e : Event) :
    (rule.apply e).lowByte = none := by
  unfold apply
  split
  · rfl
  · exact congrArg (Option.map _) h

namespace Desk

variable {config : RouterConfig} {e : Event} {rule : Rule}

/-- It only sends one event. -/
theorem applyRule_of_isNativeEligible (h : rule.isNativeEligible = true) (d : Desk) :
    (d.applyRule config e rule).1 = d.send (rule.apply e).event := by
  obtain ⟨heffects, hlow⟩ := Rule.plain_of_isNativeEligible h
  unfold applyRule runRelease runEffects
  simp only [heffects, Rule.lowByte_apply hlow, List.foldl_nil]
  by_cases hreleases : rule.releases e
  · simp only [if_pos hreleases]
    rfl
  · simp only [if_neg hreleases]
    rfl

theorem ruleTrace_of_isNativeEligible (h : rule.isNativeEligible = true) (d : Desk) :
    d.ruleTrace config e rule = [] := by
  obtain ⟨heffects, -⟩ := Rule.plain_of_isNativeEligible h
  unfold ruleTrace
  simp only [heffects]
  exact ite_self _

theorem sentBy_of_isNativeEligible (h : rule.isNativeEligible = true) (d : Desk) :
    d.sentBy config e rule = [(rule.apply e).event] := by
  rw [sentBy_eq, applyRule_of_isNativeEligible h]
  rfl

/-- At desks that only differ in record and table: without the rules that the engine could apply
the others send the same, run the same effects, and leave the same. -/
theorem thinned {c c' : RouterConfig} (hconfig : runEffect c = runEffect c') (e : Event)
    (rules : List Rule) {on off : Desk} (h : on.blank = off.blank) :
    (on.applyRules c e (rules.filter fun r => !r.isNativeEligible)).1.blank =
        (off.applyRules c' e rules).1.blank ∧
      on.firings c e (rules.filter fun r => !r.isNativeEligible) =
        (off.firings c' e rules).filter (fun f => !f.1.isNativeEligible) ∧
      on.trace c e (rules.filter fun r => !r.isNativeEligible) = off.trace c' e rules := by
  induction rules generalizing on off with
  | nil => exact ⟨h, rfl, rfl⟩
  | cons rule rest ih =>
    by_cases hrule : rule.isNativeEligible = true
    · have hnext : on.blank = (off.applyRule c' e rule).1.blank := by
        rw [applyRule_of_isNativeEligible hrule]
        exact h
      obtain ⟨hblank, hfirings, htrace⟩ := ih hnext
      have hdrop : ¬(!rule.isNativeEligible) = true := by simpa using hrule
      have hrules : (rule :: rest).filter (fun r => !r.isNativeEligible) =
          rest.filter fun r => !r.isNativeEligible := List.filter_cons_of_neg hdrop
      rw [hrules]
      refine ⟨hblank, ?_, ?_⟩
      · rw [hfirings]
        exact (List.filter_cons_of_neg (a := (rule, off.sentBy c' e rule)) hdrop).symm
      · rw [htrace, trace, ruleTrace_of_isNativeEligible hrule]
        rfl
    · have hnext : (on.applyRule c e rule).1.blank = (off.applyRule c' e rule).1.blank := by
        rw [blank_applyRule, h, ← blank_applyRule, applyRule_congr hconfig]
      have hsent : on.sentBy c e rule = off.sentBy c' e rule := by
        rw [sentBy_eq, h, ← sentBy_eq, sentBy_congr hconfig]
      have hrun : on.ruleTrace c e rule = off.ruleTrace c' e rule := by
        rw [ruleTrace_blank, h, ← ruleTrace_blank, ruleTrace_congr hconfig]
      obtain ⟨hblank, hfirings, htrace⟩ := ih hnext
      have hkeep : (!rule.isNativeEligible) = true := by simpa using hrule
      have hrules : (rule :: rest).filter (fun r => !r.isNativeEligible) =
          rule :: rest.filter fun r => !r.isNativeEligible := List.filter_cons_of_pos hkeep
      rw [hrules]
      refine ⟨hblank, ?_, ?_⟩
      · rw [firings, hfirings, hsent]
        exact (List.filter_cons_of_pos (a := (rule, off.sentBy c' e rule)) hkeep).symm
      · rw [trace, trace, htrace, hrun]

/-- What the engine could send of what is sent. -/
theorem firings_of_isNativeEligible (rules : List Rule) (d : Desk) :
    ((d.firings config e rules).filter fun f => f.1.isNativeEligible).flatMap Prod.snd =
      (rules.filter Rule.isNativeEligible).map fun r => (r.apply e).event := by
  induction rules generalizing d with
  | nil => rfl
  | cons rule rest ih =>
    by_cases hrule : rule.isNativeEligible = true
    · have hfirst : (d.firings config e (rule :: rest)).filter (fun f => f.1.isNativeEligible) =
          (rule, d.sentBy config e rule) ::
            (firings config e _ rest).filter fun f => f.1.isNativeEligible :=
        List.filter_cons_of_pos hrule
      rw [hfirst, List.flatMap_cons, ih, sentBy_of_isNativeEligible hrule,
        List.filter_cons_of_pos hrule]
      rfl
    · have hfirst : (d.firings config e (rule :: rest)).filter (fun f => f.1.isNativeEligible) =
          (firings config e _ rest).filter fun f => f.1.isNativeEligible :=
        List.filter_cons_of_neg hrule
      rw [hfirst, ih, List.filter_cons_of_neg hrule]

end Desk

end MidiRig
