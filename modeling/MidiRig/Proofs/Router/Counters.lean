import MidiRig.Proofs.Number.Order
import MidiRig.Proofs.Router.Native
import MidiRig.Rule.Text

/-!
# Counters

A counter has the range of the first effect that named it, and unless it is NaN it lies in it,
whatever it is stepped by (`Counter.wrap_between`). It is NaN only if it started so, was stepped by
NaN, or was stepped by an infinity while an end of its range was infinite; the first two it never
gets over (`Counter.Stepped`).

What the counters hold after a run is what the effects in the run's traces make of them
(`Rig.counters_run`), so the counters of rules that count by numbers stay in their ranges
(`Rig.counters_between`).
-/

namespace MidiRig

open Binary64

namespace Counter

/-- Both ends are finite. -/
def IsBounded (c : Counter) : Prop := isFinite c.low = true ∧ isFinite c.high = true

/-- The increment by which a counter is stepped, if at all. -/
def stepped (increment value : Float) : Option Float :=
  if value == 0.0 then none else some increment

/-! ## One step -/

variable {c : Counter} {x : Float}

theorem wrap_between (h : c.low ≤ c.high) (hx : x.isNaN = false) :
    c.low ≤ c.wrap x ∧ c.wrap x ≤ c.high := by
  obtain ⟨hlow, hhigh⟩ := isNaN_of_le h
  unfold wrap
  split
  · exact ⟨Binary64.le_refl hlow, h⟩
  · next habove =>
    split
    · exact ⟨h, Binary64.le_refl hhigh⟩
    · next hbelow =>
      exact ⟨Binary64.le_of_not_lt hx hlow hbelow, Binary64.le_of_not_lt hhigh hx habove⟩

theorem wrap_of_isNaN (hx : x.isNaN = true) : c.wrap x = x := by
  have habove : ¬ x > c.high := fun h => Bool.eq_false_iff.mp (isNaN_of_lt h).2 hx
  have hbelow : ¬ x < c.low := fun h => Bool.eq_false_iff.mp (isNaN_of_lt h).1 hx
  unfold wrap
  rw [if_neg habove, if_neg hbelow]

/-! ## Many steps -/

/-- What a counter has become by some steps. -/
structure Stepped (first : Counter) (steps : List Float) (c : Counter) : Prop where
  low : c.low = first.low
  high : c.high = first.high
  between : c.value.isNaN = true ∨ first.low ≤ c.value ∧ c.value ≤ first.high
  /-- Why it is NaN. -/
  cause : c.value.isNaN = true → first.value.isNaN = true ∨ (∃ step ∈ steps, step.isNaN = true) ∨
    ¬ first.IsBounded ∧ ∃ step ∈ steps, isFinite step = false
  lost : first.value.isNaN = true ∨ (∃ step ∈ steps, step.isNaN = true) → c.value.isNaN = true

theorem start_between {range : Option Route} (h : (start range).value.isNaN = false) :
    (start range).low ≤ (start range).value ∧ (start range).value ≤ (start range).high := by
  cases range with
  | none => exact ⟨smaller_le h _, le_larger h _⟩
  | some route => exact ⟨smaller_le h _, le_larger h _⟩

theorem stepped_start (range : Option Route) : (start range).Stepped [] (start range) where
  low := rfl
  high := rfl
  between := (Bool.eq_false_or_eq_true _).imp_right start_between
  cause := .inl
  lost := by simp

namespace Stepped

variable {first : Counter} {steps : List Float}

/-- Only NaN itself, or an infinity where the range is infinite, makes a counter NaN. -/
theorem isNaN_add (h : first.Stepped steps c) (hc : c.value.isNaN = false)
    (hsum : (c.value + x).isNaN = true) :
    x.isNaN = true ∨ ¬ first.IsBounded ∧ isFinite x = false := by
  refine or_iff_not_imp_left.mpr fun hx => ?_
  obtain ⟨hlow, hhigh⟩ := h.between.resolve_left (Bool.eq_false_iff.mp hc)
  have hneither : ¬ (isFinite c.value = true ∨ isFinite x = true) := fun hfinite =>
    Bool.eq_false_iff.mp (Binary64.isNaN_add hc (Bool.eq_false_iff.mpr hx) hfinite) hsum
  rw [not_or] at hneither
  exact ⟨fun hbounded => hneither.1 (isFinite_of_le hbounded.1 hbounded.2 hlow hhigh),
    Bool.eq_false_iff.mpr hneither.2⟩

theorem advance (h : first.Stepped steps c) (x : Float) :
    first.Stepped (steps ++ [x]) { c with value := c.wrap (c.value + x) } := by
  cases hsum : (c.value + x).isNaN with
  | true =>
    -- it passes both comparisons, and is kept
    have hnan : (c.wrap (c.value + x)).isNaN = true := by rwa [wrap_of_isNaN hsum]
    refine ⟨h.low, h.high, .inl hnan, fun _ => ?_, fun _ => hnan⟩
    cases hc : c.value.isNaN with
    | true =>
      have hmore : ∀ {p : Float → Prop}, (∃ step ∈ steps, p step) → ∃ step ∈ steps ++ [x], p step :=
        Exists.imp fun _ => And.imp_left (List.mem_append_left _)
      exact (h.cause hc).imp_right (Or.imp hmore (And.imp_right hmore))
    | false =>
      have hlast : ∀ {p : Float → Prop}, p x → ∃ step ∈ steps ++ [x], p step :=
        fun hx => ⟨x, by simp, hx⟩
      exact .inr ((h.isNaN_add hc hsum).imp hlast (And.imp_right hlast))
  | false =>
    obtain ⟨hc, hx⟩ : c.value.isNaN = false ∧ x.isNaN = false := by
      simpa using mt isNaN_add_of_isNaN (Bool.eq_false_iff.mp hsum)
    obtain ⟨hlow, hhigh⟩ := h.between.resolve_left (Bool.eq_false_iff.mp hc)
    have hrange : c.low ≤ c.high := by
      rw [h.low, h.high]
      exact Binary64.le_trans hlow hhigh
    have hbetween := wrap_between hrange hsum
    have hnumber := Bool.eq_false_iff.mp (isNaN_of_le hbetween.1).2
    refine ⟨h.low, h.high, .inr ?_, fun hnan => absurd hnan hnumber, fun hlost => ?_⟩
    · rw [← h.low, ← h.high]
      exact hbetween
    · refine absurd (h.lost (hlost.imp_right ?_)) (Bool.eq_false_iff.mp hc)
      rintro ⟨step, hstep, hnan⟩
      rcases List.mem_append.mp hstep with hstep | hstep
      · exact ⟨step, hstep, hnan⟩
      · rw [List.mem_singleton.mp hstep, hx] at hnan
        cases hnan

theorem step (h : first.Stepped steps c) (increment value : Float) :
    first.Stepped (steps ++ (stepped increment value).toList) (c.step increment value) := by
  unfold stepped Counter.step
  split
  · simpa using h
  · exact h.advance increment

/-- Steps that are not NaN keep a counter within a finite range. -/
theorem between_of_isBounded (h : first.Stepped steps c) (hstart : first.value.isNaN = false)
    (hbounded : first.IsBounded) (hsteps : ∀ step ∈ steps, step.isNaN = false) :
    first.low ≤ c.value ∧ c.value ≤ first.high := by
  refine h.between.resolve_left fun hnan => ?_
  rcases h.cause hnan with hlost | ⟨step, hstep, hlost⟩ | ⟨hinfinite, -⟩
  · exact Bool.eq_false_iff.mp hstart hlost
  · exact Bool.eq_false_iff.mp (hsteps step hstep) hlost
  · exact hinfinite hbounded

end Stepped

end Counter

/-! ## All counters -/

namespace EffectRun

/-- Whether the named counter is counted. -/
def counts (name : String) (x : EffectRun) : Bool :=
  match x.effect with
  | .counter other _ => other == name
  | _ => false

/-- The increment by which the named counter is stepped, if at all. -/
def step? (name : String) (x : EffectRun) : Option Float :=
  match x.effect with
  | .counter other increment =>
    if other == name then Counter.stepped increment x.event.value else none
  | _ => none

variable {name : String} {x : EffectRun}

theorem counts_iff : x.counts name = true ↔ ∃ increment, x.effect = .counter name increment := by
  unfold counts
  split
  · next other increment h =>
    rw [beq_iff_eq, h]
    exact ⟨fun hname => ⟨increment, by rw [hname]⟩, fun ⟨_, hname⟩ => by cases hname; rfl⟩
  · next h =>
    exact ⟨nofun, fun ⟨increment, hname⟩ => absurd hname (h name increment)⟩

theorem step?_of_counter {increment : Float} (h : x.effect = .counter name increment) :
    x.step? name = Counter.stepped increment x.event.value := by
  simp [step?, h]

theorem effect_of_step? {increment : Float} (h : x.step? name = some increment) :
    x.effect = .counter name increment := by
  unfold step? at h
  split at h
  · next other _ heffect =>
    split at h
    · next hname =>
      unfold Counter.stepped at h
      split at h
      · cases h
      · cases h
        rw [heffect, beq_iff_eq.mp hname]
    · cases h
  · cases h

theorem step?_of_not_counts (h : x.counts name = false) : x.step? name = none := by
  unfold counts at h
  unfold step?
  split
  · next heffect =>
    rw [heffect] at h
    exact if_neg (Bool.eq_false_iff.mp h)
  · rfl

end EffectRun

namespace Counters

/-- Takes in an effect that has been run. -/
def count (cs : Counters) (x : EffectRun) : Counters :=
  match x.effect with
  | .counter name increment => (cs.step name x.range increment x.event.value).1
  | _ => cs

/-- What effects in turn make of no counters at all. -/
def after (runs : List EffectRun) : Counters := runs.foldl count .empty

variable {name : String} {x : EffectRun}

theorem after_concat (runs : List EffectRun) (x : EffectRun) :
    after (runs ++ [x]) = (after runs).count x := List.foldl_concat ..

theorem get?_count_of_counter (cs : Counters) {increment : Float}
    (h : x.effect = .counter name increment) : (cs.count x).get? name =
      some (((cs.get? name).getD (.start x.range)).step increment x.event.value) := by
  unfold count
  rw [h]
  exact Dict.get?_insert_self ..

theorem get?_count_of_not_counts (cs : Counters) (h : x.counts name = false) :
    (cs.count x).get? name = cs.get? name := by
  unfold EffectRun.counts at h
  unfold count
  split
  · next heffect =>
    rw [heffect] at h
    exact Dict.get?_insert_of_ne _ (Ne.symm (by simpa using h)) _
  · rfl

/-- A counter is made by the first effect that counts it, and stepped from then on. -/
theorem get?_after (name : String) (runs : List EffectRun) :
    match runs.find? (·.counts name) with
    | none => (after runs).get? name = none
    | some first => ∃ c, (after runs).get? name = some c ∧
        (Counter.start first.range).Stepped (runs.filterMap (·.step? name)) c := by
  induction runs using List.reverseRecOn with
  | nil => rfl
  | append_singleton runs x ih =>
    rw [List.find?_append, List.filterMap_append, after_concat]
    cases hx : x.counts name with
    | false =>
      rw [get?_count_of_not_counts _ hx, List.find?_cons_of_neg (Bool.eq_false_iff.mp hx),
        List.find?_nil, Option.or_none, List.filterMap_cons_none (EffectRun.step?_of_not_counts hx),
        List.filterMap_nil, List.append_nil]
      exact ih
    | true =>
      obtain ⟨increment, heffect⟩ := EffectRun.counts_iff.mp hx
      have hstep : [x].filterMap (·.step? name) =
          (Counter.stepped increment x.event.value).toList := by
        rw [← EffectRun.step?_of_counter heffect]
        cases h : x.step? name <;> simp [h]
      rw [get?_count_of_counter _ heffect, List.find?_cons_of_pos hx, hstep]
      cases hfirst : runs.find? (·.counts name) with
      | none =>
        have hnone : runs.filterMap (·.step? name) = [] := by
          refine List.filterMap_eq_nil_iff.mpr fun y hy => EffectRun.step?_of_not_counts ?_
          exact Bool.eq_false_iff.mpr (List.find?_eq_none.mp hfirst y hy)
        rw [hfirst] at ih
        rw [ih, hnone]
        exact ⟨_, rfl, (Counter.stepped_start x.range).step increment x.event.value⟩
      | some first =>
        rw [hfirst] at ih
        obtain ⟨c, hc, hstepped⟩ := ih
        rw [hc]
        exact ⟨_, rfl, hstepped.step increment x.event.value⟩

theorem exists_first {c : Counter} {runs : List EffectRun}
    (h : (after runs).get? name = some c) : ∃ first, runs.find? (·.counts name) = some first ∧
      (Counter.start first.range).Stepped (runs.filterMap (·.step? name)) c := by
  have hafter := get?_after name runs
  cases hfirst : runs.find? (·.counts name) with
  | none =>
    rw [hfirst] at hafter
    cases hafter.symm.trans h
  | some first =>
    rw [hfirst] at hafter
    obtain ⟨_, hsome, hstepped⟩ := hafter
    cases hsome.symm.trans h
    exact ⟨first, rfl, hstepped⟩

/-- What a counter effect gives is what its counter then holds. -/
theorem value?_after_concat (config : RouterConfig) {d : Desk} {runs : List EffectRun}
    {increment : Float} (heffect : x.effect = .counter name increment)
    (hd : d.counters = after runs) : (after (runs ++ [x])).value? name =
      some (d.runEffect config x.range x.event x.effect).2.value := by
  unfold value?
  rw [after_concat, get?_count_of_counter _ heffect, heffect, ← hd]
  rfl

end Counters

/-! ## Effects at a desk -/

namespace Desk

variable (config : RouterConfig) (d : Desk)

theorem counters_tap (player : String) (beats : Float) :
    (d.tap config player beats).counters = d.counters := by
  unfold tap
  split
  · rfl
  · dsimp only
    split <;> rfl

theorem counters_runEffect (x : EffectRun) :
    (d.runEffect config x.range x.event x.effect).1.counters = d.counters.count x := by
  unfold Counters.count
  cases h : x.effect with
  | tap player => exact d.counters_tap config player x.event.value
  | _ => rfl

theorem counters_rerun (runs : List EffectRun) :
    (d.rerun config runs).counters = runs.foldl Counters.count d.counters := by
  induction runs generalizing d with
  | nil => rfl
  | cons x rest ih =>
    rw [List.foldl_cons, ← counters_runEffect config]
    exact ih _

theorem mem_effectsTrace {range : Option Route} {effects : List Effect} {e : Event} {x : EffectRun}
    (h : x ∈ d.effectsTrace config range e effects) : x.effect ∈ effects ∧ x.range = range := by
  induction effects generalizing d e with
  | nil => cases h
  | cons effect rest ih =>
    rcases List.mem_cons.mp h with rfl | h
    · exact ⟨List.mem_cons_self, rfl⟩
    · exact (ih _ h).imp_left (List.mem_cons_of_mem _)

theorem mem_ruleTrace {rule : Rule} {e : Event} {x : EffectRun}
    (h : x ∈ d.ruleTrace config e rule) : x.effect ∈ rule.effects ∧ x.range = rule.value := by
  unfold ruleTrace at h
  dsimp only at h
  split at h
  · obtain ⟨effect, heffect, hx⟩ := List.mem_filterMap.mp h
    split at hx
    · cases hx
      exact ⟨heffect, rfl⟩
    · cases hx
      exact ⟨heffect, rfl⟩
    · cases hx
  · exact d.mem_effectsTrace config h

theorem mem_trace {rules : List Rule} {e : Event} {x : EffectRun}
    (h : x ∈ d.trace config e rules) :
    ∃ rule ∈ rules, x.effect ∈ rule.effects ∧ x.range = rule.value := by
  induction rules generalizing d with
  | nil => cases h
  | cons rule rest ih =>
    rcases List.mem_append.mp h with h | h
    · exact ⟨rule, List.mem_cons_self, d.mem_ruleTrace config h⟩
    · obtain ⟨other, hother, hx⟩ := ih _ h
      exact ⟨other, List.mem_cons_of_mem _ hother, hx⟩

end Desk

/-! ## Runs of a router -/

namespace Rig

/-- The effects that are run in an operation. -/
def opRuns (g : Rig) : RigOp → List EffectRun
  | .handle e => g.trace e
  | _ => []

/-- The effects that are run in operations, in turn. -/
def effectRuns (g : Rig) : List RigOp → List EffectRun
  | [] => []
  | op :: rest => g.opRuns op ++ (g.step op).effectRuns rest

theorem counters_step (g : Rig) (op : RigOp) :
    (g.step op).router.counters = (g.opRuns op).foldl Counters.count g.router.counters := by
  cases op with
  | handle e =>
    have hdesk := congrArg Desk.counters
      (Desk.blank_rerun_trace g.router.config (g.desk e) e (g.router.matching e))
    exact hdesk.symm.trans (Desk.counters_rerun g.router.config (g.desk e) (g.trace e))
  | _ => rfl

/-- Nothing but effects touches the counters. -/
theorem counters_run (g : Rig) (ops : List RigOp) :
    (g.run ops).router.counters = (g.effectRuns ops).foldl Counters.count g.router.counters := by
  induction ops generalizing g with
  | nil => rfl
  | cons op rest ih =>
    rw [effectRuns, List.foldl_append, ← counters_step]
    exact ih _

/-! ### Where the effects come from -/

theorem mem_parts {part rule : Rule} (h : part ∈ Router.parts rule) :
    part.value = rule.value ∧ part.effects = rule.effects := by
  unfold Router.parts at h
  split at h
  · obtain ⟨_, rfl⟩ := Rule.eq_of_mem_perChannel h
    exact ⟨rfl, rfl⟩
  · rw [List.mem_singleton.mp h]
    exact ⟨rfl, rfl⟩

/-- The router only has rules that were installed. -/
theorem mem_rules_step {g : Rig} {op : RigOp} {installed : Installed}
    (h : installed ∈ (g.step op).router.rules) : installed ∈ g.router.rules ∨
      ∃ rule scope, op = .install rule scope ∧ installed.rule ∈ Router.parts rule := by
  cases op with
  | install rule scope =>
    have hrules : (g.step (.install rule scope)).router.rules = _ :=
      Router.rules_install g.router g.stage.engine rule scope
    rw [hrules] at h
    refine (List.mem_append.mp h).imp_right fun h => ⟨rule, scope, rfl, ?_⟩
    obtain ⟨part, hpart, rfl⟩ := List.mem_map.mp h
    exact (List.mem_filter.mp hpart).1
  | clearPatch => exact .inl (List.mem_filter.mp h).1
  | reset => cases h
  | handle e => exact .inl h
  | move mv => exact .inl h

theorem mem_effectRuns {g : Rig} {ops : List RigOp} {p : Rule → Prop}
    (hrules : ∀ installed ∈ g.router.rules, p installed.rule)
    (hops : ∀ rule scope, .install rule scope ∈ ops → ∀ part ∈ Router.parts rule, p part)
    {x : EffectRun} (h : x ∈ g.effectRuns ops) :
    ∃ rule, p rule ∧ x.effect ∈ rule.effects ∧ x.range = rule.value := by
  induction ops generalizing g with
  | nil => cases h
  | cons op rest ih =>
    rcases List.mem_append.mp h with h | h
    · cases op with
      | handle e =>
        obtain ⟨rule, hrule, hx⟩ := Desk.mem_trace g.router.config (g.desk e) h
        obtain ⟨installed, hinstalled, rfl⟩ := List.mem_map.mp (List.mem_filter.mp hrule).1
        exact ⟨installed.rule, hrules installed hinstalled, hx⟩
      | _ => cases h
    · refine ih (fun installed hinstalled => ?_)
        (fun rule scope hop => hops rule scope (List.mem_cons_of_mem _ hop)) h
      rcases mem_rules_step hinstalled with hinstalled | ⟨rule, scope, rfl, hpart⟩
      · exact hrules installed hinstalled
      · exact hops rule scope List.mem_cons_self installed.rule hpart

theorem exists_install {config : RouterConfig} {stage : Stage} {ops : List RigOp} {x : EffectRun}
    (h : x ∈ (start config stage).effectRuns ops) : ∃ rule scope, .install rule scope ∈ ops ∧
      x.effect ∈ rule.effects ∧ x.range = rule.value := by
  obtain ⟨part, ⟨rule, scope, hop, hpart⟩, heffect, hrange⟩ := mem_effectRuns
    (p := fun part => ∃ rule scope, .install rule scope ∈ ops ∧ part ∈ Router.parts rule)
    (fun _ hnone => absurd hnone List.not_mem_nil)
    (fun rule scope hop part hpart => ⟨rule, scope, hop, hpart⟩) h
  obtain ⟨hvalue, heffects⟩ := mem_parts hpart
  exact ⟨rule, scope, hop, heffects ▸ heffect, hrange.trans hvalue⟩

/-! ### Range -/

/-- The counters of a rule step by numbers, and start from one in a finite range. -/
structure CountsNumbers (rule : Rule) : Prop where
  step : ∀ name increment, .counter name increment ∈ rule.effects → increment.isNaN = false
  start : (Counter.start rule.value).value.isNaN = false
  bounded : (Counter.start rule.value).IsBounded

theorem between_of_countsNumbers {config : RouterConfig} {stage : Stage} {ops : List RigOp}
    {runs : List EffectRun} {name : String} {c : Counter}
    (hops : ∀ rule scope, .install rule scope ∈ ops → CountsNumbers rule)
    (hruns : runs <+: (start config stage).effectRuns ops)
    (hc : (Counters.after runs).get? name = some c) : c.low ≤ c.value ∧ c.value ≤ c.high := by
  obtain ⟨first, hfirst, h⟩ := Counters.exists_first hc
  obtain ⟨rule, scope, hop, -, hrange⟩ :=
    exists_install (hruns.subset (List.mem_of_find?_eq_some hfirst))
  have hnumbers := hops rule scope hop
  rw [hrange] at h
  rw [h.low, h.high]
  refine h.between_of_isBounded hnumbers.start hnumbers.bounded fun step hstep => ?_
  obtain ⟨x, hx, hstep⟩ := List.mem_filterMap.mp hstep
  obtain ⟨rule, scope, hop, heffect, -⟩ := exists_install (hruns.subset hx)
  exact (hops rule scope hop).step name step (EffectRun.effect_of_step? hstep ▸ heffect)

/-- At any time every counter lies in the range of the rule that made it, or is NaN, and what a
counter effect gives is what its counter then holds. One that is NaN started so, or a rule steps it
by NaN, or by an infinity in an infinite range. No counter of other rules ever leaves its range. -/
theorem counters_between (config : RouterConfig) (stage : Stage) (ops : List RigOp) :
    let g := start config stage
    (g.run ops).router.counters = Counters.after (g.effectRuns ops) ∧
      (∀ runs, runs <+: g.effectRuns ops → ∀ name c, (Counters.after runs).get? name = some c →
        ∃ first, runs.find? (·.counts name) = some first ∧
          (Counter.start first.range).Stepped (runs.filterMap (·.step? name)) c) ∧
      (∀ x ∈ g.effectRuns ops, ∃ rule scope, .install rule scope ∈ ops ∧
        x.effect ∈ rule.effects ∧ x.range = rule.value) ∧
      (∀ runs x, runs ++ [x] <+: g.effectRuns ops → ∀ name increment,
        x.effect = .counter name increment → ∀ d : Desk, d.counters = Counters.after runs →
          (Counters.after (runs ++ [x])).value? name =
            some (d.runEffect config x.range x.event x.effect).2.value) ∧
      ((∀ rule scope, .install rule scope ∈ ops → CountsNumbers rule) →
        ∀ runs, runs <+: g.effectRuns ops → ∀ name c, (Counters.after runs).get? name = some c →
          c.low ≤ c.value ∧ c.value ≤ c.high) := by
  intro g
  refine ⟨g.counters_run ops, ?_, fun x hx => exists_install hx, ?_, ?_⟩
  · exact fun runs _ name c hc => Counters.exists_first hc
  · exact fun runs x _ name increment heffect d hd => Counters.value?_after_concat config heffect hd
  · exact fun hops runs hruns name c hc => between_of_countsNumbers hops hruns hc

/-- A dial that is turned past its end. -/
theorem counters_between_dial :
    let dial : Rule := ⟨.control, .control, none, none, none, none, none, [.counter "dial" 50.0]⟩
    let turn : RigOp := .handle (Event.make .control (some 1) (some 7) 1.0)
    let g := (start .default (Stage.make 1000.0 .default)).run
      [.install dial .patch, turn, turn, turn]
    CountsNumbers dial ∧ ∃ c, g.router.counters.get? "dial" = some c ∧
      c.low ≤ c.value ∧ c.value ≤ c.high := by
  intro dial turn g
  have hdial : CountsNumbers dial := by
    refine ⟨fun name increment h => ?_, by decide +kernel, by decide +kernel, by decide +kernel⟩
    cases List.mem_singleton.mp h
    decide +kernel
  have hops : ∀ rule scope, RigOp.install rule scope ∈ [.install dial .patch, turn, turn, turn] →
      CountsNumbers rule := by
    intro rule scope h
    simp only [turn, List.mem_cons, RigOp.install.injEq, reduceCtorEq, List.not_mem_nil,
      or_false] at h
    exact h.1 ▸ hdial
  have hsome : (g.router.counters.get? "dial").isSome = true := by decide +kernel
  obtain ⟨c, hc⟩ := Option.isSome_iff_exists.mp hsome
  obtain ⟨hcounters, -, -, -, hbetween⟩ := counters_between .default (Stage.make 1000.0 .default)
    [.install dial .patch, turn, turn, turn]
  exact ⟨hdial, c, hc, hbetween hops _ List.prefix_rfl "dial" c (hcounters ▸ hc)⟩

/-- A rule may be compiled whose step is NaN, and its counter leaves the range. -/
theorem counter_loses_range :
    ((Rule.ofText .empty "cc:1/1 counter=c inc=nan").toOption.bind fun rule =>
      ((start .default (Stage.make 1000.0 .default)).run
        [.install rule .patch, .handle (Event.make .control (some 1) (some 1) 5.0)]
      ).router.counters.get? "c").map
        (fun c => (decide (c.low ≤ c.value), decide (c.value ≤ c.high))) = some (false, false) := by
  decide +kernel

end Rig

end MidiRig
