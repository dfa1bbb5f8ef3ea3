import MidiRig.Router.Basic

/-!
# Installed rules and the engine's table

What installing and removing does to the two lists of a router, and to the engine: only its table
changes, and it always holds the rules that are the engine's, the newest first (`Router.Fills`).
-/

namespace MidiRig

namespace Router

/-! ## Filling the table -/

theorem foldl_addNative (rules : List Installed) (engine : Engine) :
    rules.foldl (fun engine installed => engine.addNative installed.rule) engine =
      { engine with native := engine.native ++ rules.map Installed.rule } := by
  induction rules generalizing engine with
  | nil => simp
  | cons installed rest ih =>
    rw [List.foldl_cons, ih]
    simp [Engine.addNative]

/-- The table holds the rules that the engine applies, the newest first. -/
theorem fillTable_eq (r : Router) (engine : Engine) :
    r.fillTable engine = { engine with native := (r.native.map Installed.rule).reverse } := by
  unfold fillTable
  rw [foldl_addNative, List.map_reverse]
  simp [Engine.clearNative]

theorem engine_install (r : Router) (engine : Engine) (rule : Rule) (scope : Scope) :
    (r.install engine rule scope).2 =
      { engine with native := (r.install engine rule scope).2.native } := by
  simp only [install]
  split
  · rfl
  · rw [fillTable_eq]

theorem engine_reset (r : Router) (engine : Engine) :
    (r.reset engine).2 = { engine with native := (r.reset engine).2.native } := by
  simp only [reset, fillTable_eq]

theorem engine_clearPatch (r : Router) (engine : Engine) :
    (r.clearPatch engine).2 = { engine with native := (r.clearPatch engine).2.native } := by
  simp only [clearPatch]
  split
  · rfl
  · rw [fillTable_eq]

/-- The engine's table holds what the router has given to the engine, the newest rule first. -/
def Fills (r : Router) (e : Engine) : Prop := e.native = (r.native.map Installed.rule).reverse

variable {r : Router} {e : Engine}

theorem fills_make (config : RouterConfig) (rate : Float) :
    (Router.make config).Fills (Engine.make rate) := rfl

theorem fills_fillTable (r : Router) (e : Engine) : r.Fills (r.fillTable e) := by
  unfold Fills
  rw [fillTable_eq]

/-! ## The two lists -/

/-- Rules installed with a scope. -/
def asInstalled (scope : Scope) (rules : List Rule) : List Installed :=
  rules.map fun rule => ⟨rule, scope⟩

theorem asInstalled_append (scope : Scope) (xs ys : List Rule) :
    asInstalled scope (xs ++ ys) = asInstalled scope xs ++ asInstalled scope ys := List.map_append

/-- The router keeps the parts that are not for the engine. -/
theorem rules_install (r : Router) (e : Engine) (rule : Rule) (scope : Scope) :
    (r.install e rule scope).1.rules =
      r.rules ++ asInstalled scope ((parts rule).filter fun part => !isNative r.config part) := by
  simp only [install, List.partition_eq_filter_filter]
  rfl

theorem native_install (r : Router) (e : Engine) (rule : Rule) (scope : Scope) :
    (r.install e rule scope).1.native =
      r.native ++ asInstalled scope ((parts rule).filter (isNative r.config)) := by
  simp only [install, List.partition_eq_filter_filter]
  rfl

theorem fills_install (h : r.Fills e) (rule : Rule) (scope : Scope) :
    (r.install e rule scope).1.Fills (r.install e rule scope).2 := by
  have hnative := r.native_install e rule scope
  simp only [install, List.partition_eq_filter_filter] at hnative ⊢
  split
  · next hnone =>
    unfold Fills at h ⊢
    rw [hnative, List.isEmpty_iff.mp hnone]
    simpa [asInstalled] using h
  · exact fills_fillTable _ _

theorem fills_reset (r : Router) (e : Engine) : (r.reset e).1.Fills (r.reset e).2 :=
  fills_fillTable _ _

theorem fills_clearPatch (h : r.Fills e) : (r.clearPatch e).1.Fills (r.clearPatch e).2 := by
  simp only [clearPatch]
  split
  · next hnone =>
    unfold Fills at h ⊢
    rw [List.isEmpty_iff.mp hnone] at h ⊢
    exact h
  · exact fills_fillTable _ _

end Router

end MidiRig
