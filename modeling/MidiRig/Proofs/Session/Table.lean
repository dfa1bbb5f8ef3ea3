import MidiRig.Proofs.Session.Operation

/-!
# The engine's table in a session

Only the router writes the engine's table: whatever else is done to the stage leaves it alone
(`Stage.native_run`). So in every session that can be reached the table holds the rules that the
router has given to the engine, the newest first (`Session.fills_start`).
-/

namespace MidiRig

namespace Session

variable {s t : Session}

/-- The router has told the engine about its rules. -/
def Fills (s : Session) : Prop := s.router.Fills s.stage.engine

theorem fills_of_run (h : s.Fills) {moves : List Move} (hmoves : ∀ mv ∈ moves, mv.KeepsTable)
    (hstage : t.stage = s.stage.run moves) (hnative : t.router.native = s.router.native) :
    t.Fills := by
  unfold Fills Router.Fills at h ⊢
  rw [hstage, hnative, Stage.native_run hmoves]
  exact h

theorem fills_install (h : s.Fills) (rule : Rule) (scope : Scope) :
    (s.install rule scope).Fills := Router.fills_install h rule scope

theorem fills_ruled (h : s.Fills) (names : Names) (rules : List Rule) :
    (s.ruled names rules).Fills :=
  List.foldlRecOn rules _ (Router.fills_clearPatch h) fun _ ht rule _ =>
    fills_install ht rule .patch

theorem fills_settleAll (h : s.Fills) (players : Dict PlayerDef) :
    Fills { s with stage := settleAll s.stage players } := by
  refine fills_of_run h ?_ (settleAll_eq s.stage players) rfl
  rintro mv hmv rules rfl
  simp at hmv

theorem fills_applyPatch (h : s.Fills) {bank : Bank} {patch : Patch} :
    (s.orSame (s.applyPatch bank patch)).Fills := by
  obtain ⟨hsame, -⟩ | ⟨rules, hsession, -⟩ := s.applyPatch_cases bank patch
  · rw [hsame]
    exact h
  · rw [hsession]
    exact fills_settleAll (fills_ruled h bank.names rules) patch.players

theorem Routed.fills {moves : List Move} (hrouted : s.Routed t moves) (h : s.Fills) : t.Fills := by
  cases hrouted with
  | refused => exact h
  | install rule scope => exact fills_install h rule scope
  | handle e =>
    exact fills_of_run h (fun _ hmv => Router.keepsTable_handleMoves hmv)
      (s.router.stage_handle s.stage e) rfl
  | applyPatch bank patch => exact fills_applyPatch h

theorem fills_step (h : s.Fills) (op : Op) : (s.step op).Fills := by
  have hother : (∀ mv ∈ s.moves op, mv.KeepsTable) →
      (s.step op).router.native = s.router.native → (s.step op).Fills :=
    fun hmoves hnative => fills_of_run h hmoves (s.stage_step op) hnative
  have hrouted := s.routed_step op
  cases op with
  | install | addRule | addSpec | handle | handleBytes | applyPatch | selectPatch =>
    exact (hrouted trivial).fills h
  | resetRules => exact Router.fills_reset s.router s.stage.engine
  | addPlayer name d =>
    refine hother (by simp [moves, Move.KeepsTable]) ?_
    simp only [step, addPlayer]
    cases s.stage.add name d <;> rfl
  | call name c =>
    refine hother (by simp [moves, Move.KeepsTable]) ?_
    simp only [step, call?]
    cases s.stage.call? name c <;> rfl
  | advance tick =>
    refine hother (fun mv hmv rules => ?_) rfl
    rcases List.mem_append.mp hmv with hmv | hmv
    · rw [(List.mem_replicate.mp hmv).2]
      intro htable
      cases htable
    · rw [List.mem_singleton.mp hmv]
      intro htable
      cases htable
  | _ => exact hother (by simp [moves, Move.KeepsTable]) rfl

theorem fills_run (h : s.Fills) (ops : List Op) : (s.run ops).Fills := by
  induction ops generalizing s with
  | nil => exact h
  | cons op rest ih => exact ih (fills_step h op)

theorem fills_start (rate : Float) (config : Config) (ops : List Op) :
    ((start rate config).run ops).Fills :=
  fills_run (s := start rate config) (Router.fills_make config.router rate) ops

end Session

end MidiRig
