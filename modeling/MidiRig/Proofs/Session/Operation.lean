import MidiRig.Proofs.Router.Moves
import MidiRig.Proofs.Router.Table
import MidiRig.Proofs.Stage.Drain
import MidiRig.Session

/-!
# Runs of a session

`Op` is everything that can be asked of a session, and what its owner may do to the engine and the
players it holds. A session can be reached when it is one after some list of operations from a
fresh start. Each operation makes moves on the stage (`Session.stage_step`), so the lives of the
players go on through every run (`Session.lives_run`).
-/

namespace MidiRig

inductive Op where
  | setName (name value : String)
  | install (rule : Rule) (scope : Scope)
  | addRule (text : String) (scope : Scope)
  | addSpec (spec : RuleSpec) (scope : Scope)
  | resetRules
  | handle (e : Event)
  | handleBytes (bytes : List UInt8)
  | addPlayer (name : String) (d : PlayerDef)
  | removePlayer (name : String)
  | call (name : String) (c : Call)
  /-- A callback comes for a player, whether or not one was queued. -/
  | wake (player : Nat)
  | fileTick (position : Nat)
  /-- The engine says that it has played a queued event. -/
  | scheduled (e : Event)
  | advance (tick : Nat)
  | applyPatch (bank : Bank) (patch : Patch)
  | selectPatch (bank : Bank) (name : String)
  | setMonitor
  | clearMonitor
  | openChannel
  | closeChannel
  | drainChannel
  /-- One item is taken from the engine, if it is due, and delivered. -/
  | deliver (limit : Nat)
  | use (u : EngineUse)

/-- Operations that go no further than to players and rules. -/
def Op.Plain : Op → Prop
  | .advance _ | .deliver _ | .use _ => False
  | _ => True

/-- Operations that install a rule, handle an event or apply a patch, whether they are given it or
have to read or find it first. -/
def Op.GoesToRouter : Op → Prop
  | .install _ _ | .addRule _ _ | .addSpec _ _ | .handle _ | .handleBytes _ | .applyPatch _ _
  | .selectPatch _ _ => True
  | _ => False

/-! ## Moves that arrange a stage -/

/-- Moves that say which rules the engine has and which players there are. -/
def Move.Arranges : Move → Prop
  | .table _ | .add _ _ | .remove _ => True
  | _ => False

theorem Move.Arranges.plain {mv : Move} (h : mv.Arranges) : mv.Plain := by
  cases mv with
  | table rules | add name d | remove name => trivial
  | _ => exact h.elim

theorem Move.Arranges.leaves {mv : Move} (h : mv.Arranges) : mv.leaves false = false := by
  cases mv with
  | table rules | add name d | remove name => rfl
  | _ => exact h.elim

theorem Move.Arranges.makes {mv : Move} (h : mv.Arranges) (r : Conduct) (t : Stage) :
    t.Makes r false mv := by
  cases mv with
  | table rules | add name d | remove name => exact ⟨trivial, nofun⟩
  | _ => exact h.elim

/-! ## Runs -/

namespace Session

/-- A fresh engine with its own tick rate, and nothing installed. -/
def start (rate : Float) (config : Config) : Session :=
  { make config with stage := .make rate config.sequencer }

/-- A failed operation leaves the session as it was. -/
def orSame (s : Session) (result : Except Fault Session) : Session := result.toOption.getD s

def step (s : Session) : Op → Session
  | .setName name value => s.setName name value
  | .install rule scope => s.install rule scope
  | .addRule text scope => s.orSame (s.addRule text scope)
  | .addSpec spec scope => s.orSame (s.addSpec spec scope)
  | .resetRules => s.resetRules
  | .handle e => (s.handle e).2
  | .handleBytes bytes => (s.handleBytes bytes).getD s
  | .addPlayer name d => s.orSame ((s.addPlayer name d).map Prod.snd)
  | .removePlayer name => s.removePlayer name
  | .call name c => (s.call? name c).getD s
  | .wake player => s.wake player
  | .fileTick position => s.fileTick position
  | .scheduled e => s.report [e]
  | .advance tick => s.advance tick
  | .applyPatch bank patch => s.orSame (s.applyPatch bank patch)
  | .selectPatch bank name => s.orSame (s.selectPatch bank name)
  | .setMonitor => s.setMonitor
  | .clearMonitor => s.clearMonitor
  | .openChannel => s.openChannel
  | .closeChannel => s.closeChannel
  | .drainChannel => s.drainChannel
  | .deliver limit => { s with stage := s.stage.move (.deliver limit) }
  | .use u => { s with stage := s.stage.move (.use u) }

def run (s : Session) (ops : List Op) : Session := ops.foldl step s

theorem run_append (s : Session) (xs ys : List Op) : s.run (xs ++ ys) = (s.run xs).run ys :=
  List.foldl_append

/-! ## Operations as moves -/

/-- What a session does to its stage to install a rule. -/
def installMoves (s : Session) (rule : Rule) (scope : Scope) : List Move :=
  [.table (s.install rule scope).stage.engine.native]

/-- With other names, and with rules in place of those of the patch. -/
def ruled (s : Session) (names : Names) (rules : List Rule) : Session :=
  rules.foldl (fun s rule => s.install rule .patch) ({ s with names }.onRouter Router.clearPatch)

/-- What a session does to its stage to switch to a patch. -/
def patchMoves (s : Session) (bank : Bank) (patch : Patch) : List Move :=
  match patchRules bank patch, patch.players.entries.forM fun entry => entry.2.validate entry.1 with
  | .ok rules, .ok () =>
    .table (s.ruled bank.names rules).stage.engine.native ::
      ((s.stage.directory.names.filter fun name => !patch.players.names.contains name).map
        .remove ++ patch.players.entries.map fun entry => .add entry.1 entry.2)
  | _, _ => []

def moves (s : Session) : Op → List Move
  | .install rule scope => s.installMoves rule scope
  | .addRule text scope =>
    match s.compile text with
    | .ok rule => s.installMoves rule scope
    | .error _ => []
  | .addSpec spec scope =>
    match s.compileSpec spec with
    | .ok rule => s.installMoves rule scope
    | .error _ => []
  | .resetRules => [.table s.resetRules.stage.engine.native]
  | .handle e => s.router.handleMoves s.stage e
  | .handleBytes bytes =>
    match Event.ofBytes? bytes with
    | some e => s.router.handleMoves s.stage e
    | none => []
  | .addPlayer name d => [.add name d]
  | .removePlayer name => [.remove name]
  | .call name c => [.call name c]
  | .wake player => [.wake player]
  | .fileTick position => [.report position]
  | .advance tick =>
    List.replicate (s.stage.drain tick).1.length (.deliver tick) ++ [.use (.setTick tick)]
  | .applyPatch bank patch => s.patchMoves bank patch
  | .selectPatch bank name =>
    match bank.patch name with
    | .ok patch => s.patchMoves bank patch
    | .error _ => []
  | .deliver limit => [.deliver limit]
  | .use u => [.use u]
  | .setName _ _ | .scheduled _ | .setMonitor | .clearMonitor | .openChannel | .closeChannel
  | .drainChannel => []

variable (s : Session)

theorem stage_install (rule : Rule) (scope : Scope) :
    (s.install rule scope).stage = s.stage.run (s.installMoves rule scope) := by
  have hengine := s.router.engine_install s.stage.engine rule scope
  exact congrArg (fun engine => ({ s.stage with engine } : Stage)) hengine

theorem stage_resetRules :
    s.resetRules.stage = s.stage.move (.table s.resetRules.stage.engine.native) := by
  have hengine := s.router.engine_reset s.stage.engine
  exact congrArg (fun engine => ({ s.stage with engine } : Stage)) hengine

theorem stage_installs (rules : List Rule) (scope : Scope) :
    (rules.foldl (fun s rule => s.install rule scope) s).stage =
      s.stage.move (.table
        (rules.foldl (fun s rule => s.install rule scope) s).stage.engine.native) := by
  induction rules generalizing s with
  | nil => rfl
  | cons rule rest ih =>
    rw [List.foldl_cons, ih, stage_install]
    rfl

theorem stage_ruled (names : Names) (rules : List Rule) :
    (s.ruled names rules).stage =
      s.stage.move (.table (s.ruled names rules).stage.engine.native) := by
  have hengine := s.router.engine_clearPatch s.stage.engine
  have hcleared : ({ s with names }.onRouter Router.clearPatch).stage =
      s.stage.move (.table (s.router.clearPatch s.stage.engine).2.native) :=
    congrArg (fun engine => ({ s.stage with engine } : Stage)) hengine
  unfold ruled
  rw [stage_installs, hcleared]
  rfl

theorem settleAll_eq (stage : Stage) (players : Dict PlayerDef) :
    settleAll stage players = stage.run
      ((stage.directory.names.filter fun name => !players.names.contains name).map .remove ++
        players.entries.map fun entry => .add entry.1 entry.2) := by
  have hremove : ∀ (names : List String) (t : Stage),
      names.foldl Stage.remove t = t.run (names.map .remove) := by
    intro names
    induction names with
    | nil => intro t; rfl
    | cons name rest ih => exact fun t => ih (t.remove name)
  have hsettle : ∀ (entries : List (String × PlayerDef)) (t : Stage),
      entries.foldl (fun t entry => settle t entry.1 entry.2) t =
        t.run (entries.map fun entry => .add entry.1 entry.2) := by
    intro entries
    induction entries with
    | nil => intro t; rfl
    | cons entry rest ih => exact fun t => ih (settle t entry.1 entry.2)
  rw [settleAll, Stage.keepOnly, hremove, hsettle, Stage.run_append]

theorem applyPatch_eq (bank : Bank) (patch : Patch) :
    s.applyPatch bank patch = (do
      let rules ← patchRules bank patch
      patch.players.entries.forM fun entry => entry.2.validate entry.1
      return { s.ruled bank.names rules with
        stage := settleAll (s.ruled bank.names rules).stage patch.players }) := rfl

/-- A switch is refused and nothing is done, or all of it is done. -/
theorem applyPatch_cases (bank : Bank) (patch : Patch) :
    (s.orSame (s.applyPatch bank patch) = s ∧ s.patchMoves bank patch = []) ∨
      ∃ rules, s.orSame (s.applyPatch bank patch) =
          { s.ruled bank.names rules with
            stage := settleAll (s.ruled bank.names rules).stage patch.players } ∧
        s.patchMoves bank patch = .table (s.ruled bank.names rules).stage.engine.native ::
          ((s.stage.directory.names.filter fun name => !patch.players.names.contains name).map
            .remove ++ patch.players.entries.map fun entry => .add entry.1 entry.2) := by
  rw [applyPatch_eq]
  unfold patchMoves
  cases patchRules bank patch with
  | error fault => exact .inl ⟨rfl, rfl⟩
  | ok rules =>
    cases patch.players.entries.forM fun entry => entry.2.validate entry.1 with
    | error fault => exact .inl ⟨rfl, rfl⟩
    | ok _ => exact .inr ⟨rules, rfl, rfl⟩

theorem stage_applyPatch (bank : Bank) (patch : Patch) :
    (s.orSame (s.applyPatch bank patch)).stage = s.stage.run (s.patchMoves bank patch) := by
  obtain ⟨hsame, hmoves⟩ | ⟨rules, hsession, hmoves⟩ := s.applyPatch_cases bank patch
  · rw [hsame, hmoves]
    rfl
  · rw [hsession, hmoves]
    show settleAll (s.ruled bank.names rules).stage patch.players = _
    rw [settleAll_eq, stage_ruled]
    rfl

theorem arranges_installMoves {rule : Rule} {scope : Scope} :
    ∀ mv ∈ s.installMoves rule scope, mv.Arranges := by
  intro mv hmv
  rw [List.mem_singleton.mp hmv]
  trivial

theorem arranges_patchMoves {bank : Bank} {patch : Patch} :
    ∀ mv ∈ s.patchMoves bank patch, mv.Arranges := by
  intro mv hmv
  obtain ⟨-, hmoves⟩ | ⟨rules, -, hmoves⟩ := s.applyPatch_cases bank patch
  · rw [hmoves] at hmv
    cases hmv
  · rw [hmoves] at hmv
    rcases List.mem_cons.mp hmv with rfl | hmv
    · trivial
    rcases List.mem_append.mp hmv with hmv | hmv
    · obtain ⟨name, -, rfl⟩ := List.mem_map.mp hmv
      trivial
    · obtain ⟨entry, -, rfl⟩ := List.mem_map.mp hmv
      trivial

/-! ## What goes through the router -/

/-- What becomes of a session, and the moves on its stage, when a rule is installed, an event is
handled or a patch is applied. -/
inductive Routed (s : Session) : Session → List Move → Prop
  /-- What is said in a text, in bytes or by a name is not understood. -/
  | refused : Routed s s []
  | install (rule : Rule) (scope : Scope) :
    Routed s (s.install rule scope) (s.installMoves rule scope)
  | handle (e : Event) : Routed s (s.handle e).2 (s.router.handleMoves s.stage e)
  | applyPatch (bank : Bank) (patch : Patch) :
    Routed s (s.orSame (s.applyPatch bank patch)) (s.patchMoves bank patch)

/-- However the rule, the event or the patch is told, the operation comes to the same. -/
theorem routed_step (op : Op) (hop : op.GoesToRouter) : s.Routed (s.step op) (s.moves op) := by
  cases op with
  | install rule scope => exact .install rule scope
  | addRule text scope =>
    simp only [step, addRule, moves]
    cases s.compile text with
    | error fault => exact .refused
    | ok rule => exact .install rule scope
  | addSpec spec scope =>
    simp only [step, addSpec, moves]
    cases s.compileSpec spec with
    | error fault => exact .refused
    | ok rule => exact .install rule scope
  | handle e => exact .handle e
  | handleBytes bytes =>
    simp only [step, handleBytes, moves]
    cases Event.ofBytes? bytes with
    | none => exact .refused
    | some e => exact .handle e
  | applyPatch bank patch => exact .applyPatch bank patch
  | selectPatch bank name =>
    simp only [step, selectPatch, moves]
    cases bank.patch name with
    | error fault => exact .refused
    | ok patch => exact .applyPatch bank patch
  | _ => exact hop.elim

variable {s} {t : Session} {moves : List Move}

theorem Routed.stage (h : s.Routed t moves) : t.stage = s.stage.run moves := by
  cases h with
  | refused => rfl
  | install rule scope => exact s.stage_install rule scope
  | handle e => exact s.router.stage_handle s.stage e
  | applyPatch bank patch => exact s.stage_applyPatch bank patch

theorem Routed.plain (h : s.Routed t moves) : ∀ mv ∈ moves, mv.Plain := by
  cases h with
  | refused => exact nofun
  | install rule scope => exact fun mv hmv => (s.arranges_installMoves mv hmv).plain
  | handle e =>
    intro mv hmv
    rcases List.mem_cons.mp hmv with rfl | hmv
    · trivial
    · exact (Router.isRuleMove_rulesMoves hmv).plain
  | applyPatch bank patch => exact fun mv hmv => (s.arranges_patchMoves mv hmv).plain

/-- The moves may happen at any time. -/
theorem Routed.makesAll (h : s.Routed t moves) (r : Conduct) :
    s.stage.MakesAll r false moves := by
  refine Stage.makesAll_of_forall fun mv hmv => ?_
  cases h with
  | refused => cases hmv
  | install rule scope =>
    have harranges := s.arranges_installMoves mv hmv
    exact ⟨harranges.leaves, harranges.makes r⟩
  | handle e =>
    rcases List.mem_cons.mp hmv with rfl | hmv
    · exact ⟨rfl, fun t => trivial⟩
    · have hrule := Router.isRuleMove_rulesMoves hmv
      exact ⟨hrule.leaves, hrule.makes r⟩
  | applyPatch bank patch =>
    have harranges := s.arranges_patchMoves mv hmv
    exact ⟨harranges.leaves, harranges.makes r⟩

/-! ## Every operation -/

variable (s)

theorem stage_advance (tick : Nat) :
    (s.advance tick).stage = s.stage.run (s.moves (.advance tick)) := by
  show (s.stage.advance tick).2 = _
  rw [moves, Stage.run_append, ← s.stage.drain_eq_run tick]
  rfl

/-- Every operation is moves on the stage. -/
theorem stage_step (op : Op) : (s.step op).stage = s.stage.run (s.moves op) := by
  have hrouted := s.routed_step op
  cases op with
  | install | addRule | addSpec | handle | handleBytes | applyPatch | selectPatch =>
    exact (hrouted trivial).stage
  | resetRules => exact s.stage_resetRules
  | addPlayer name d =>
    simp only [step, addPlayer, moves, Stage.run, Stage.move]
    cases s.stage.add name d with
    | error fault => rfl
    | ok added => rfl
  | call name c =>
    simp only [step, call?, moves, Stage.run, Stage.move, Stage.call]
    cases s.stage.call? name c with
    | none => rfl
    | some stage => rfl
  | advance tick => exact s.stage_advance tick
  | _ => rfl

/-! ## Lives -/

/-- Who has played what in a run. -/
def ledger (s : Session) : List Op → Ledger
  | [] => []
  | op :: rest => s.stage.runLedger (s.moves op) ++ (s.step op).ledger rest

theorem ledger_append (s : Session) (xs ys : List Op) :
    s.ledger (xs ++ ys) = s.ledger xs ++ (s.run xs).ledger ys := by
  induction xs generalizing s with
  | nil => rfl
  | cons op rest ih =>
    show _ ++ (s.step op).ledger (rest ++ ys) = (_ ++ (s.step op).ledger rest) ++ _
    rw [ih, List.append_assoc]
    rfl

/-- Only time, single deliveries and uses of the engine deliver, set the clock or clear the
record. -/
theorem plain_of_mem_moves {s : Session} {op : Op} (hop : op.Plain) {mv : Move}
    (hmv : mv ∈ s.moves op) : mv.Plain := by
  have hrouted := s.routed_step op
  cases op with
  | install | addRule | addSpec | handle | handleBytes | applyPatch | selectPatch =>
    exact (hrouted trivial).plain mv hmv
  | advance tick => exact hop.elim
  | deliver limit => exact hop.elim
  | use u => exact hop.elim
  | resetRules | addPlayer name d | removePlayer name | call name c | wake player
  | fileTick position =>
    rw [List.mem_singleton.mp hmv]
    trivial
  | _ => cases hmv

theorem not_clearSent_of_mem_moves {s : Session} {op : Op} (hop : op ≠ .use .clearSent) {mv : Move}
    (hmv : mv ∈ s.moves op) : mv ≠ .use .clearSent := by
  rintro rfl
  by_cases hplain : op.Plain
  · exact plain_of_mem_moves hplain hmv
  · cases op with
    | advance tick => simp [moves] at hmv
    | deliver limit => simp [moves] at hmv
    | use u =>
      cases List.mem_singleton.mp hmv
      exact hop rfl
    | _ => exact hplain trivial

/-- As long as the record of the engine is not cleared, all that players have played is in it. -/
theorem sublist_sent_ledger {s : Session} (hs : s.stage.directory.Sound) {ops : List Op}
    (hops : ∀ op ∈ ops, op ≠ .use .clearSent) :
    (s.stage.engine.sent ++ (s.ledger ops).map fun x => x.2.sent).Sublist
      (s.run ops).stage.engine.sent := by
  induction ops generalizing s with
  | nil =>
    rw [ledger, List.map_nil, List.append_nil]
    exact .refl _
  | cons op rest ih =>
    have hfirst := Stage.sublist_sent_run hs fun mv hmv =>
      not_clearSent_of_mem_moves (s := s) (hops op List.mem_cons_self) hmv
    rw [← stage_step] at hfirst
    have hnext : (s.step op).stage.directory.Sound := by
      rw [stage_step]
      exact Stage.sound_run hs _
    have hrest := ih hnext fun x hx => hops x (List.mem_cons_of_mem _ hx)
    rw [ledger, List.map_append, ← List.append_assoc]
    exact (hfirst.append_right _).trans hrest

end Session

/-- Whether an operation is one that may happen. Only those that wake a player, deliver single
items or set the clock from outside can be in doubt. -/
def Op.Fits (r : Conduct) : Op → Prop
  | .call _ c => r.Allows c
  | .wake _ => r.wakes
  | .deliver _ => r.skips
  | .use (.setTick _) => r.skips
  | _ => True

theorem Op.fits_free (op : Op) : op.Fits .free := by
  cases op with
  | call name c => cases c <;> trivial
  | use u => cases u <;> trivial
  | _ => trivial

namespace Stage

variable {s : Stage} {r : Conduct} {born : Nat → Option PlayerDef} {busy : Bool} {l : Ledger}

/-- A move by itself, with no delivery before or after it. -/
theorem makesAll_single {mv : Move} (h : s.Makes r false mv) (hleaves : mv.leaves false = false) :
    s.MakesAll r false [mv] := by
  refine ⟨h, ?_⟩
  rw [hleaves]
  exact nofun

/-- While all that is due is delivered the clock does not pass the limit, and when it has been the
clock passes over nothing. -/
theorem makesAll_drain (h : s.Lives r born busy l) (limit : Nat)
    (hbusy : ¬ r.skips → busy = true → s.engine.now ≤ limit) :
    s.MakesAll r busy (List.replicate (s.drain limit).1.length (.deliver limit) ++
      [.use (.setTick limit)]) := by
  fun_induction drain s limit generalizing busy l with
  | case1 s hnone =>
    refine ⟨?_, fun hleft => absurd hleft Bool.false_ne_true⟩
    by_cases hr : r.skips
    · exact .inl hr
    · exact .inr ⟨fun id => lt_agenda_of_popDue? hnone id, hbusy hr⟩
  | case2 s item popped hpop items last hrest ih =>
    rw [hrest, ← Stage.move_deliver hpop] at ih
    rw [List.length_cons, List.replicate_succ, List.cons_append]
    exact ⟨trivial, ih (h.deliver limit) fun hr _ => h.now_deliver_le hr hpop⟩

end Stage

namespace Session

variable {s : Session} {r : Conduct} {born : Nat → Option PlayerDef} {l : Ledger}

theorem makesAll_moves (h : s.stage.Lives r born false l) {op : Op} (hop : op.Fits r) :
    s.stage.MakesAll r false (s.moves op) := by
  have hrouted := s.routed_step op
  cases op with
  | install | addRule | addSpec | handle | handleBytes | applyPatch | selectPatch =>
    exact (hrouted trivial).makesAll r
  | advance tick => exact Stage.makesAll_drain h tick nofun
  | call name c => exact Stage.makesAll_single ⟨hop, nofun⟩ rfl
  | wake player => exact Stage.makesAll_single ⟨hop, nofun⟩ rfl
  | use u =>
    cases u with
    | setTick tick => exact Stage.makesAll_single (.inl hop) rfl
    | _ => exact Stage.makesAll_single trivial rfl
  | deliver limit => exact ⟨trivial, fun _ => hop⟩
  | resetRules => exact Stage.makesAll_single ⟨trivial, nofun⟩ rfl
  | addPlayer name d => exact Stage.makesAll_single ⟨trivial, nofun⟩ rfl
  | removePlayer name => exact Stage.makesAll_single ⟨trivial, nofun⟩ rfl
  | fileTick position => exact Stage.makesAll_single ⟨trivial, nofun⟩ rfl
  | _ => exact nofun

/-- The lives of the players go on through every operation that may happen. -/
theorem lives_step (h : s.stage.Lives r born false l) {op : Op} (hop : op.Fits r) :
    ∃ born', (∀ id d, born id = some d → born' id = some d) ∧
      (s.step op).stage.Lives r born' false (l ++ s.stage.runLedger (s.moves op)) := by
  rw [stage_step]
  exact h.run (makesAll_moves h hop)

theorem lives_run (h : s.stage.Lives r born false l) {ops : List Op}
    (hops : ∀ op ∈ ops, op.Fits r) :
    ∃ born', (∀ id d, born id = some d → born' id = some d) ∧
      (s.run ops).stage.Lives r born' false (l ++ s.ledger ops) := by
  induction ops generalizing s born l with
  | nil =>
    rw [ledger, List.append_nil]
    exact ⟨born, fun _ _ hborn => hborn, h⟩
  | cons op rest ih =>
    obtain ⟨born', hkept, hnext⟩ := lives_step h (hops op List.mem_cons_self)
    obtain ⟨born'', hkept', hlast⟩ := ih hnext fun x hx => hops x (List.mem_cons_of_mem _ hx)
    refine ⟨born'', fun id d hborn => hkept' id d (hkept id d hborn), ?_⟩
    rw [ledger, ← List.append_assoc]
    exact hlast

/-- In every session that can be reached the players have lives. -/
theorem lives_start (r : Conduct) (rate : Float) (config : Config) {ops : List Op}
    (hops : ∀ op ∈ ops, op.Fits r) :
    ∃ born, ((start rate config).run ops).stage.Lives r born false
      ((start rate config).ledger ops) := by
  obtain ⟨born, -, h⟩ := lives_run (s := start rate config)
    (Stage.lives_make r rate config.sequencer) hops
  exact ⟨born, h⟩

end Session

end MidiRig
