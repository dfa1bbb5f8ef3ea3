import MidiRig.Proofs.Session.Table
import MidiRig.Proofs.Stage.Roster

/-!
# Switching to a patch

A switch changes rules, names, players and queue one after the other, in place, and can only be
refused before the first change. `switchInPlace` carries it out step by step on a session that is
kept when a step fails. A fault leaves the session exactly as it was (`Session.runOn_switch`), and
a switch that succeeds leaves it as `Switched` describes. The players of the patch have been
checked by then, so none of them is refused, whatever would be done about it (`refused`).
-/

namespace MidiRig

/-! ## Switches in place -/

/-- Work on a session in place that may stop with a fault, with what has been done until then. -/
abbrev InPlace := ExceptT Fault (StateM Session)

namespace InPlace

/-- A check, which changes nothing. -/
def check {α : Type} (result : Except Fault α) : InPlace α :=
  match result with
  | .ok a => pure a
  | .error fault => throw fault

/-- The outcome, and the session that is left. -/
def runOn {α : Type} (x : InPlace α) (s : Session) : Except Fault α × Session := x.run.run s

variable {α β : Type}

theorem runOn_bind (x : InPlace α) (f : α → InPlace β) (s : Session) :
    (x >>= f).runOn s =
      match x.runOn s with
      | (.ok a, t) => (f a).runOn t
      | (.error fault, t) => (.error fault, t) := by
  unfold runOn
  rw [ExceptT.run_bind, StateT.run_bind]
  rcases StateT.run x.run s with ⟨result, t⟩
  cases result <;> rfl

theorem runOn_check (result : Except Fault α) (s : Session) :
    (check result).runOn s = (result, s) := by
  cases result <;> rfl

theorem runOn_modify (f : Session → Session) (s : Session) :
    (modify f : InPlace Unit).runOn s = (.ok (), f s) := rfl

/-- Checks in turn, up to the first fault. -/
theorem runOn_forM_check {γ : Type} (f : γ → Except Fault Unit) (xs : List γ) (s : Session) :
    (xs.forM fun x => check (f x)).runOn s = (xs.forM f, s) := by
  induction xs with
  | nil => rfl
  | cons x xs ih =>
    show runOn (check (f x) >>= fun _ => xs.forM fun x => check (f x)) s =
      (f x >>= fun _ => xs.forM f, s)
    rw [runOn_bind, runOn_check]
    cases f x with
    | error fault => rfl
    | ok _ => exact ih

theorem runOn_forM_modify {γ : Type} (f : γ → Session → Session) (xs : List γ) (s : Session) :
    (xs.forM fun x => (modify (f x) : InPlace Unit)).runOn s =
      (.ok (), xs.foldl (fun s x => f x s) s) := by
  induction xs generalizing s with
  | nil => rfl
  | cons x xs ih =>
    show runOn (modify (f x) >>= fun _ => xs.forM fun x => modify (f x)) s = _
    rw [runOn_bind, runOn_modify]
    exact ih (f x s)

end InPlace

namespace Session

/-- Adds a player of a patch. If it were refused, `refused` would be done about it. -/
def settleInPlace (refused : String → Fault → InPlace Unit) (entry : String × PlayerDef) :
    InPlace Unit := do
  match (← get).stage.add entry.1 entry.2 with
  | .ok (_, stage) => modify fun s => { s with stage }
  | .error fault => refused entry.1 fault

/-- A switch, step by step. -/
def switchInPlace (refused : String → Fault → InPlace Unit) (bank : Bank) (patch : Patch) :
    InPlace Unit := do
  let rules ← InPlace.check (patchRules bank patch)
  patch.players.entries.forM fun entry => InPlace.check (entry.2.validate entry.1)
  modify fun s => { s with names := bank.names }
  modify fun s => s.onRouter Router.clearPatch
  rules.forM fun rule => modify fun s => s.install rule .patch
  modify fun s => { s with stage := s.stage.keepOnly patch.players.names }
  patch.players.entries.forM (settleInPlace refused)

/-- A switch to the patch of a name. -/
def selectInPlace (refused : String → Fault → InPlace Unit) (bank : Bank) (name : String) :
    InPlace Unit := do
  switchInPlace refused bank (← InPlace.check (bank.patch name))

/-- Players that are not refused are added, whatever would be done about a refusal. -/
theorem runOn_forM_settle (refused : String → Fault → InPlace Unit)
    {entries : List (String × PlayerDef)} {s : Session} {t : Stage}
    (h : entries.foldlM (fun stage e => (stage.add e.1 e.2).map Prod.snd) s.stage = .ok t) :
    (entries.forM (settleInPlace refused)).runOn s = (.ok (), { s with stage := t }) := by
  induction entries generalizing s with
  | nil =>
    cases h
    rfl
  | cons entry rest ih =>
    rw [List.foldlM_cons] at h
    cases hadd : s.stage.add entry.1 entry.2 with
    | error fault =>
      rw [hadd] at h
      cases h
    | ok added =>
      rw [hadd] at h
      have hone : (settleInPlace refused entry).runOn s =
          (.ok (), { s with stage := added.2 }) := by
        unfold settleInPlace
        rw [InPlace.runOn_bind]
        show InPlace.runOn (match s.stage.add entry.1 entry.2 with
          | .ok (_, stage) => modify fun s => { s with stage }
          | .error fault => refused entry.1 fault) s = _
        rw [hadd]
        rfl
      show InPlace.runOn (settleInPlace refused entry >>= fun _ =>
        rest.forM (settleInPlace refused)) s = _
      rw [InPlace.runOn_bind, hone]
      exact ih h

theorem foldl_settle {entries : List (String × PlayerDef)} {s t : Stage}
    (h : entries.foldlM (fun stage e => (stage.add e.1 e.2).map Prod.snd) s = .ok t) :
    entries.foldl (fun stage entry => settle stage entry.1 entry.2) s = t := by
  induction entries generalizing s with
  | nil =>
    cases h
    rfl
  | cons entry rest ih =>
    rw [List.foldlM_cons] at h
    cases hadd : s.add entry.1 entry.2 with
    | error fault =>
      rw [hadd] at h
      cases h
    | ok added =>
      rw [hadd] at h
      rw [List.foldl_cons, settle, hadd]
      exact ih h

/-! ## What a switch leaves -/

/-- Installed rules that outlast a patch. -/
def persistent (rules : List Installed) : List Installed :=
  rules.filter fun installed => installed.scope = .persistent

/-- The session `t` after a switch of `s` to a patch of a bank. -/
structure Switched (s : Session) (bank : Bank) (patch : Patch) (t : Session) : Prop where
  /-- Persistent rules in their old order, then the rules of the bank, then those of the patch. -/
  rules : ∃ common own, bank.rules.mapM (RuleSpec.compile bank.names) = .ok common ∧
    patch.rules.mapM (RuleSpec.compile bank.names) = .ok own ∧
    t.router.rules = persistent s.router.rules ++ Router.asInstalled .patch
      (((common ++ own).flatMap Router.parts).filter fun r => !Router.isNative s.router.config r) ∧
    t.router.native = persistent s.router.native ++ Router.asInstalled .patch
      (((common ++ own).flatMap Router.parts).filter (Router.isNative s.router.config))
  table : t.stage.engine.native = (t.router.native.map Installed.rule).reverse
  compiler : t.names = bank.names
  names : t.stage.directory.names.Perm patch.players.names
  definitions : ∀ entry ∈ patch.players.entries, ∃ m ∈ t.stage.directory.members,
    m.name = entry.1 ∧ (m.definition = entry.2 ∨
      (m ∈ s.stage.directory.members ∧ (m.definition == entry.2) = true))
  kept : ∀ entry ∈ patch.players.entries, ∀ m ∈ s.stage.directory.members, m.name = entry.1 →
    (m.definition == entry.2) = true → s.stage.Keeps t.stage m
  /-- Whatever is queued belongs to a player that is there, and new players have new numbers: so
  nothing is queued for one that is gone. -/
  queue : ∀ item ∈ t.stage.engine.queue.items, ∃ m ∈ t.stage.directory.members,
    m.id = item.player
  fresh : ∀ m ∈ t.stage.directory.members,
    m ∈ s.stage.directory.members ∨ s.stage.directory.nextId ≤ m.id

/-- In a session that can be reached, all that is queued belongs to a player that is there. -/
theorem owned_start (rate : Float) (config : Config) (ops : List Op) :
    ∀ item ∈ ((start rate config).run ops).stage.engine.queue.items,
      ∃ m ∈ ((start rate config).run ops).stage.directory.members, m.id = item.player := by
  obtain ⟨born, hlives⟩ := lives_start .free rate config fun op (_ : op ∈ ops) => op.fits_free
  exact Stage.Alive.owned ⟨born, _, hlives⟩

theorem rules_ruled (s : Session) (names : Names) (rules : List Rule) :
    (s.ruled names rules).router.rules = persistent s.router.rules ++ Router.asInstalled .patch
        ((rules.flatMap Router.parts).filter fun r => !Router.isNative s.router.config r) ∧
      (s.ruled names rules).router.native = persistent s.router.native ++
        Router.asInstalled .patch
          ((rules.flatMap Router.parts).filter (Router.isNative s.router.config)) := by
  have hinstalls : ∀ (rules : List Rule) (t : Session),
      (rules.foldl (fun t rule => t.install rule .patch) t).router.rules = t.router.rules ++
          Router.asInstalled .patch
            ((rules.flatMap Router.parts).filter fun r => !Router.isNative t.router.config r) ∧
        (rules.foldl (fun t rule => t.install rule .patch) t).router.native = t.router.native ++
          Router.asInstalled .patch
            ((rules.flatMap Router.parts).filter (Router.isNative t.router.config)) := by
    intro rules
    induction rules with
    | nil => exact fun t => ⟨(List.append_nil _).symm, (List.append_nil _).symm⟩
    | cons rule rest ih =>
      intro t
      obtain ⟨hrules, hnative⟩ := ih (t.install rule .patch)
      have hown : (t.install rule .patch).router.rules = _ :=
        t.router.rules_install t.stage.engine rule .patch
      have hgiven : (t.install rule .patch).router.native = _ :=
        t.router.native_install t.stage.engine rule .patch
      rw [hown] at hrules
      rw [hgiven] at hnative
      rw [List.foldl_cons, List.flatMap_cons, List.filter_append, List.filter_append,
        Router.asInstalled_append, Router.asInstalled_append, ← List.append_assoc,
        ← List.append_assoc]
      exact ⟨hrules, hnative⟩
  exact hinstalls rules _

theorem names_ruled (s : Session) (names : Names) (rules : List Rule) :
    (s.ruled names rules).names = names :=
  List.foldlRecOn (motive := fun t : Session => t.names = names) rules _ rfl fun _ ht _ _ => ht

/-- Rules of a bank and a patch compile in turn. -/
theorem patchRules_eq_ok {bank : Bank} {patch : Patch} {rules : List Rule}
    (h : patchRules bank patch = .ok rules) :
    ∃ common own, bank.rules.mapM (RuleSpec.compile bank.names) = .ok common ∧
      patch.rules.mapM (RuleSpec.compile bank.names) = .ok own ∧ rules = common ++ own := by
  unfold patchRules at h
  rw [List.mapM_append] at h
  cases hcommon : bank.rules.mapM (RuleSpec.compile bank.names) with
  | error fault =>
    rw [hcommon] at h
    cases h
  | ok common =>
    cases hown : patch.rules.mapM (RuleSpec.compile bank.names) with
    | error fault =>
      rw [hcommon, hown] at h
      cases h
    | ok own =>
      rw [hcommon, hown] at h
      cases h
      exact ⟨common, own, rfl, rfl, rfl⟩

theorem problem?_of_validate {entries : List (String × PlayerDef)}
    (h : (entries.forM fun entry => entry.2.validate entry.1) = .ok ()) :
    ∀ e ∈ entries, e.2.problem? = none := by
  induction entries with
  | nil => intro e he; cases he
  | cons entry rest ih =>
    have hbind : (entry.2.validate entry.1 >>= fun _ =>
      rest.forM fun entry => entry.2.validate entry.1) = .ok () := h
    cases hproblem : entry.2.problem? with
    | some problem =>
      rw [PlayerDef.validate, hproblem] at hbind
      cases hbind
    | none =>
      rw [PlayerDef.validate, hproblem] at hbind
      intro e he
      rcases List.mem_cons.mp he with rfl | he
      · exact hproblem
      · exact ih hbind e he

theorem nodup_names (players : Dict PlayerDef) : (players.entries.map Prod.fst).Nodup := by
  refine List.pairwise_map.mpr (players.inOrder.imp fun {a b} hab heq => ?_)
  rw [heq] at hab
  exact String.lt_irrefl _ hab

/-! ## The switch as a whole -/

variable {s : Session} {bank : Bank} {patch : Patch}

/-- The switch is refused before the first change, or carried out. -/
theorem runOn_switch (refused : String → Fault → InPlace Unit) (hs : s.stage.directory.Sound) :
    (∃ fault, (switchInPlace refused bank patch).runOn s = (.error fault, s) ∧
      s.applyPatch bank patch = .error fault) ∨
    ∃ rules t, patchRules bank patch = .ok rules ∧
      ((s.ruled bank.names rules).stage.keepOnly patch.players.names).Settled
        patch.players.entries t ∧
      (switchInPlace refused bank patch).runOn s =
        (.ok (), { s.ruled bank.names rules with stage := t }) ∧
      s.applyPatch bank patch = .ok { s.ruled bank.names rules with stage := t } := by
  rw [applyPatch_eq, switchInPlace, InPlace.runOn_bind, InPlace.runOn_check]
  cases hrules : patchRules bank patch with
  | error fault => exact .inl ⟨fault, rfl, rfl⟩
  | ok rules =>
    dsimp only
    rw [InPlace.runOn_bind, InPlace.runOn_forM_check]
    cases hvalid : patch.players.entries.forM fun entry => entry.2.validate entry.1 with
    | error fault => exact .inl ⟨fault, rfl, rfl⟩
    | ok _ =>
      have hsound : (s.ruled bank.names rules).stage.directory.Sound := by
        rw [stage_ruled]
        exact hs
      obtain ⟨t, hadds, hsettled⟩ := Stage.settled_foldlM
        (Stage.sound_keepOnly hsound patch.players.names) (nodup_names patch.players)
        (problem?_of_validate hvalid)
      refine .inr ⟨rules, t, rfl, hsettled, ?_, ?_⟩
      · have hinstalls : (rules.forM fun rule => (modify fun s => s.install rule .patch :
            InPlace Unit)).runOn ({ s with names := bank.names }.onRouter Router.clearPatch) =
            (.ok (), s.ruled bank.names rules) := InPlace.runOn_forM_modify _ _ _
        dsimp only
        rw [InPlace.runOn_bind, InPlace.runOn_modify]
        dsimp only
        rw [InPlace.runOn_bind, InPlace.runOn_modify]
        dsimp only
        rw [InPlace.runOn_bind, hinstalls]
        dsimp only
        rw [InPlace.runOn_bind, InPlace.runOn_modify]
        exact runOn_forM_settle refused (s := { s.ruled bank.names rules with
          stage := (s.ruled bank.names rules).stage.keepOnly patch.players.names }) hadds
      · show Except.ok { s.ruled bank.names rules with
          stage := settleAll (s.ruled bank.names rules).stage patch.players } = _
        rw [settleAll, foldl_settle hadds]

theorem switched_of_settled (hs : s.stage.directory.Sound) {rules : List Rule} {t : Stage}
    (hrules : patchRules bank patch = .ok rules)
    (ht : ((s.ruled bank.names rules).stage.keepOnly patch.players.names).Settled
      patch.players.entries t)
    (hfills : t.engine.native = ((s.ruled bank.names rules).router.native.map
      Installed.rule).reverse)
    (howned : ∀ item ∈ t.engine.queue.items, ∃ m ∈ t.directory.members, m.id = item.player) :
    Switched s bank patch { s.ruled bank.names rules with stage := t } := by
  have hruled := s.stage_ruled bank.names rules
  have hsound : (s.ruled bank.names rules).stage.directory.Sound := by
    rw [hruled]
    exact hs
  -- before the additions there are only members of the patch, each as it was
  have hold : ∀ m, m ∈ ((s.ruled bank.names rules).stage.keepOnly
      patch.players.names).directory.members → m ∈ s.stage.directory.members := by
    intro m hm
    have := ((Stage.mem_keepOnly_iff hsound).mp hm).1
    rwa [hruled] at this
  have hkeep : ∀ m ∈ s.stage.directory.members, m.name ∈ patch.players.names →
      s.stage.Keeps ((s.ruled bank.names rules).stage.keepOnly patch.players.names) m := by
    intro m hm hname
    have hmem : m ∈ (s.ruled bank.names rules).stage.directory.members := by
      rw [hruled]
      exact hm
    have hkeeps := Stage.keeps_keepOnly hsound hmem hname
    refine ⟨hkeeps.there, hkeeps.items.trans ?_⟩
    rw [hruled]
    rfl
  obtain ⟨common, own, hcommon, hown, rfl⟩ := patchRules_eq_ok hrules
  obtain ⟨hlist, hnative⟩ := s.rules_ruled bank.names (common ++ own)
  refine ⟨⟨common, own, hcommon, hown, hlist, hnative⟩, hfills, ?_, ?_, fun entry he => ?_,
    fun entry he m hm hname hsame => ?_, howned, fun m hm => ?_⟩
  · exact s.names_ruled bank.names _
  · refine (List.perm_ext_iff_of_nodup ht.sound.names (nodup_names patch.players)).mpr fun x => ?_
    refine (ht.names x).trans ⟨fun h => h.elim id fun hx => ?_, .inl⟩
    obtain ⟨m, hm, rfl⟩ := List.mem_map.mp hx
    exact ((Stage.mem_keepOnly_iff hsound).mp hm).2
  · obtain ⟨m, hm, hname, hdef⟩ := ht.there entry he
    exact ⟨m, hm, hname, hdef.imp_right fun ⟨h, hsame⟩ => ⟨hold m h, hsame⟩⟩
  · have hmem : m.name ∈ patch.players.names := by
      rw [hname]
      exact List.mem_map_of_mem he
    have hkeeps := hkeep m hm hmem
    exact hkeeps.trans (ht.same entry he m hkeeps.there hname hsame)
  · refine (ht.fresh m hm).imp (hold m) fun hid => ?_
    rw [Stage.nextId_keepOnly, hruled] at hid
    exact hid

/-- In every session that can be reached, a switch that meets a fault leaves everything exactly as
it was, and one that succeeds leaves the session `Switched`; no player of the patch is refused,
whatever would be done about it. The same holds for a switch to the patch of a name. -/
theorem switch_all_or_nothing (rate : Float) (config : Config) (ops : List Op)
    (refused : String → Fault → InPlace Unit) (bank : Bank) :
    let s := (start rate config).run ops
    (∀ patch, (∃ fault, (switchInPlace refused bank patch).runOn s = (.error fault, s) ∧
        s.applyPatch bank patch = .error fault) ∨
      ∃ t, (switchInPlace refused bank patch).runOn s = (.ok (), t) ∧
        s.applyPatch bank patch = .ok t ∧ Switched s bank patch t) ∧
    ∀ name, (∃ fault, (selectInPlace refused bank name).runOn s = (.error fault, s) ∧
        s.selectPatch bank name = .error fault) ∨
      ∃ patch t, bank.patch name = .ok patch ∧
        (selectInPlace refused bank name).runOn s = (.ok (), t) ∧
        s.selectPatch bank name = .ok t ∧ Switched s bank patch t := by
  intro s
  have hsound : s.stage.directory.Sound := by
    obtain ⟨born, hlives⟩ := lives_start .free rate config fun op (_ : op ∈ ops) => op.fits_free
    exact hlives.sound
  have happly : ∀ patch, (∃ fault, (switchInPlace refused bank patch).runOn s = (.error fault, s) ∧
        s.applyPatch bank patch = .error fault) ∨
      ∃ t, (switchInPlace refused bank patch).runOn s = (.ok (), t) ∧
        s.applyPatch bank patch = .ok t ∧ Switched s bank patch t := by
    intro patch
    refine (runOn_switch refused hsound).imp_right ?_
    rintro ⟨rules, t, hrules, hsettled, hrun, hresult⟩
    -- the session after the switch can be reached, too
    have hstep : (start rate config).run (ops ++ [.applyPatch bank patch]) =
        { s.ruled bank.names rules with stage := t } := by
      rw [run_append]
      show s.orSame (s.applyPatch bank patch) = _
      rw [hresult]
      rfl
    have hfills := fills_start rate config (ops ++ [.applyPatch bank patch])
    have howned := owned_start rate config (ops ++ [.applyPatch bank patch])
    rw [hstep] at hfills howned
    exact ⟨_, hrun, hresult, switched_of_settled hsound hrules hsettled hfills howned⟩
  refine ⟨happly, fun name => ?_⟩
  rw [selectInPlace, InPlace.runOn_bind, InPlace.runOn_check, selectPatch]
  cases bank.patch name with
  | error fault => exact .inl ⟨fault, rfl, rfl⟩
  | ok patch =>
    rcases happly patch with h | ⟨t, hrun, hresult, hswitched⟩
    · exact .inl h
    · exact .inr ⟨patch, t, rfl, hrun, hresult, hswitched⟩

end Session

end MidiRig
