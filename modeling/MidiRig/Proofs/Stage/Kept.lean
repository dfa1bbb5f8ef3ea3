import MidiRig.Proofs.Stage.Members

/-!
# Members that stay

`Keeps s t m` says that member `m` of stage `s` is on stage `t` as it was: number, definition,
state and queued items. Removals and additions keep every member of another name, and `Settled`
says what a list of additions comes to: the names that are asked for are there with what was asked,
and a member that already had that definition stays as it is.
-/

namespace MidiRig.Stage

variable {s t u : Stage} {m : Member} {name : String}

/-- The member is there as it was, and so is what it has queued. -/
structure Keeps (s t : Stage) (m : Member) : Prop where
  there : m ∈ t.directory.members
  items : t.engine.queue.itemsOf m.id = s.engine.queue.itemsOf m.id

theorem Keeps.refl (h : m ∈ s.directory.members) : Keeps s s m := ⟨h, rfl⟩

theorem Keeps.trans (h : Keeps s t m) (h' : Keeps t u m) : Keeps s u m :=
  ⟨h'.there, h'.items.trans h.items⟩

/-! ## Removals -/

theorem mem_remove_iff (hs : s.directory.Sound) :
    m ∈ (s.remove name).directory.members ↔ m ∈ s.directory.members ∧ m.name ≠ name := by
  have hgone := not_mem_names_remove hs name
  constructor
  · intro hm
    refine ⟨?_, fun hname => hgone (List.mem_map.mpr ⟨m, hm, hname⟩)⟩
    rcases s.remove_eq name with ⟨h, -⟩ | ⟨before, member, after, hmem, -, -, h⟩
    · rwa [h] at hm
    · rw [h] at hm
      exact (sublist_without hmem).subset hm
  · rintro ⟨hm, hname⟩
    rcases s.remove_eq name with ⟨h, -⟩ | ⟨before, member, after, hmem, hmember, -, h⟩
    · rwa [h]
    · rw [h]
      show m ∈ before ++ after
      rw [hmem, List.mem_append, List.mem_cons] at hm
      rcases hm with hm | rfl | hm
      · exact List.mem_append_left _ hm
      · exact absurd hmember hname
      · exact List.mem_append_right _ hm

theorem keeps_remove (hs : s.directory.Sound) (hm : m ∈ s.directory.members)
    (hname : m.name ≠ name) : Keeps s (s.remove name) m := by
  refine ⟨(mem_remove_iff hs).mpr ⟨hm, hname⟩, ?_⟩
  rcases s.remove_eq name with ⟨h, -⟩ | ⟨before, member, after, hmem, hmember, -, h⟩
  · rw [h]
  · have hid : member.id ≠ m.id := by
      intro hid
      rw [hs.eq_of_id (mem_of_split hmem) hm hid] at hmember
      exact hname hmember
    rw [h]
    exact Engine.itemsOf_perform_other _ hid _

/-- Several removals in turn. -/
theorem foldl_remove (hs : s.directory.Sound) (names : List String) :
    (names.foldl remove s).directory.Sound ∧
      (∀ m, m ∈ (names.foldl remove s).directory.members ↔
        m ∈ s.directory.members ∧ m.name ∉ names) ∧
      ∀ m ∈ s.directory.members, m.name ∉ names → Keeps s (names.foldl remove s) m := by
  induction names generalizing s with
  | nil => exact ⟨hs, fun m => by simp, fun m hm _ => .refl hm⟩
  | cons name rest ih =>
    obtain ⟨hsound, hmem, hkeeps⟩ := ih (sound_remove hs name)
    refine ⟨hsound, fun m => ?_, fun m hm hnames => ?_⟩
    · rw [List.foldl_cons, hmem, mem_remove_iff hs, List.mem_cons, not_or, and_assoc]
    · obtain ⟨hname, hrest⟩ := not_or.mp (List.mem_cons.not.mp hnames)
      have hfirst := keeps_remove hs hm hname
      exact hfirst.trans (hkeeps m hfirst.there hrest)

theorem nextId_keepOnly (s : Stage) (kept : List String) :
    (s.keepOnly kept).directory.nextId = s.directory.nextId :=
  List.foldlRecOn (motive := fun t : Stage => t.directory.nextId = s.directory.nextId) _ remove rfl
    fun t ht name _ => (t.nextId_remove name).trans ht

theorem sound_keepOnly (hs : s.directory.Sound) (kept : List String) :
    (s.keepOnly kept).directory.Sound := (foldl_remove hs _).1

theorem mem_keepOnly_iff (hs : s.directory.Sound) {kept : List String} :
    m ∈ (s.keepOnly kept).directory.members ↔ m ∈ s.directory.members ∧ m.name ∈ kept := by
  unfold keepOnly
  rw [(foldl_remove hs _).2.1 m, List.mem_filter]
  refine and_congr_right fun hm => ?_
  have hname : m.name ∈ s.directory.names := List.mem_map_of_mem hm
  simp [hname]

theorem keeps_keepOnly (hs : s.directory.Sound) {kept : List String}
    (hm : m ∈ s.directory.members) (hname : m.name ∈ kept) : Keeps s (s.keepOnly kept) m := by
  refine (foldl_remove hs _).2.2 m hm ?_
  simp [hname]

/-! ## Additions -/

/-- What a list of additions comes to. -/
structure Settled (s : Stage) (entries : List (String × PlayerDef)) (t : Stage) : Prop where
  sound : t.directory.Sound
  names : ∀ x, x ∈ t.directory.names ↔ x ∈ entries.map Prod.fst ∨ x ∈ s.directory.names
  /-- Each has the definition that was asked for, or one that counts as the same. -/
  there : ∀ entry ∈ entries, ∃ m ∈ t.directory.members, m.name = entry.1 ∧
    (m.definition = entry.2 ∨ (m ∈ s.directory.members ∧ (m.definition == entry.2) = true))
  same : ∀ entry ∈ entries, ∀ m ∈ s.directory.members, m.name = entry.1 →
    (m.definition == entry.2) = true → Keeps s t m
  others : ∀ m ∈ s.directory.members, m.name ∉ entries.map Prod.fst → Keeps s t m
  old : ∀ m ∈ t.directory.members, m.name ∉ entries.map Prod.fst → m ∈ s.directory.members
  next : s.directory.nextId ≤ t.directory.nextId
  /-- Members that have come have new numbers. -/
  fresh : ∀ m ∈ t.directory.members, m ∈ s.directory.members ∨ s.directory.nextId ≤ m.id

theorem settled_nil (hs : s.directory.Sound) : Settled s [] s where
  sound := hs
  names x := by simp
  there entry h := nomatch h
  same entry h := nomatch h
  others m hm _ := .refl hm
  old m hm _ := hm
  next := Nat.le_refl _
  fresh m hm := .inl hm

theorem mem_of_find? {d : Directory} (h : d.find? name = some m) : m ∈ d.members ∧ m.name = name :=
  ⟨List.mem_of_find?_eq_some h, by simpa using List.find?_some h⟩

/-- With a member that has this name and this definition already. -/
theorem settled_same (hs : s.directory.Sound) {d : PlayerDef} (hm : m ∈ s.directory.members)
    (hname : m.name = name) (hsame : (m.definition == d) = true) : Settled s [(name, d)] s where
  sound := hs
  names x := by
    have hmem : name ∈ s.directory.names := List.mem_map.mpr ⟨m, hm, hname⟩
    simp only [List.map_cons, List.map_nil, List.mem_singleton]
    exact ⟨.inr, fun h => h.elim (fun hx => hx ▸ hmem) id⟩
  there entry h := by
    rw [List.mem_singleton.mp h]
    exact ⟨m, hm, hname, .inr ⟨hm, hsame⟩⟩
  same _ _ m hm _ _ := .refl hm
  others m hm _ := .refl hm
  old m hm _ := hm
  next := Nat.le_refl _
  fresh m hm := .inl hm

/-- With a new member in place of one that may have had the name. -/
theorem settled_made (hs : s.directory.Sound) {d : PlayerDef}
    (hother : ∀ m, s.directory.find? name = some m → (m.definition == d) = false) :
    Settled s [(name, d)] ((s.remove name).joined name d) := by
  have hsound := sound_remove hs name
  have hmem : ∀ m, m ∈ ((s.remove name).joined name d).directory.members ↔
      (m ∈ s.directory.members ∧ m.name ≠ name) ∨ m = ⟨(s.remove name).directory.nextId, name, d,
        Player.make d (s.remove name).directory.config (s.remove name).engine.ticksPerSecond⟩ := by
    intro m
    rw [← mem_remove_iff hs]
    exact List.mem_append.trans (or_congr_right List.mem_singleton)
  have hnext : (s.remove name).directory.nextId = s.directory.nextId := s.nextId_remove name
  refine ⟨sound_joined hsound (not_mem_names_remove hs name) d, fun x => ?_, fun entry h => ?_,
    fun entry h m hm hname hsame => ?_, fun m hm hname => ?_, fun m hm hname => ?_,
    hnext ▸ Nat.le_succ _, fun m hm => ?_⟩
  · simp only [List.map_cons, List.map_nil, List.mem_singleton]
    constructor
    · intro hx
      obtain ⟨m, hm, rfl⟩ := List.mem_map.mp hx
      rcases (hmem m).mp hm with ⟨hm, -⟩ | rfl
      · exact .inr (List.mem_map_of_mem hm)
      · exact .inl rfl
    · intro hx
      by_cases hname : x = name
      · exact List.mem_map.mpr ⟨_, (hmem _).mpr (.inr rfl), hname.symm⟩
      · obtain ⟨m, hm, rfl⟩ := List.mem_map.mp (hx.resolve_left hname)
        exact List.mem_map_of_mem ((hmem m).mpr (.inl ⟨hm, hname⟩))
  · rw [List.mem_singleton.mp h]
    exact ⟨_, (hmem _).mpr (.inr rfl), rfl, .inl rfl⟩
  · -- the first member of the name is this one, and it is the wrong one
    rw [List.mem_singleton.mp h] at hname hsame
    obtain rfl : m.name = name := hname
    rw [hother m (find?_of_mem hs hm)] at hsame
    cases hsame
  · have hne : m.name ≠ name := by simpa using hname
    have hkeeps := keeps_remove hs hm hne
    exact ⟨(hmem m).mpr (.inl ⟨hm, hne⟩), hkeeps.items⟩
  · rcases (hmem m).mp hm with ⟨hm, -⟩ | rfl
    · exact hm
    · simp at hname
  · rcases (hmem m).mp hm with ⟨hm, -⟩ | rfl
    · exact .inl hm
    · exact .inr (Nat.le_of_eq hnext.symm)

/-- An addition of a valid player is not refused. -/
theorem settled_add (hs : s.directory.Sound) (name : String) {d : PlayerDef}
    (hvalid : d.problem? = none) :
    ∃ id t, s.add name d = .ok (id, t) ∧ Settled s [(name, d)] t := by
  rcases s.add_eq name d with ⟨m, hfind, hsame, h⟩ | ⟨problem, hproblem, -⟩ | ⟨-, hother, h⟩
  · obtain ⟨hm, hname⟩ := mem_of_find? hfind
    exact ⟨_, _, h, settled_same hs hm hname hsame⟩
  · rw [hvalid] at hproblem
    cases hproblem
  · exact ⟨_, _, h, settled_made hs hother⟩

theorem Settled.cons {entry : String × PlayerDef} {rest : List (String × PlayerDef)}
    (hfirst : Settled s [entry] t) (hrest : Settled t rest u)
    (hnew : entry.1 ∉ rest.map Prod.fst) : Settled s (entry :: rest) u := by
  have hsingle : ∀ {x : String}, x ∉ ([entry] : List (String × PlayerDef)).map Prod.fst ↔
      x ≠ entry.1 := by simp
  refine ⟨hrest.sound, fun x => ?_, fun e he => ?_, fun e he m hm hname hsame => ?_,
    fun m hm hname => ?_, fun m hm hname => ?_, Nat.le_trans hfirst.next hrest.next,
    fun m hm => ?_⟩
  · rw [hrest.names, hfirst.names, List.map_singleton, List.mem_singleton, List.map_cons,
      List.mem_cons, ← or_assoc, or_comm (a := x ∈ rest.map Prod.fst)]
  · rcases List.mem_cons.mp he with rfl | he
    · obtain ⟨m, hm, hname, hdef⟩ := hfirst.there e List.mem_cons_self
      exact ⟨m, (hrest.others m hm (hname ▸ hnew)).there, hname, hdef⟩
    · obtain ⟨m, hm, hname, hdef⟩ := hrest.there e he
      refine ⟨m, hm, hname, hdef.imp_right fun ⟨hold, hsame⟩ => ⟨?_, hsame⟩⟩
      refine hfirst.old m hold (hsingle.mpr fun heq => hnew ?_)
      rw [← heq, hname]
      exact List.mem_map_of_mem he
  · rcases List.mem_cons.mp he with rfl | he
    · have hkeeps := hfirst.same e List.mem_cons_self m hm hname hsame
      exact hkeeps.trans (hrest.others m hkeeps.there (hname ▸ hnew))
    · have hne : m.name ≠ entry.1 := by
        intro heq
        refine hnew ?_
        rw [← heq, hname]
        exact List.mem_map_of_mem he
      have hkeeps := hfirst.others m hm (hsingle.mpr hne)
      exact hkeeps.trans (hrest.same e he m hkeeps.there hname hsame)
  · rw [List.map_cons, List.mem_cons, not_or] at hname
    have hkeeps := hfirst.others m hm (hsingle.mpr hname.1)
    exact hkeeps.trans (hrest.others m hkeeps.there hname.2)
  · rw [List.map_cons, List.mem_cons, not_or] at hname
    exact hfirst.old m (hrest.old m hm hname.2) (hsingle.mpr hname.1)
  · rcases hrest.fresh m hm with hm | hm
    · exact hfirst.fresh m hm
    · exact .inr (Nat.le_trans hfirst.next hm)

/-- Valid players of different names are all added. -/
theorem settled_foldlM (hs : s.directory.Sound) {entries : List (String × PlayerDef)}
    (hnames : (entries.map Prod.fst).Nodup) (hvalid : ∀ e ∈ entries, e.2.problem? = none) :
    ∃ t, entries.foldlM (fun stage e => (stage.add e.1 e.2).map Prod.snd) s = .ok t ∧
      Settled s entries t := by
  induction entries generalizing s with
  | nil => exact ⟨s, rfl, settled_nil hs⟩
  | cons e rest ih =>
    obtain ⟨id, t, hadd, hfirst⟩ := settled_add hs e.1 (hvalid e List.mem_cons_self)
    obtain ⟨hnew, hrestNames⟩ := List.nodup_cons.mp hnames
    obtain ⟨u, hfold, hrest⟩ := ih hfirst.sound hrestNames
      fun x hx => hvalid x (List.mem_cons_of_mem _ hx)
    refine ⟨u, ?_, hfirst.cons hrest hnew⟩
    rw [List.foldlM_cons, hadd]
    exact hfold

end MidiRig.Stage
