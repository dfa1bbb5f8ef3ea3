import Mathlib.Data.Prod.Lex
import Mathlib.Order.WellFounded
import MidiRig.Proofs.Player.Emissions
import MidiRig.Proofs.Player.Patterns

/-!
# The steps of a counted play

`Cursor.Visits` lists the patterns that an order comes to one after the other, until it ends or the
search for the next one gives up. With a number of passes there is an end to that
(`Cursor.exists_visits`): from one pattern to the next, fewer passes are left, or fewer entries that
have not gone back, or fewer entries to come. `Sequence.Comes` is the same for the steps of a
sequence, from wherever it is.
-/

namespace MidiRig

namespace Cursor

variable {order : List Int} {c c' : Cursor} {turns limit pattern : Nat}
  {found : Option (Nat × Cursor)} {visited : List (Nat × Cursor)}

/-- The patterns from a place on, each with the place of its entry. -/
inductive Visits (order : List Int) (limit : Nat) : Cursor → List (Nat × Cursor) → Prop where
  | plays {c c' : Cursor} {turns pattern : Nat} {rest : List (Nat × Cursor)}
      (hread : Reads order turns c (some (pattern, c'))) (hturns : turns ≤ limit)
      (hrest : Visits order limit c'.next rest) : Visits order limit c ((pattern, c') :: rest)
  | ends {c : Cursor} {turns : Nat} (hread : Reads order turns c none) : Visits order limit c []
  /-- The search gives up before it comes to what is read. -/
  | lost {c : Cursor} {turns : Nat} {found : Option (Nat × Cursor)}
      (hread : Reads order turns c found) (hturns : limit < turns) : Visits order limit c []

/-- What is left: passes, entries that have not gone back in this one, and entries to come. -/
def left (order : List Int) (c : Cursor) : ℕ ×ₗ ℕ ×ₗ ℕ :=
  toLex (c.passes.getD 0, toLex (c.jumped.count false, order.length - c.position))

theorem left_next (h : c.position < order.length) : c.next.left order < c.left order := by
  refine Prod.Lex.toLex_lt_toLex.mpr (.inr ⟨rfl, Prod.Lex.toLex_lt_toLex.mpr (.inr ⟨rfl, ?_⟩)⟩)
  show order.length - (c.position + 1) < order.length - c.position
  omega

theorem left_jump {n : Nat} (hfresh : c.jumped[c.position]? = some false) :
    (c.jump n).left order < c.left order :=
  Prod.Lex.toLex_lt_toLex.mpr (.inr ⟨rfl, Prod.Lex.toLex_lt_toLex.mpr (.inl (c.count_jump hfresh))⟩)

/-- To play a pattern leaves less to play. -/
theorem Reads.descends (h : Reads order turns c found) (hcounted : c.passes.isSome = true) :
    found = some (pattern, c') →
      c'.passes.isSome = true ∧ c'.next.left order < c.left order := by
  induction h with
  | plays h =>
    rintro ⟨⟩
    exact ⟨hcounted, left_next (List.getElem?_eq_some_iff.mp h).1⟩
  | stops | ends => nofun
  | back _ _ hfresh _ ih =>
    intro hfound
    obtain ⟨hcounted', hlt⟩ := ih hcounted hfound
    exact ⟨hcounted', hlt.trans (left_jump hfresh)⟩
  | skips h _ _ _ ih =>
    intro hfound
    obtain ⟨hcounted', hlt⟩ := ih hcounted hfound
    exact ⟨hcounted', hlt.trans (left_next (List.getElem?_eq_some_iff.mp h).1)⟩
  | @again c _ _ _ hmore _ ih =>
    intro hfound
    obtain ⟨passes, hpasses⟩ := Option.isSome_iff_exists.mp hcounted
    have hmore := hmore passes hpasses
    rw [hpasses] at ih
    obtain ⟨hcounted', hlt⟩ := ih rfl hfound
    refine ⟨hcounted', hlt.trans (Prod.Lex.toLex_lt_toLex.mpr (.inl ?_))⟩
    rw [hpasses]
    show passes - 1 < passes
    omega

/-- A number of passes comes to an end. -/
theorem exists_visits (hplays : ∃ entry ∈ order, 0 < entry) (limit : Nat) (c : Cursor)
    (hflags : c.jumped.length = order.length) (hcounted : c.passes.isSome = true) :
    ∃ visited, Visits order limit c visited := by
  obtain ⟨turns, found, hread⟩ := exists_reads hplays c hflags
  by_cases hturns : turns ≤ limit
  · cases found with
    | none => exact ⟨[], .ends hread⟩
    | some entry =>
      obtain ⟨pattern, c'⟩ := entry
      obtain ⟨hcounted', hless⟩ := hread.descends hcounted rfl
      have hflags' := (hread.lands hflags rfl).1
      obtain ⟨rest, hrest⟩ := exists_visits hplays limit c'.next hflags' hcounted'
      exact ⟨_, .plays hread hturns hrest⟩
  · exact ⟨[], .lost hread (by omega)⟩
termination_by c.left order
decreasing_by exact hless

/-- The search comes from one of these patterns to the next, and finds nothing behind the last. -/
theorem Visits.pattern? (h : Visits order (turnLimit order) c visited) (hne : order ≠ [])
    {patterns : Nat} (hvalid : ∀ entry ∈ order, entry ≤ patterns) :
    c.pattern? order patterns = visited.head? := by
  cases h with
  | plays hread hturns =>
    rw [Cursor.pattern?, hread.find?_eq hne hvalid, if_pos hturns]
    rfl
  | ends hread =>
    rw [Cursor.pattern?, hread.find?_eq hne hvalid]
    exact ite_self none
  | lost hread hturns =>
    rw [Cursor.pattern?, hread.find?_eq hne hvalid, if_neg (by omega)]
    rfl

theorem Visits.unique {other : List (Nat × Cursor)} (h : Visits order (turnLimit order) c visited)
    (h' : Visits order (turnLimit order) c other) (hne : order ≠ []) {patterns : Nat}
    (hvalid : ∀ entry ∈ order, entry ≤ patterns) : visited = other := by
  induction h generalizing other with
  | plays hread hturns hrest ih =>
    have hfirst := (Visits.plays hread hturns hrest).pattern? hne hvalid
    rw [h'.pattern? hne hvalid] at hfirst
    cases h' with
    | plays hread' hturns' hrest' =>
      obtain ⟨rfl, rfl⟩ : _ = _ ∧ _ = _ := by simpa using hfirst
      rw [ih hrest']
    | ends | lost => cases hfirst
  | ends hread =>
    have hfirst := (Visits.ends hread).pattern? hne hvalid
    rw [h'.pattern? hne hvalid] at hfirst
    exact (List.head?_eq_none_iff.mp hfirst).symm
  | lost hread hturns =>
    have hfirst := (Visits.lost hread hturns).pattern? hne hvalid
    rw [h'.pattern? hne hvalid] at hfirst
    exact (List.head?_eq_none_iff.mp hfirst).symm

end Cursor

/-! ## Steps to come -/

/-- A step of the pattern of an entry. -/
structure Place where
  entry : Nat × Cursor
  step : Nat

namespace Sequence

variable {s k : Sequence} {entry : Nat × Cursor} {rest : List Place}

/-- All steps of patterns in turn. -/
def places (s : Sequence) (visited : List (Nat × Cursor)) : List Place :=
  visited.flatMap fun entry =>
    (List.range (s.patterns.getD entry.1 []).length).map fun step => ⟨entry, step⟩

/-- At the entry of a pattern. -/
def standing (s : Sequence) (entry : Nat × Cursor) : Sequence :=
  { s with current := entry.1, cursor := entry.2 }

/-- The steps to come of a sequence that is only woken. -/
inductive Comes : Sequence → List Place → Prop where
  | ends {s : Sequence} (h : s.upcoming? = none) : Comes s []
  | steps {s : Sequence} {entry : Nat × Cursor} {rest : List Place} (h : s.upcoming? = some entry)
      (hrest : Comes (s.standing entry).stepOn rest) : Comes s (⟨entry, s.step⟩ :: rest)

/-- What they go by. -/
def place (s : Sequence) : List Pattern × List Int × Cursor × Nat × Nat :=
  (s.patterns, s.order, s.cursor, s.current, s.step)

theorem upcoming?_congr (h : k.place = s.place) : k.upcoming? = s.upcoming? := by
  simp only [place, Prod.mk.injEq] at h
  obtain ⟨hpatterns, horder, hcursor, hcurrent, hstep⟩ := h
  unfold upcoming?
  rw [hpatterns, horder, hcursor, hcurrent, hstep]

theorem place_stepOn (h : k.place = s.place) : k.stepOn.place = s.stepOn.place := by
  simp only [place, Prod.mk.injEq] at h
  obtain ⟨hpatterns, horder, hcursor, hcurrent, hstep⟩ := h
  have hpattern : k.pattern = s.pattern := by rw [pattern, pattern, hpatterns, hcurrent]
  unfold stepOn
  rw [hpattern, hstep]
  split <;> simp only [place, hpatterns, horder, hcursor, hcurrent]

theorem place_standing (h : k.place = s.place) (entry : Nat × Cursor) :
    (k.standing entry).place = (s.standing entry).place := by
  simp only [place, Prod.mk.injEq] at h
  obtain ⟨hpatterns, horder, -, -, hstep⟩ := h
  show (k.patterns, k.order, entry.2, entry.1, k.step) = _
  rw [hpatterns, horder, hstep]
  rfl

theorem Comes.congr (h : Comes s rest) (hplace : k.place = s.place) : Comes k rest := by
  induction h generalizing k with
  | ends h => exact .ends ((upcoming?_congr hplace).trans h)
  | @steps s entry rest h _ ih =>
    have hstep : k.step = s.step := by
      simp only [place, Prod.mk.injEq] at hplace
      exact hplace.2.2.2.2
    rw [← hstep]
    exact .steps ((upcoming?_congr hplace).trans h)
      (ih (place_stepOn (place_standing hplace entry)))

/-- From a step of a pattern to its last, and on from there. -/
theorem comes_pattern {more : Nat} (hentry : s.upcoming? = some entry)
    (hmore : s.step + (more + 1) = (s.patterns.getD entry.1 []).length)
    (hrest : ∀ k : Sequence, k.patterns = s.patterns → k.order = s.order → k.step = 0 →
      k.cursor = entry.2.next → Comes k rest) :
    Comes s ((List.range' s.step (more + 1)).map (fun step => ⟨entry, step⟩) ++ rest) := by
  have hlength : (s.standing entry).pattern.length = s.step + (more + 1) := hmore.symm
  induction more generalizing s with
  | zero =>
    refine .steps hentry ?_
    rw [stepOn, if_pos (by rw [hlength]; exact Nat.le_refl _)]
    exact hrest _ rfl rfl rfl rfl
  | succ more ih =>
    rw [List.range'_succ]
    refine .steps hentry ?_
    rw [stepOn, if_neg (by rw [hlength]; show ¬ s.step + (more + 2) ≤ s.step + 1; omega)]
    have hnext : s.step + 1 + (more + 1) = (s.patterns.getD entry.1 []).length := by omega
    exact ih (s := { s.standing entry with step := s.step + 1 })
      (if_neg (Nat.succ_ne_zero _)) hnext hrest hnext.symm

theorem Sound.upcoming? {order : List Int} {c : Cursor} {visited : List (Nat × Cursor)}
    (h : s.Sound) (horder : s.order = order) (hcursor : s.cursor = c) (hstep : s.step = 0)
    (hvisits : Cursor.Visits order (Cursor.turnLimit order) c visited) :
    s.upcoming? = visited.head? := by
  subst horder hcursor
  exact (if_pos hstep).trans (hvisits.pattern? h.order_ne_nil h.entries)

/-- The steps of the patterns that the order comes to. -/
theorem Sound.comes {order : List Int} {c : Cursor} {visited : List (Nat × Cursor)}
    (hvisits : Cursor.Visits order (Cursor.turnLimit order) c visited) (h : s.Sound)
    (horder : s.order = order) (hcursor : s.cursor = c) (hstep : s.step = 0) :
    Comes s (s.places visited) := by
  induction hvisits generalizing s with
  | @plays c c' turns pattern rest hread hturns hrest ih =>
    have hentry := h.upcoming? horder hcursor hstep (.plays hread hturns hrest)
    subst horder
    obtain ⟨hflags, hplace⟩ := hread.lands (hcursor ▸ h.flags) rfl
    have hinside : pattern < s.patterns.length := by
      have := h.entries _ (List.mem_of_getElem? hplace)
      omega
    have hlong : 0 < (s.patterns.getD pattern []).length := by
      rw [List.getD_eq_getElem?_getD, List.getElem?_eq_getElem hinside]
      exact h.steps _ (List.getElem_mem hinside)
    obtain ⟨more, hmore⟩ := Nat.exists_eq_add_one.mpr hlong
    have hnext : ∀ k : Sequence, k.patterns = s.patterns → k.order = s.order → k.step = 0 →
        k.cursor = c'.next → Comes k (s.places rest) := by
      intro k hpatterns horder hstep hcursor
      have hk : k.Sound := h.moved hpatterns horder
        (by rw [hcursor]; exact hflags.trans h.flags.symm)
      have hcomes := ih hk horder hcursor hstep
      rwa [places, hpatterns] at hcomes
    have hlast : s.step + (more + 1) = (s.patterns.getD pattern []).length := by
      rw [hstep, Nat.zero_add, hmore]
    have hcomes := comes_pattern hentry hlast hnext
    rw [hstep, ← hmore, ← List.range_eq_range'] at hcomes
    exact hcomes
  | ends hread => exact .ends (h.upcoming? horder hcursor hstep (.ends hread))
  | lost hread hturns => exact .ends (h.upcoming? horder hcursor hstep (.lost hread hturns))

end Sequence

end MidiRig
