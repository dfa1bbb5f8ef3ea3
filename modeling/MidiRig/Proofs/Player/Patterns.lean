import Mathlib.Algebra.Order.BigOperators.Group.List
import Mathlib.Algebra.Order.Group.Nat
import Mathlib.Data.Nat.Find
import MidiRig.Proofs.Stage.Life

/-!
# The pattern that comes next

`Cursor.Reads order turns c found` says what an order tells from a place on, entry by entry,
however many turns that takes: the pattern that it comes to with the place of its entry, or that
playing ends. Every place of an order that plays something has a reading (`Cursor.exists_reads`).
The search of a sequence takes a limited number of turns; it finds what is read where the reading
takes no more of them, and otherwise nothing (`Cursor.Reads.find?_eq`). An order in which each entry
that goes back goes back over one that plays or stops stays within the limit
(`Cursor.Reads.turns_le`).

All this is about orders that play something and name no pattern that there is not. Those of
sequences on a stage are such orders at all times (`Life.sound`).
-/

namespace MidiRig

namespace Cursor

variable {order : List Int} {c : Cursor} {turns patterns : Nat} {found : Option (Nat × Cursor)}

/-! ## Readings -/

/-- As an entry leaves it that goes back. -/
def jump (c : Cursor) (n : Nat) : Cursor :=
  { c with jumped := c.jumped.set c.position true, position := c.position - n }

/-- What an order tells from a place on, and in how many turns. The number of a pattern counts from
`0` where its entry counts from `1`. -/
inductive Reads (order : List Int) : Nat → Cursor → Option (Nat × Cursor) → Prop where
  | plays {c : Cursor} {entry : Int} (h : order[c.position]? = some entry) (hentry : 0 < entry) :
      Reads order 1 c (some (entry.toNat - 1, c))
  | stops {c : Cursor} (h : order[c.position]? = some 0) : Reads order 1 c none
  /-- The first time in a pass. -/
  | back {c : Cursor} {entry : Int} {turns : Nat} {found : Option (Nat × Cursor)}
      (h : order[c.position]? = some entry) (hentry : entry < 0)
      (hfresh : c.jumped[c.position]? = some false)
      (hread : Reads order turns (c.jump entry.natAbs) found) : Reads order (turns + 1) c found
  | skips {c : Cursor} {entry : Int} {turns : Nat} {found : Option (Nat × Cursor)}
      (h : order[c.position]? = some entry) (hentry : entry < 0)
      (hused : c.jumped[c.position]? = some true) (hread : Reads order turns c.next found) :
      Reads order (turns + 1) c found
  /-- Behind the last entry of the last pass. -/
  | ends {c : Cursor} {passes : Nat} (h : order.length ≤ c.position)
      (hpasses : c.passes = some passes) (hlast : passes ≤ 1) : Reads order 1 c none
  /-- Behind the last entry of a pass that another one follows. -/
  | again {c : Cursor} {turns : Nat} {found : Option (Nat × Cursor)}
      (h : order.length ≤ c.position) (hmore : ∀ passes, c.passes = some passes → 1 < passes)
      (hread : Reads order turns (start order.length (c.passes.map (· - 1))) found) :
      Reads order turns c found

theorem Reads.pos (h : Reads order turns c found) : 0 < turns := by
  induction h with
  | again _ _ _ ih => exact ih
  | _ => omega

/-- A reading keeps to the order: there is a flag for each entry, and the pattern is the one of the
entry. -/
theorem Reads.lands (h : Reads order turns c found) (hflags : c.jumped.length = order.length) :
    ∀ {pattern : Nat} {c' : Cursor}, found = some (pattern, c') →
      c'.jumped.length = order.length ∧ order[c'.position]? = some ((pattern : Int) + 1) := by
  induction h with
  | plays h hentry =>
    rintro _ _ ⟨⟩
    exact ⟨hflags, by rw [h]; congr 1; omega⟩
  | back h hentry hfresh _ ih => exact ih ((List.length_set ..).trans hflags)
  | skips _ _ _ _ ih => exact ih hflags
  | again _ _ _ ih => exact ih List.length_replicate
  | stops | ends => nofun

/-! ## The search -/

section Turns

variable {entry : Int}

theorem turn_entry (patterns : Nat) (h : order[c.position]? = some entry) :
    c.turn order patterns = follow patterns entry c := by
  obtain ⟨hlt, -⟩ := List.getElem?_eq_some_iff.mp h
  unfold turn wrap?
  rw [if_pos hlt]
  simp only [h]

theorem turn_plays (h : order[c.position]? = some entry) (hentry : 0 < entry)
    (hvalid : entry ≤ patterns) : c.turn order patterns = .plays (entry.toNat - 1) c := by
  rw [turn_entry patterns h, follow, if_neg (by omega), if_neg (by omega), if_pos hvalid]

theorem turn_stops (h : order[c.position]? = some 0) : c.turn order patterns = .ends := by
  rw [turn_entry patterns h, follow, if_pos rfl]

theorem turn_back (h : order[c.position]? = some entry) (hentry : entry < 0)
    (hfresh : c.jumped[c.position]? = some false) :
    c.turn order patterns = .moves (c.jump entry.natAbs) := by
  have hunused : c.jumped.getD c.position false = false := by
    rw [List.getD_eq_getElem?_getD, hfresh]
    rfl
  rw [turn_entry patterns h, follow, if_neg (by omega), if_pos hentry, goBack, hunused]
  rfl

theorem turn_skips (h : order[c.position]? = some entry) (hentry : entry < 0)
    (hused : c.jumped[c.position]? = some true) : c.turn order patterns = .moves c.next := by
  have hjumped : c.jumped.getD c.position false = true := by
    rw [List.getD_eq_getElem?_getD, hused]
    rfl
  rw [turn_entry patterns h, follow, if_neg (by omega), if_pos hentry, goBack, hjumped]
  rfl

theorem turn_ends {passes : Nat} (h : order.length ≤ c.position) (hpasses : c.passes = some passes)
    (hlast : passes ≤ 1) : c.turn order patterns = .ends := by
  unfold turn wrap?
  rw [if_neg (Nat.not_lt.mpr h), hpasses]
  simp only [hlast, if_true]

/-- A new pass begins within the turn. -/
theorem turn_again (hne : order ≠ []) (h : order.length ≤ c.position)
    (hmore : ∀ passes, c.passes = some passes → 1 < passes) :
    c.turn order patterns =
      (start order.length (c.passes.map (· - 1))).turn order patterns := by
  have hpos : 0 < order.length := List.length_pos_of_ne_nil hne
  have hwrap : c.wrap? order.length = some (start order.length (c.passes.map (· - 1))) := by
    unfold wrap?
    rw [if_neg (Nat.not_lt.mpr h)]
    cases hpasses : c.passes with
    | none => rfl
    | some passes =>
      have := hmore passes hpasses
      simp only [if_neg (Nat.not_le.mpr this)]
      rfl
  have hstart : (start order.length (c.passes.map (· - 1))).wrap? order.length =
      some (start order.length (c.passes.map (· - 1))) := if_pos hpos
  unfold turn
  rw [hwrap, hstart]

end Turns

/-- A search finds what is read, if it may take the turns of the reading. -/
theorem Reads.find?_eq (h : Reads order turns c found) (hne : order ≠ [])
    (hvalid : ∀ entry ∈ order, entry ≤ patterns) (limit : Nat) :
    find? order patterns limit c = if turns ≤ limit then found else none := by
  induction h generalizing limit with
  | plays h hentry =>
    cases limit with
    | zero => rfl
    | succ limit =>
      rw [find?, turn_plays h hentry (hvalid _ (List.mem_of_getElem? h)), if_pos (by omega)]
  | stops h =>
    cases limit with
    | zero => rfl
    | succ limit =>
      rw [find?, turn_stops h]
      exact (ite_self none).symm
  | back h hentry hfresh _ ih =>
    cases limit with
    | zero => rfl
    | succ limit =>
      rw [find?, turn_back h hentry hfresh]
      simpa using ih limit
  | skips h hentry hused _ ih =>
    cases limit with
    | zero => rfl
    | succ limit =>
      rw [find?, turn_skips h hentry hused]
      simpa using ih limit
  | ends h hpasses hlast =>
    cases limit with
    | zero => rfl
    | succ limit =>
      rw [find?, turn_ends h hpasses hlast]
      exact (ite_self none).symm
  | again h hmore _ ih =>
    rw [← ih limit]
    cases limit with
    | zero => rfl
    | succ limit => rw [find?, turn_again hne h hmore, find?]

/-- There is one thing to read at a place. -/
theorem Reads.unique (hne : order ≠ []) {turns' : Nat} {found' : Option (Nat × Cursor)}
    (h : Reads order turns c found) (h' : Reads order turns' c found') : found = found' := by
  have hvalid : ∀ entry ∈ order, entry ≤ ((order.map Int.natAbs).sum : Nat) := by
    intro entry hentry
    have hle := List.le_sum_of_mem (List.mem_map_of_mem (f := Int.natAbs) hentry)
    omega
  have hfirst := h.find?_eq hne hvalid (max turns turns')
  have hsecond := h'.find?_eq hne hvalid (max turns turns')
  rw [if_pos (Nat.le_max_left _ _)] at hfirst
  rw [if_pos (Nat.le_max_right _ _)] at hsecond
  exact hfirst.symm.trans hsecond

/-! ## Every place has a reading -/

theorem count_jump (c : Cursor) {n : Nat} (hfresh : c.jumped[c.position]? = some false) :
    (c.jump n).jumped.count false < c.jumped.count false := by
  obtain ⟨hlt, hflag⟩ := List.getElem?_eq_some_iff.mp hfresh
  have hpos : 0 < c.jumped.count false := List.count_pos_iff.mpr (hflag ▸ List.getElem_mem hlt)
  show (c.jumped.set c.position true).count false < _
  rw [List.count_set hlt, hflag]
  simp only [beq_self_eq_true, if_true, show (true == false) = false from rfl, Bool.false_eq_true,
    if_false]
  omega

/-- Up to some entry there are so many flags and entries only, so the reading is over or comes
there. -/
theorem exists_reads_until {last : Nat} (hlast : last ≤ order.length)
    (hstop : ∀ c : Cursor, c.jumped.length = order.length → c.position = last →
      ∃ turns found, Reads order turns c found)
    (c : Cursor) (hflags : c.jumped.length = order.length) (hle : c.position ≤ last) :
    ∃ turns found, Reads order turns c found := by
  by_cases hend : c.position = last
  · exact hstop c hflags hend
  have hlt : c.position < order.length := by omega
  have hentry : order[c.position]? = some order[c.position] := List.getElem?_eq_getElem hlt
  rcases Int.lt_trichotomy order[c.position] 0 with hneg | hzero | hpos
  · have hinside : c.position < c.jumped.length := hflags ▸ hlt
    have hflag : c.jumped[c.position]? = some c.jumped[c.position] :=
      List.getElem?_eq_getElem hinside
    cases hused : c.jumped[c.position] with
    | false =>
      rw [hused] at hflag
      have hfewer := c.count_jump (n := order[c.position].natAbs) hflag
      obtain ⟨turns, found, hread⟩ := exists_reads_until hlast hstop
        (c.jump order[c.position].natAbs) ((List.length_set ..).trans hflags)
        (Nat.le_trans (Nat.sub_le _ _) hle)
      exact ⟨_, _, .back hentry hneg hflag hread⟩
    | true =>
      rw [hused] at hflag
      obtain ⟨turns, found, hread⟩ := exists_reads_until hlast hstop c.next hflags (by
        show c.position + 1 ≤ last
        omega)
      exact ⟨_, _, .skips hentry hneg hflag hread⟩
  · exact ⟨_, _, .stops (hzero ▸ hentry)⟩
  · exact ⟨_, _, .plays hentry hpos⟩
termination_by (c.jumped.count false, last - c.position)
decreasing_by
  · exact .left _ _ hfewer
  · exact .right _ (by show last - (c.position + 1) < _; omega)

/-- An order that plays something does so in every pass, unless it stops before. -/
theorem exists_reads (hplays : ∃ entry ∈ order, 0 < entry) (c : Cursor)
    (hflags : c.jumped.length = order.length) : ∃ turns found, Reads order turns c found := by
  obtain ⟨entry, hmem, hentry⟩ := hplays
  obtain ⟨k, hk⟩ := List.mem_iff_getElem?.mp hmem
  have hlt : k < order.length := (List.getElem?_eq_some_iff.mp hk).1
  have hpass : ∀ passes, ∃ turns found, Reads order turns (start order.length passes) found := by
    intro passes
    refine exists_reads_until (Nat.le_of_lt hlt) (fun c _ hposition => ?_) _ List.length_replicate
      (Nat.zero_le _)
    exact ⟨_, _, .plays (hposition ▸ hk) hentry⟩
  have hbehind : ∀ c : Cursor, order.length ≤ c.position →
      ∃ turns found, Reads order turns c found := by
    intro c hend
    by_cases hmore : ∀ passes, c.passes = some passes → 1 < passes
    · obtain ⟨turns, found, hread⟩ := hpass (c.passes.map (· - 1))
      exact ⟨_, _, .again hend hmore hread⟩
    · simp only [not_forall, Nat.not_lt] at hmore
      obtain ⟨passes, hpasses, hlast⟩ := hmore
      exact ⟨_, _, .ends hend hpasses hlast⟩
  by_cases hinside : c.position ≤ order.length
  · exact exists_reads_until le_rfl
      (fun c _ hposition => hbehind c (Nat.le_of_eq hposition.symm)) c hflags hinside
  · exact hbehind c (by omega)

/-! ## How many turns a reading takes -/

/-- Each entry that goes back goes back over one that plays or stops. -/
def Spaced (order : List Int) : Prop :=
  ∀ i < order.length, order.getD i 0 < 0 →
    ∃ j < i, i ≤ j + (order.getD i 0).natAbs ∧ 0 ≤ order.getD j 0

instance (order : List Int) : Decidable (Spaced order) := by
  unfold Spaced
  infer_instance

theorem getD_of_getElem? {i : Nat} {entry : Int} (h : order[i]? = some entry) :
    i < order.length ∧ order.getD i 0 = entry := by
  obtain ⟨hlt, heq⟩ := List.getElem?_eq_some_iff.mp h
  rw [List.getD_eq_getElem?_getD, h]
  exact ⟨hlt, rfl⟩

/-- Where an entry goes back to, and the next entry from there that does not go back. -/
theorem Spaced.lands (h : Spaced order) {i : Nat} {entry : Int} (hi : order[i]? = some entry)
    (hentry : entry < 0) : ∃ k < i, i - entry.natAbs ≤ k ∧ 0 ≤ order.getD k 0 ∧
      ∀ j, i - entry.natAbs ≤ j → j < k → order.getD j 0 < 0 := by
  obtain ⟨hlt, heq⟩ := getD_of_getElem? hi
  obtain ⟨j, hj, hback, hplays⟩ := h i hlt (heq ▸ hentry)
  rw [heq] at hback
  have hex : ∃ k, i - entry.natAbs ≤ k ∧ 0 ≤ order.getD k 0 := ⟨j, by omega, hplays⟩
  obtain ⟨hge, hstop⟩ := Nat.find_spec hex
  refine ⟨Nat.find hex, ?_, hge, hstop, fun j hj hbefore => ?_⟩
  · exact Nat.lt_of_le_of_lt (Nat.find_min' hex ⟨by omega, hplays⟩) hj
  · have := Nat.find_min hex hbefore
    omega

/-- From `first` to `stop` there are entries only that go back, and they go back over `first`. -/
theorem Reads.turns_add_le (h : Reads order turns c found) (hspaced : Spaced order)
    {first stop : Nat} (hfirst : first ≤ c.position) (hstop : c.position ≤ stop)
    (hend : stop < order.length) (hplays : 0 ≤ order.getD stop 0)
    (hback : ∀ i, first ≤ i → i < stop → order.getD i 0 < 0) :
    turns + c.position ≤ stop + 1 + first := by
  induction h generalizing first stop with
  | plays | stops => omega
  | @back c entry turns found h hentry _ _ ih =>
    obtain ⟨hlt, heq⟩ := getD_of_getElem? h
    obtain ⟨k, hk, hge, hnext, hbefore⟩ := hspaced.lands h hentry
    have hover : k < first := by
      by_contra hinside
      have := hback k (by omega) (by omega)
      omega
    have hrest : turns + (c.position - entry.natAbs) ≤ k + 1 + (c.position - entry.natAbs) :=
      ih le_rfl hge (by omega) hnext hbefore
    omega
  | @skips c entry turns found h hentry _ _ ih =>
    obtain ⟨hlt, heq⟩ := getD_of_getElem? h
    have hne : c.position ≠ stop := by
      rintro rfl
      omega
    have hrest : turns + (c.position + 1) ≤ stop + 1 + first :=
      ih (Nat.le_succ_of_le hfirst) (show c.position + 1 ≤ stop by omega) hend hplays hback
    omega
  | ends h | again h => omega

/-- An entry goes back over others at most once in a reading, so these are passed twice. -/
theorem Reads.turns_le (h : Reads order turns c found) (hspaced : Spaced order)
    (hplays : ∃ entry ∈ order, 0 < entry) : turns ≤ turnLimit order := by
  have hpass : ∀ turns passes found,
      Reads order turns (start order.length passes) found → turns ≤ order.length := by
    intro turns passes found hread
    obtain ⟨entry, hmem, hentry⟩ := hplays
    obtain ⟨k, hk⟩ := List.mem_iff_getElem?.mp hmem
    obtain ⟨hlt, heq⟩ := getD_of_getElem? hk
    have hex : ∃ k, 0 ≤ order.getD k 0 := ⟨k, by omega⟩
    have hmin : Nat.find hex ≤ k := Nat.find_min' hex (by omega)
    have hle : turns + 0 ≤ Nat.find hex + 1 + 0 :=
      hread.turns_add_le hspaced (Nat.zero_le _) (Nat.zero_le _) (by omega) (Nat.find_spec hex)
        fun i _ hi => by
          have := Nat.find_min hex hi
          omega
    omega
  have hbound : turns + min c.position order.length ≤ 2 * order.length + 1 := by
    induction h with
    | plays h | stops h =>
      have := (getD_of_getElem? h).1
      omega
    | @back c entry turns found h hentry _ hread _ =>
      have hlt := (getD_of_getElem? h).1
      obtain ⟨k, hk, hge, hnext, hbefore⟩ := hspaced.lands h hentry
      have hle : turns + (c.position - entry.natAbs) ≤ k + 1 + (c.position - entry.natAbs) :=
        hread.turns_add_le hspaced le_rfl hge (by omega) hnext hbefore
      omega
    | @skips c entry turns found h _ _ _ ih =>
      have hlt := (getD_of_getElem? h).1
      change turns + min (c.position + 1) order.length ≤ _ at ih
      omega
    | ends h => omega
    | again h _ hread =>
      have := hpass _ _ _ hread
      omega
  unfold turnLimit
  omega

end Cursor

/-! ## Sequences -/

namespace Sequence

/-- What the definition of a sequence is checked for, and that its place is one in its order. -/
structure Sound (s : Sequence) : Prop where
  entries : ∀ entry ∈ s.order, entry ≤ s.patterns.length
  plays : ∃ entry ∈ s.order, 0 < entry
  steps : ∀ pattern ∈ s.patterns, 0 < pattern.length
  flags : s.cursor.jumped.length = s.order.length

variable {s k chosen : Sequence}

theorem Sound.order_ne_nil (h : s.Sound) : s.order ≠ [] := by
  obtain ⟨entry, hmem, -⟩ := h.plays
  exact List.ne_nil_of_mem hmem

theorem sound_make {d : SequenceDef} (hd : d.problem? = none) (config : SequencerConfig)
    (rate : Float) : (Sequence.make d config rate).Sound := by
  unfold SequenceDef.problem? at hd
  split at hd
  · cases hd
  next hpatterns =>
  split at hd
  · cases hd
  next hsteps =>
  split at hd
  · cases hd
  split at hd
  · cases hd
  next hmissing =>
  split at hd
  · cases hd
  next hplays =>
  have hlong : ∀ pattern ∈ d.patterns, 0 < pattern.length := by
    intro pattern hpattern
    have := List.findIdx?_eq_none_iff.mp hsteps pattern hpattern
    exact Nat.pos_of_ne_zero (by simpa using this)
  refine ⟨?_, ?_, hlong, List.length_replicate⟩
  · intro entry hentry
    change entry ∈ d.playedOrder at hentry
    show entry ≤ (d.patterns.length : ℤ)
    unfold SequenceDef.playedOrder at hentry
    split at hentry
    · obtain ⟨k, hk, rfl⟩ := List.mem_map.mp hentry
      have := List.mem_range.mp hk
      omega
    · simpa using List.find?_eq_none.mp hmissing entry hentry
  · show ∃ entry ∈ d.playedOrder, 0 < entry
    unfold SequenceDef.playedOrder
    split
    · have hpos : 0 < d.patterns.length := List.length_pos_of_ne_nil (by simpa using hpatterns)
      exact ⟨1, List.mem_map.mpr ⟨0, List.mem_range.mpr hpos, rfl⟩, by decide⟩
    · next horder => simpa [horder] using hplays

/-- Only the place changes. -/
theorem Sound.moved (h : s.Sound) (hpatterns : k.patterns = s.patterns) (horder : k.order = s.order)
    (hflags : k.cursor.jumped.length = s.cursor.jumped.length) : k.Sound :=
  ⟨hpatterns ▸ horder ▸ h.entries, horder ▸ h.plays, hpatterns ▸ h.steps,
    hflags.trans (h.flags.trans (congrArg List.length horder).symm)⟩

theorem Sound.start (h : s.Sound) (passes : Option Nat) (m : Moment) : (s.start passes m).1.Sound :=
  h.moved rfl rfl (List.length_replicate.trans h.flags.symm)

theorem Sound.stopIfPlaying (h : s.Sound) (m : Moment) : (s.stopIfPlaying m).1.Sound := by
  unfold Sequence.stopIfPlaying
  split
  · exact h.moved rfl rfl rfl
  · exact h

theorem Sound.play (h : s.Sound) (loops : Float) (m : Moment) : (s.play loops m).1.Sound := by
  unfold Sequence.play
  cases playCount? loops with
  | none => exact h.stopIfPlaying m
  | some passes => exact (h.stopIfPlaying m).start passes m

/-- The search comes to the entry that is read. -/
theorem Sound.choose? (h : s.Sound) (hchoose : s.choose? = some chosen) : chosen.Sound := by
  unfold Sequence.choose? at hchoose
  split at hchoose
  · obtain ⟨⟨pattern, cursor⟩, hfound, rfl⟩ := Option.map_eq_some_iff.mp hchoose
    obtain ⟨turns, found, hread⟩ := Cursor.exists_reads h.plays s.cursor h.flags
    rw [Cursor.pattern?, hread.find?_eq h.order_ne_nil h.entries] at hfound
    split at hfound
    · subst hfound
      exact h.moved rfl rfl ((hread.lands h.flags rfl).1.trans h.flags.symm)
    · cases hfound
  · cases hchoose
    exact h

theorem Sound.emit (h : s.Sound) : s.emit.1.Sound := by
  refine h.moved ?_ ?_ ?_
  all_goals
    unfold Sequence.emit stepOn
    split <;> rfl

theorem Sound.wake (h : s.Sound) (m : Moment) : (s.wake m).1.Sound := by
  have hpruned : Sound { s with sounding := s.sounding.prune m.now } := h.moved rfl rfl rfl
  unfold Sequence.wake
  split
  · exact h
  · simp only
    split
    · next chosen hchoose => exact (hpruned.choose? hchoose).emit
    · exact hpruned.moved rfl rfl rfl

theorem Sound.respond (h : s.Sound) (m : Moment) (c : Call) : (s.respond m c).1.Sound := by
  cases c with
  | play loops => exact h.play loops m
  | dismiss => exact h.stopIfPlaying m
  | wake => exact h.wake m
  | _ => exact h.moved rfl rfl rfl

end Sequence

/-- For a sequence, that it is sound. -/
def Player.Sound : Player → Prop
  | sequence s => s.Sound
  | _ => True

/-- Whatever happens to a player. -/
theorem Life.sound {r : Conduct} {d : PlayerDef} {busy : Bool} {now : Nat} {p : Part}
    {played : List Played} (h : Life r d busy now p played) :
    ∀ player, p.player = some player → player.Sound := by
  refine h.keep (P := fun _ => Player.Sound) (fun _ config rate hvalid => ?_) (fun _ _ _ _ hp => hp)
    fun p m c hp => ?_
  · cases d with
    | sequence d => exact Sequence.sound_make hvalid config rate
    | _ => trivial
  · cases p with
    | sequence s => exact Sequence.Sound.respond hp m c
    | _ => trivial

end MidiRig
