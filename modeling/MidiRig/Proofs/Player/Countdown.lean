import Mathlib.Tactic.Ring
import MidiRig.Proofs.Player.Visits

/-!
# The callbacks that are left

In a pass through its order a sequence comes to an entry again only where an entry goes back, and
each of these does so once. So a pass comes to no more patterns than the order has entries, once
and once more for each entry that goes back. `Cursor.visitsLeft` counts the patterns that can still
come, over all passes that are left, and `Sequence.callbacksLeft` the callbacks: one for each step
of a pattern, and one that finds no pattern. A callback leaves fewer of them
(`Sequence.Sound.callbacksLeft_wake`). Jumps that go back over one another need no care of their
own: what an entry adds by going back is paid for by its flag.
-/

namespace MidiRig

namespace Cursor

variable {order : List Int} {c c' : Cursor} {turns pattern passes : Nat}
  {found : Option (Nat × Cursor)}

/-! ## Patterns to come -/

/-- How many entries go back. -/
def jumps (order : List Int) : Nat := order.countP (· < 0)

/-- How many entries go back and have not done so in this pass. -/
def freshJumps (order : List Int) (c : Cursor) : Nat :=
  (order.zip c.jumped).countP fun x => x.1 < 0 && !x.2

/-- How many patterns can still come: in the passes behind this one, by going back in this one, and
up to its end. -/
def visitsLeft (order : List Int) (c : Cursor) : Nat :=
  (c.passes.getD 0 - 1) * ((jumps order + 1) * order.length) + c.freshJumps order * order.length +
    (order.length - c.position)

theorem freshJumps_start (order : List Int) (passes : Option Nat) :
    (start order.length passes).freshJumps order = jumps order := by
  unfold freshJumps start jumps
  induction order with
  | nil => rfl
  | cons entry rest ih =>
    simp only [List.length_cons, List.replicate_succ, List.zip_cons_cons, List.countP_cons, ih]
    simp

theorem countP_zip_set {entry : Int} {flags : List Bool} {i : Nat} (hentry : order[i]? = some entry)
    (hneg : entry < 0) (hflag : flags[i]? = some false) :
    ((order.zip (flags.set i true)).countP fun x => x.1 < 0 && !x.2) + 1 =
      (order.zip flags).countP fun x => x.1 < 0 && !x.2 := by
  induction order generalizing flags i with
  | nil => cases hentry
  | cons first rest ih =>
    cases flags with
    | nil => cases hflag
    | cons flag flags =>
      cases i with
      | zero =>
        obtain rfl : first = entry := Option.some.inj hentry
        obtain rfl : flag = false := Option.some.inj hflag
        simp [hneg]
      | succ i =>
        have hrest := ih hentry hflag
        simp only [List.set_cons_succ, List.zip_cons_cons, List.countP_cons] at hrest ⊢
        omega

/-- An entry that goes back uses up its flag. -/
theorem freshJumps_jump {entry : Int} {n : Nat} (h : order[c.position]? = some entry)
    (hentry : entry < 0) (hfresh : c.jumped[c.position]? = some false) :
    (c.jump n).freshJumps order + 1 = c.freshJumps order :=
  countP_zip_set h hentry hfresh

theorem visitsLeft_start (order : List Int) (hpasses : 0 < passes) :
    (start order.length (some passes)).visitsLeft order =
      passes * (jumps order + 1) * order.length := by
  obtain ⟨more, rfl⟩ := Nat.exists_eq_add_one.mpr hpasses
  unfold visitsLeft
  rw [freshJumps_start]
  show more * _ + _ + order.length = _
  ring

theorem visitsLeft_next (h : c.position < order.length) :
    c.next.visitsLeft order + 1 = c.visitsLeft order := by
  have hplace : order.length - c.next.position + 1 = order.length - c.position := by
    show order.length - (c.position + 1) + 1 = _
    omega
  unfold visitsLeft
  rw [← hplace]
  rfl

theorem visitsLeft_jump {entry : Int} {n : Nat} (h : order[c.position]? = some entry)
    (hentry : entry < 0) (hfresh : c.jumped[c.position]? = some false) :
    (c.jump n).visitsLeft order ≤ c.visitsLeft order := by
  have hround : ((c.jump n).freshJumps order + 1) * order.length =
      (c.jump n).freshJumps order * order.length + order.length := Nat.succ_mul _ _
  rw [freshJumps_jump h hentry hfresh] at hround
  have hplace : order.length - (c.jump n).position ≤ order.length := Nat.sub_le _ _
  unfold visitsLeft
  rw [hround]
  show (c.passes.getD 0 - 1) * _ + _ + _ ≤ _
  omega

/-- A new pass comes to no more patterns than have been counted for it. -/
theorem visitsLeft_again (hpasses : c.passes = some passes) (hmore : 1 < passes) :
    (start order.length (some (passes - 1))).visitsLeft order ≤ c.visitsLeft order := by
  rw [visitsLeft_start order (by omega), Nat.mul_assoc]
  unfold visitsLeft
  rw [hpasses]
  show _ ≤ (passes - 1) * _ + _ + _
  omega

/-- To come to a pattern leaves fewer of them. -/
theorem Reads.visitsLeft_lt (h : Reads order turns c found) (hcounted : c.passes.isSome = true) :
    found = some (pattern, c') → c'.next.visitsLeft order < c.visitsLeft order := by
  induction h with
  | plays h =>
    rintro ⟨⟩
    have := visitsLeft_next (List.getElem?_eq_some_iff.mp h).1
    omega
  | stops | ends => nofun
  | back h hentry hfresh _ ih =>
    exact fun hfound => (ih hcounted hfound).trans_le (visitsLeft_jump h hentry hfresh)
  | skips h _ _ _ ih =>
    intro hfound
    have hrest := ih hcounted hfound
    have := visitsLeft_next (List.getElem?_eq_some_iff.mp h).1
    omega
  | again _ hmore _ ih =>
    intro hfound
    obtain ⟨passes, hpasses⟩ := Option.isSome_iff_exists.mp hcounted
    rw [hpasses] at ih
    exact (ih rfl hfound).trans_le (visitsLeft_again hpasses (hmore passes hpasses))

end Cursor

/-! ## Callbacks to come -/

namespace Sequence

variable {s k : Sequence} {m : Moment} {loops : Float} {passes : Nat}

/-- Steps of the longest pattern. -/
def longest (s : Sequence) : Nat := (s.patterns.map Pattern.length).foldl max 0

/-- How many callbacks can still come, the one that finds no pattern included. -/
def callbacksLeft (s : Sequence) : Nat :=
  if s.step = 0 then s.cursor.visitsLeft s.order * s.longest + 1
  else s.cursor.next.visitsLeft s.order * s.longest + max (s.longest - s.step) 1 + 1

/-- How many callbacks can come for a number of passes. -/
def callbackLimit (s : Sequence) (passes : Nat) : Nat :=
  passes * (Cursor.jumps s.order + 1) * s.order.length * s.longest + 1

theorem callbacksLeft_pos (s : Sequence) : 0 < s.callbacksLeft := by
  unfold callbacksLeft
  split <;> exact Nat.succ_pos _

theorem le_foldl_max (lengths : List Nat) (least : Nat) :
    least ≤ lengths.foldl max least ∧ ∀ n ∈ lengths, n ≤ lengths.foldl max least := by
  induction lengths generalizing least with
  | nil => exact ⟨Nat.le_refl _, nofun⟩
  | cons first rest ih =>
    obtain ⟨hleast, hrest⟩ := ih (max least first)
    refine ⟨(Nat.le_max_left _ _).trans hleast, fun n hn => ?_⟩
    rcases List.mem_cons.mp hn with rfl | hn
    · exact (Nat.le_max_right _ _).trans hleast
    · exact hrest n hn

theorem length_le_longest {pattern : Pattern} (h : pattern ∈ s.patterns) :
    pattern.length ≤ s.longest :=
  (le_foldl_max _ 0).2 _ (List.mem_map_of_mem h)

theorem pattern_length_le (s : Sequence) : s.pattern.length ≤ s.longest := by
  unfold pattern
  rw [List.getD_eq_getElem?_getD]
  cases hpattern : s.patterns[s.current]? with
  | none => exact Nat.zero_le _
  | some pattern => exact length_le_longest (List.mem_of_getElem? hpattern)

/-- From a call to play on. -/
theorem callbacksLeft_play (hcount : playCount? loops = some (some passes)) (m : Moment) :
    (s.play loops m).1.cursor.passes.isSome = true ∧
      (s.play loops m).1.callbacksLeft = s.callbackLimit passes := by
  have hplay : (s.play loops m).1 = ((s.stopIfPlaying m).1.start (some passes) m).1 := by
    unfold play
    rw [hcount]
  have hsame : (s.stopIfPlaying m).1.order = s.order ∧
      (s.stopIfPlaying m).1.patterns = s.patterns := by
    unfold stopIfPlaying
    split <;> exact ⟨rfl, rfl⟩
  refine ⟨by rw [hplay]; rfl, ?_⟩
  rw [hplay, callbackLimit, ← Cursor.visitsLeft_start s.order (playCount?_pos hcount)]
  show Cursor.visitsLeft (s.stopIfPlaying m).1.order
    (Cursor.start (s.stopIfPlaying m).1.order.length (some passes)) *
      ((s.stopIfPlaying m).1.patterns.map Pattern.length).foldl max 0 + 1 = _
  rw [hsame.1, hsame.2]
  rfl

/-- After a step of a pattern: the rest of its steps, and the patterns behind it. -/
theorem callbacksLeft_emit_le (k : Sequence) :
    k.emit.1.callbacksLeft ≤
      k.cursor.next.visitsLeft k.order * k.longest + max (k.longest - k.step) 1 := by
  have hlong := k.pattern_length_le
  unfold emit stepOn
  split
  · show k.cursor.next.visitsLeft k.order * k.longest + 1 ≤ _
    omega
  · show k.cursor.next.visitsLeft k.order * k.longest + max (k.longest - (k.step + 1)) 1 + 1 ≤ _
    omega

theorem passes_emit (k : Sequence) : k.emit.1.cursor.passes = k.cursor.passes := by
  unfold emit stepOn
  split <;> rfl

theorem playing_of_wake (h : (s.wake m).1.playing = true) : s.playing = true := by
  by_contra hsilent
  unfold wake at h
  rw [Bool.eq_false_iff.mpr hsilent] at h
  exact hsilent h

/-- To come to the pattern of the next step leaves fewer callbacks, that step and all behind it
included. -/
theorem Sound.visitsLeft_upcoming (h : s.Sound) (hcounted : s.cursor.passes.isSome = true)
    {entry : Nat × Cursor} (hentry : s.upcoming? = some entry) :
    entry.2.passes.isSome = true ∧ entry.2.next.visitsLeft s.order * s.longest +
      max (s.longest - s.step) 1 < s.callbacksLeft := by
  unfold Sequence.upcoming? at hentry
  split at hentry
  · next hstep =>
    obtain ⟨turns, found, hread⟩ := Cursor.exists_reads h.plays s.cursor h.flags
    rw [Cursor.pattern?, hread.find?_eq h.order_ne_nil h.entries] at hentry
    split at hentry
    · subst hentry
      have hpos : 0 < s.longest := by
        have hplace := (hread.lands h.flags rfl).2
        have hinside : entry.1 < s.patterns.length := by
          have := h.entries _ (List.mem_of_getElem? hplace)
          omega
        have hmem := List.getElem_mem hinside
        exact (h.steps _ hmem).trans_le (length_le_longest hmem)
      have hmore :=
        Nat.mul_le_mul_right s.longest (Nat.succ_le_of_lt (hread.visitsLeft_lt hcounted rfl))
      rw [Nat.succ_mul] at hmore
      refine ⟨(hread.descends hcounted rfl).1, ?_⟩
      rw [callbacksLeft, if_pos hstep, hstep]
      omega
    · cases hentry
  · next hstep =>
    obtain rfl := Option.some.inj hentry
    refine ⟨hcounted, ?_⟩
    rw [callbacksLeft, if_neg hstep]
    exact Nat.lt_succ_self _

/-- A callback leaves fewer of them. -/
theorem Sound.callbacksLeft_wake (h : s.Sound) (hcounted : s.cursor.passes.isSome = true)
    (hon : (s.wake m).1.playing = true) :
    (s.wake m).1.cursor.passes.isSome = true ∧ (s.wake m).1.callbacksLeft < s.callbacksLeft := by
  have hplaying := playing_of_wake hon
  cases hentry : s.upcoming? with
  | none =>
    rw [s.wake_eq hplaying, hentry] at hon
    cases hon
  | some entry =>
    obtain ⟨hpasses, hless⟩ := h.visitsLeft_upcoming hcounted hentry
    have hleft := callbacksLeft_emit_le { s with
      current := entry.1, cursor := entry.2, sounding := s.sounding.prune m.now }
    rw [s.wake_eq hplaying, hentry]
    refine ⟨?_, hleft.trans_lt hless⟩
    show (Sequence.emit _).1.cursor.passes.isSome = true
    rw [passes_emit]
    exact hpasses

end Sequence

end MidiRig
