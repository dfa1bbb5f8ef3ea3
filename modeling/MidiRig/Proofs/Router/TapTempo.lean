import Mathlib.Algebra.Order.Group.Nat
import MidiRig.Router.Tap

/-!
# When taps give a tempo

A player's taps are remembered by the last of them and by the interval that ended with it, whatever
came before. That is all that matters of a history at rising ticks (`Taps.Remembers`): a tap gives a
tempo just when it is later than all others and the two intervals between the last three different
ticks are short enough and alike (`Taps.commits_iff`). Several taps at one tick are one.
-/

namespace MidiRig

/-- A tap, what it is worth in beats, and the tick rate of the engine then. -/
structure Tap where
  tick : Nat
  beats : Float
  rate : Float

namespace Tap

/-- The tick rate that the tempo is reckoned with. What is not positive counts as the default. -/
def ticksPerSecond (x : Tap) : Float := if x.rate > 0.0 then x.rate else Tempo.defaultTickRate

/-- The tempo at which what a tap is worth passes in an interval. -/
def bpm (x : Tap) (interval : Nat) : Float :=
  x.ticksPerSecond * 60.0 * x.beats / Float.ofNat interval

end Tap

namespace Taps

def ticks (taps : List Tap) : List Nat := taps.map Tap.tick

/-- Takes a tap. -/
def take (ratio : Float) (timeout : Nat) (t : Taps) (x : Tap) : Taps × Option Float :=
  t.tap ⟨x.rate, ratio, timeout⟩ x.tick x.beats

/-- What is remembered after some taps. -/
def after (ratio : Float) (timeout : Nat) (taps : List Tap) : Taps :=
  taps.foldl (fun t x => (t.take ratio timeout x).1) untapped

/-! ## Histories -/

/-- The two latest of the different ticks in a history. -/
structure LastTwo (ticks : List Nat) (before last : Nat) : Prop where
  mem_before : before ∈ ticks
  mem_last : last ∈ ticks
  lt : before < last
  le_or_eq : ∀ t ∈ ticks, t ≤ before ∨ t = last

/-- That a tap at `third`, after taps at `ticks`, is the third of three at like intervals: no other
tick of the history lies after `first`, and both intervals are within the limits. -/
structure Commits (ratio : Float) (timeout : Nat) (ticks : List Nat) (first second third : Nat) :
    Prop where
  later : ∀ t ∈ ticks, t < third
  lastTwo : LastTwo ticks first second
  first_short : second - first ≤ timeout
  second_short : third - second ≤ timeout
  alike : ratio < Float.ofNat (min (second - first) (third - second)) /
    Float.ofNat (max (second - first) (third - second))

variable {ratio : Float} {timeout : Nat} {xs ys : List Nat} {tick before last : Nat}

theorem LastTwo.congr (h : LastTwo xs before last) (hmem : ∀ t, t ∈ ys ↔ t ∈ xs) :
    LastTwo ys before last :=
  ⟨(hmem _).mpr h.mem_before, (hmem _).mpr h.mem_last, h.lt,
    fun t ht => h.le_or_eq t ((hmem t).mp ht)⟩

theorem LastTwo.max? (h : LastTwo xs before last) : xs.max? = some last := by
  refine List.max?_eq_some_iff.mpr ⟨h.mem_last, fun t ht => ?_⟩
  rcases h.le_or_eq t ht with hle | rfl
  · exact hle.trans h.lt.le
  · exact le_rfl

theorem LastTwo.unique {before' last' : Nat} (h : LastTwo xs before last)
    (h' : LastTwo xs before' last') : before = before' ∧ last = last' := by
  have hlast : last = last' := Option.some.inj (h.max?.symm.trans h'.max?)
  have hlt := h.lt
  have hlt' := h'.lt
  have := h.le_or_eq _ h'.mem_before
  have := h'.le_or_eq _ h.mem_before
  omega

/-- A tick later than all others is the last, and the latest of the others is the one before. -/
theorem lastTwo_concat_iff (hlast : xs.max? = some last) (hlt : last < tick) {a b : Nat} :
    LastTwo (xs ++ [tick]) a b ↔ a = last ∧ b = tick := by
  obtain ⟨hmem, hmax⟩ := List.max?_eq_some_iff.mp hlast
  have hnew : LastTwo (xs ++ [tick]) last tick := by
    refine ⟨List.mem_append_left _ hmem, List.mem_append_right _ (List.mem_singleton_self _), hlt,
      fun t ht => ?_⟩
    rcases List.mem_append.mp ht with ht | ht
    · exact .inl (hmax t ht)
    · exact .inr (List.mem_singleton.mp ht)
  constructor
  · exact fun h => h.unique hnew
  · rintro ⟨rfl, rfl⟩
    exact hnew

/-! ## What is remembered -/

/-- Of a history the latest tick is remembered, and the interval that ended there, if it was not too
long. -/
structure Remembers (timeout : Nat) (xs : List Nat) (t : Taps) : Prop where
  last : t.last = xs.max?
  interval : ∀ d, t.interval = some d ↔
    ∃ before last, LastTwo xs before last ∧ d = last - before ∧ d ≤ timeout

theorem remembers_untapped (timeout : Nat) : Remembers timeout [] untapped := by
  refine ⟨rfl, fun d => iff_of_false nofun ?_⟩
  rintro ⟨before, last, h, -⟩
  exact List.not_mem_nil h.mem_last

variable {t u : Taps}

/-- Only the different ticks of a history matter. -/
theorem Remembers.congr (h : Remembers timeout xs t) (hmem : ∀ tick, tick ∈ ys ↔ tick ∈ xs) :
    Remembers timeout ys t := by
  refine ⟨?_, fun d => (h.interval d).trans ?_⟩
  · rw [h.last]
    refine Option.ext fun last => ?_
    rw [List.max?_eq_some_iff, List.max?_eq_some_iff]
    simp only [hmem]
  · constructor
    · rintro ⟨before, last, hlast, hd⟩
      exact ⟨before, last, hlast.congr hmem, hd⟩
    · rintro ⟨before, last, hlast, hd⟩
      exact ⟨before, last, hlast.congr fun tick => (hmem tick).symm, hd⟩

theorem Remembers.unique (h : Remembers timeout xs t) (h' : Remembers timeout xs u) : t = u := by
  obtain ⟨last, interval⟩ := t
  obtain ⟨last', interval'⟩ := u
  obtain rfl : last = last' := h.last.trans h'.last.symm
  obtain rfl : interval = interval' := Option.ext fun d => (h.interval d).trans (h'.interval d).symm
  rfl

/-- One tap. -/
theorem Remembers.take (h : Remembers timeout xs t) (x : Tap) (hle : ∀ tick ∈ xs, tick ≤ x.tick) :
    Remembers timeout (xs ++ [x.tick]) (t.take ratio timeout x).1 := by
  obtain ⟨tick, beats, rate⟩ := x
  simp only at hle ⊢
  have hmax : (xs ++ [tick]).max? = some tick := by
    refine List.max?_eq_some_iff.mpr ⟨List.mem_append_right _ (List.mem_singleton_self _), ?_⟩
    simpa [or_imp, forall_and] using hle
  unfold Taps.take Taps.tap
  cases hlast : t.last with
  | none =>
    obtain rfl := List.max?_eq_none_iff.mp (h.last.symm.trans hlast)
    refine ⟨hmax.symm, fun d => (h.interval d).trans (iff_of_false ?_ ?_)⟩
    · rintro ⟨before, last, htwo, -⟩
      exact List.not_mem_nil htwo.mem_last
    · rintro ⟨before, last, htwo, -⟩
      exact htwo.lt.ne ((List.mem_singleton.mp htwo.mem_before).trans
        (List.mem_singleton.mp htwo.mem_last).symm)
  | some last =>
    have hold : xs.max? = some last := h.last.symm.trans hlast
    obtain ⟨hmem, -⟩ := List.max?_eq_some_iff.mp hold
    simp only
    split_ifs with hsame hlong
    · -- another tap at the same tick
      obtain rfl : tick = last := le_antisymm hsame (hle _ hmem)
      have hticks : ∀ x, x ∈ xs ++ [tick] ↔ x ∈ xs := fun x => by
        rw [List.mem_append, List.mem_singleton, or_iff_left_iff_imp]
        rintro rfl
        exact hmem
      exact ⟨hmax.symm, (h.congr hticks).interval⟩
    · refine ⟨hmax.symm, fun d => iff_of_false nofun ?_⟩
      rintro ⟨a, b, htwo, rfl, hshort⟩
      obtain ⟨rfl, rfl⟩ := (lastTwo_concat_iff hold (not_le.mp hsame)).mp htwo
      exact absurd hlong (not_lt.mpr hshort)
    · refine ⟨hmax.symm, fun d => ?_⟩
      simp only [Option.some.injEq]
      constructor
      · rintro rfl
        exact ⟨last, tick, (lastTwo_concat_iff hold (not_le.mp hsame)).mpr ⟨rfl, rfl⟩, rfl,
          not_lt.mp hlong⟩
      · rintro ⟨a, b, htwo, rfl, -⟩
        obtain ⟨rfl, rfl⟩ := (lastTwo_concat_iff hold (not_le.mp hsame)).mp htwo
        rfl

theorem Remembers.takes (h : Remembers timeout xs t) {taps : List Tap}
    (hrises : (xs ++ ticks taps).Pairwise (· ≤ ·)) :
    Remembers timeout (xs ++ ticks taps)
      (taps.foldl (fun t x => (t.take ratio timeout x).1) t) := by
  induction taps generalizing xs t with
  | nil => simpa [ticks] using h
  | cons x rest ih =>
    have hsplit : xs ++ ticks (x :: rest) = (xs ++ [x.tick]) ++ ticks rest := by simp [ticks]
    rw [hsplit] at hrises ⊢
    have hle : ∀ tick ∈ xs, tick ≤ x.tick := fun tick htick =>
      (List.pairwise_append.mp (List.pairwise_append.mp hrises).1).2.2 tick htick _
        (List.mem_singleton_self _)
    exact ih (h.take x hle) hrises

/-- A history at rising ticks. -/
theorem remembers_after {taps : List Tap} (hrises : (ticks taps).Pairwise (· ≤ ·)) :
    Remembers timeout (ticks taps) (after ratio timeout taps) :=
  (remembers_untapped timeout).takes hrises

/-! ## The answer -/

theorem bpmOfInterval_eq (x : Tap) {interval : Nat} (h : 0 < interval) :
    (Tempo.of x.rate Tempo.defaultBpm).bpmOfInterval x.beats interval = some (x.bpm interval) := by
  have hrate : (Tempo.of x.rate Tempo.defaultBpm).ticksPerSecond = x.ticksPerSecond := by
    unfold Tempo.of Tempo.setBpm Tap.ticksPerSecond
    split <;> rfl
  rw [Tempo.bpmOfInterval, if_neg h.ne', hrate, Tap.bpm]

theorem Remembers.answer_iff (h : Remembers timeout xs t) (x : Tap) (bpm : Float) :
    (t.take ratio timeout x).2 = some bpm ↔
      ∃ first second, Commits ratio timeout xs first second x.tick ∧
        bpm = x.bpm (x.tick - second) := by
  unfold Taps.take Taps.tap
  cases hlast : t.last with
  | none =>
    obtain rfl := List.max?_eq_none_iff.mp (h.last.symm.trans hlast)
    refine iff_of_false nofun ?_
    rintro ⟨first, second, hcommits, -⟩
    exact List.not_mem_nil hcommits.lastTwo.mem_last
  | some last =>
    have hold : xs.max? = some last := h.last.symm.trans hlast
    obtain ⟨hmem, hmax⟩ := List.max?_eq_some_iff.mp hold
    have hsecond : ∀ {first second}, Commits ratio timeout xs first second x.tick →
        second = last :=
      fun hcommits => Option.some.inj (hcommits.lastTwo.max?.symm.trans hold)
    simp only
    split_ifs with hsame hlong
    · refine iff_of_false nofun ?_
      rintro ⟨first, second, hcommits, -⟩
      exact absurd (hcommits.later _ hmem) (not_lt.mpr hsame)
    · refine iff_of_false nofun ?_
      rintro ⟨first, second, hcommits, -⟩
      obtain rfl := hsecond hcommits
      exact absurd hlong (not_lt.mpr hcommits.second_short)
    · have hpos : 0 < x.tick - last := by omega
      simp only [Option.bind_eq_some_iff]
      constructor
      · rintro ⟨d, hd, hanswer⟩
        obtain ⟨first, second, htwo, rfl, hshort⟩ := (h.interval d).mp hd
        obtain rfl : second = last := Option.some.inj (htwo.max?.symm.trans hold)
        split at hanswer
        · next halike =>
          rw [bpmOfInterval_eq x hpos] at hanswer
          refine ⟨first, second, ⟨fun tick htick => (hmax tick htick).trans_lt (not_le.mp hsame),
            htwo, hshort, not_lt.mp hlong, ?_⟩, (Option.some.inj hanswer).symm⟩
          simpa [agree, min_comm, max_comm] using halike
        · cases hanswer
      · rintro ⟨first, second, hcommits, rfl⟩
        obtain rfl := hsecond hcommits
        refine ⟨second - first, (h.interval _).mpr
          ⟨first, second, hcommits.lastTwo, rfl, hcommits.first_short⟩, ?_⟩
        have halike : agree ratio (x.tick - second) (second - first) = true := by
          simpa [agree, min_comm, max_comm] using hcommits.alike
        rw [if_pos halike, bpmOfInterval_eq x hpos]

/-- At rising ticks a tap gives a tempo just when it commits, and then the one at which its beats
pass in the last interval. What taps leave behind is the same for all histories at the same ticks,
however often each has been tapped. -/
theorem commits_iff (ratio : Float) (timeout : Nat) (taps : List Tap) (x : Tap)
    (hrises : (ticks (taps ++ [x])).Pairwise (· ≤ ·)) :
    (∀ bpm, ((after ratio timeout taps).take ratio timeout x).2 = some bpm ↔
        ∃ first second, Commits ratio timeout (ticks taps) first second x.tick ∧
          bpm = x.bpm (x.tick - second)) ∧
      ∀ others : List Tap, (ticks others).Pairwise (· ≤ ·) →
        (∀ tick, tick ∈ ticks others ↔ tick ∈ ticks taps) →
        after ratio timeout others = after ratio timeout taps := by
  have hbefore : (ticks taps).Pairwise (· ≤ ·) := by
    rw [ticks, List.map_append] at hrises
    exact (List.pairwise_append.mp hrises).1
  refine ⟨(remembers_after hbefore).answer_iff x, fun others hothers hsame => ?_⟩
  exact (remembers_after hothers).unique ((remembers_after hbefore).congr hsame)

/-- Taps a half second apart, one of them made twice. -/
def evenTaps (rate : Float) : List Tap := [⟨0, 1.0, rate⟩, ⟨500, 1.0, rate⟩, ⟨500, 3.0, rate⟩]

theorem lastTwo_evenTaps (rate : Float) : LastTwo (ticks (evenTaps rate)) 0 500 :=
  ⟨.head _, .tail _ (.head _), by decide, by simp [ticks, evenTaps]⟩

theorem commits_evenTaps (rate : Float) : Commits 0.5 3000 (ticks (evenTaps rate)) 0 500 1000 :=
  ⟨by simp [ticks, evenTaps], lastTwo_evenTaps rate, by decide, by decide, by decide +kernel⟩

/-- The second made twice counts once. -/
theorem commits_iff_even :
    let x : Tap := ⟨1000, 1.0, 1000.0⟩
    (ticks (evenTaps 1000.0 ++ [x])).Pairwise (· ≤ ·) ∧
      ((after 0.5 3000 (evenTaps 1000.0)).take 0.5 3000 x).2 =
        some (1000.0 * 60.0 * 1.0 / Float.ofNat (1000 - 500)) ∧
      after 0.5 3000 (evenTaps 1000.0) = after 0.5 3000 [⟨0, 1.0, 1000.0⟩, ⟨500, 1.0, 1000.0⟩] := by
  intro x
  have hrises : (ticks (evenTaps 1000.0 ++ [x])).Pairwise (· ≤ ·) := by decide
  obtain ⟨hanswer, hsame⟩ := commits_iff 0.5 3000 (evenTaps 1000.0) x hrises
  refine ⟨hrises, (hanswer _).mpr ⟨0, 500, commits_evenTaps 1000.0, ?_⟩, (hsame _ ?_ ?_).symm⟩
  · rw [Tap.bpm, Tap.ticksPerSecond, if_pos (by decide +kernel)]
  · decide
  · simp [ticks, evenTaps]

/-- By a clock that stands still, a tempo is reckoned as if it went at its default rate. -/
theorem stopped_clock_commits :
    let x : Tap := ⟨1000, 1.0, 0.0⟩
    (ticks (evenTaps 0.0 ++ [x])).Pairwise (· ≤ ·) ∧
      Commits 0.5 3000 (ticks (evenTaps 0.0)) 0 500 1000 ∧
      ((after 0.5 3000 (evenTaps 0.0)).take 0.5 3000 x).2 ≠
        some (x.rate * 60.0 * x.beats / Float.ofNat (x.tick - 500)) := by
  intro x
  have hrises : (ticks (evenTaps 0.0 ++ [x])).Pairwise (· ≤ ·) := by decide
  refine ⟨hrises, commits_evenTaps 0.0, fun hanswer => ?_⟩
  have hbpm : (x.rate * 60.0 * x.beats / Float.ofNat (x.tick - 500) == 120.0) = true := by
    have htempo : ((after 0.5 3000 (evenTaps 0.0)).take 0.5 3000 x).2.any (· == 120.0) = true := by
      decide +kernel
    rwa [hanswer] at htempo
  exact absurd hbpm (by decide +kernel)

end Taps

end MidiRig
