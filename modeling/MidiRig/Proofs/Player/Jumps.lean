import MidiRig.Proofs.Player.Seeks

/-!
# Which jump is taken

Of the jumps that a report comes over the first of the list is taken, wherever its bar lies. So a
later report from the same place takes the jump that an earlier one takes, unless it comes over the
bar of one that stands before it in the list (`Track.jump_at_later_report`). In a list that goes by
bars none does, and the jump that is taken is the one that the playhead reaches first; in another
one it may be passed over (`Track.nearer_jump_is_passed`).
-/

namespace MidiRig

/-- Whether the bar of a jump starts on the way from `last` to `now`. -/
def Jump.isReached (j : Jump) (length last now : Nat) : Bool :=
  last < Track.barStart length j.source && Track.barStart length j.source ≤ now

namespace Track

/-- The answer of a track that takes a jump. -/
def takeJump (t : Track) (m : Moment) (j : Jump) : Response Track :=
  if j.target = 0 then t.stop else t.moveTo (barStart (t.bar m) j.target)

/-- Jumps in the order of their bars. -/
def InBarOrder (jumps : List Jump) : Prop := jumps.Pairwise fun a b => a.source ≤ b.source

variable {t : Track} {m : Moment} {jumps before rest : List Jump} {j k : Jump}
  {length last now later : Nat}

theorem isReached_iff : j.isReached length last now = true ↔
    last < barStart length j.source ∧ barStart length j.source ≤ now := by
  simp [Jump.isReached]

theorem isReached_mono (h : now ≤ later) (hj : j.isReached length last now = true) :
    j.isReached length last later = true := by
  rw [isReached_iff] at hj ⊢
  exact ⟨hj.1, hj.2.trans h⟩

theorem barStart_mono {a b : Nat} (h : a ≤ b) : barStart length a ≤ barStart length b :=
  Nat.mul_le_mul_right length (Nat.sub_le_sub_right h 1)

/-- The first of the list is found. -/
theorem jump?_eq_some_iff : jump? jumps length last now = some j ↔
    j.isReached length last now = true ∧ ∃ before rest, jumps = before ++ j :: rest ∧
      ∀ other ∈ before, other.isReached length last now = false := by
  simp only [← Bool.not_eq_true']
  exact List.find?_eq_some_iff_append

/-- On a longer way the first of those before it that are reached is found instead. -/
theorem jump?_later (before rest : List Jump) (h : now ≤ later)
    (hj : j.isReached length last now = true) : jump? (before ++ j :: rest) length last later =
      some ((before.find? (·.isReached length last later)).getD j) := by
  have hhead : (j :: rest).find? (·.isReached length last later) = some j :=
    List.find?_cons_of_pos (isReached_mono h hj)
  show (before ++ j :: rest).find? (·.isReached length last later) = _
  rw [List.find?_append, hhead, Option.or_some]

/-! ## Bars in order -/

section Ordered

variable (hordered : InBarOrder (before ++ j :: rest)) (hj : j.isReached length last now = true)
  (hbefore : ∀ other ∈ before, other.isReached length last now = false)

include hordered hj hbefore

/-- What has been passed when the bar is reached, is never reached. -/
theorem not_isReached_before : ∀ other ∈ before, other.isReached length last later = false := by
  intro other hother
  have hsource : other.source ≤ j.source :=
    (List.pairwise_append.mp hordered).2.2 other hother j List.mem_cons_self
  have hstart : barStart length other.source ≤ now :=
    (barStart_mono hsource).trans (isReached_iff.mp hj).2
  refine Bool.eq_false_iff.mpr fun hlater => Bool.eq_false_iff.mp (hbefore other hother) ?_
  exact isReached_iff.mpr ⟨(isReached_iff.mp hlater).1, hstart⟩

/-- The playhead reaches no other bar before. -/
theorem le_of_isReached {other : Jump} (hmem : other ∈ before ++ j :: rest)
    (hother : other.isReached length last later = true) :
    barStart length j.source ≤ barStart length other.source := by
  rcases List.mem_append.mp hmem with hmem | hmem
  · cases (not_isReached_before hordered hj hbefore other hmem).symm.trans hother
  · rcases List.mem_cons.mp hmem with rfl | hmem
    · exact le_rfl
    · exact barStart_mono
        ((List.pairwise_cons.mp (List.pairwise_append.mp hordered).2.1).1 other hmem)

end Ordered

/-! ## Answers -/

theorem fileTick_of_jump (hplaying : t.playing = true) (hpending : t.pending = none)
    (h : jump? t.jumps (t.bar m) t.lastTick now = some j) :
    t.fileTick now m = t.takeJump m j := by
  rw [fileTick_of_pending_none hplaying hpending, follow, h]
  rfl

/-- Jumps to different targets have different answers. -/
theorem takeJump_eq_iff (hplaying : t.playing = true) :
    t.takeJump m j = t.takeJump m k ↔ j.target = k.target := by
  have hstop : ∀ position, t.stop ≠ t.moveTo position := fun position h => by
    have hstopped := (t.playing_stop.symm.trans (congrArg (·.1.playing) h))
    cases hstopped.trans hplaying
  unfold takeJump
  constructor
  · intro h
    split at h
    · next hj =>
      split at h
      · next hk => rw [hj, hk]
      · exact absurd h (hstop _)
    · next hj =>
      split at h
      · exact absurd h.symm (hstop _)
      · next hk =>
        have hstart : barStart (t.bar m) j.target = barStart (t.bar m) k.target :=
          congrArg (·.1.lastTick) h
        have hpred := Nat.eq_of_mul_eq_mul_right (t.bar_pos m) hstart
        omega
  · intro h
    rw [h]

/-- A report takes the first jump of the list that it comes over. A later one from the same place
answers alike unless it comes over another one that stands before it in the list and leads
elsewhere. None does in a list that goes by bars; there the jump that is taken is the one that the
playhead reaches first. -/
theorem jump_at_later_report (hpending : t.pending = none) (hlater : now < later)
    (h : t.Reported m now (some j) (t.fileTick now m)) :
    t.fileTick now m = t.takeJump m j ∧
      ∃ before rest, t.jumps = before ++ j :: rest ∧
        (∀ other ∈ before, other.isReached (t.bar m) t.lastTick now = false) ∧
        t.Reported m later
          (some ((before.find? (·.isReached (t.bar m) t.lastTick later)).getD j))
          (t.fileTick later m) ∧
        (t.fileTick later m = t.fileTick now m ↔
          ∀ other, before.find? (·.isReached (t.bar m) t.lastTick later) = some other →
            other.target = j.target) ∧
        (InBarOrder t.jumps → t.fileTick later m = t.fileTick now m ∧
          ∀ other ∈ t.jumps, other.isReached (t.bar m) t.lastTick later = true →
            barStart (t.bar m) j.source ≤ barStart (t.bar m) other.source) := by
  obtain ⟨hplaying, hjump⟩ : t.playing = true ∧
      jump? t.jumps (t.bar m) t.lastTick now = some j := by
    generalize t.fileTick now m = answer at h
    cases h with
    | jumps hplaying _ hjump => exact ⟨hplaying, hjump⟩
  have hnow := fileTick_of_jump hplaying hpending hjump
  obtain ⟨hj, before, rest, hjumps, hbefore⟩ := jump?_eq_some_iff.mp hjump
  have hnext := jump?_later before rest hlater.le hj
  rw [← hjumps] at hnext
  have hanswer := fileTick_of_jump hplaying hpending hnext
  have hsame : t.fileTick later m = t.fileTick now m ↔
      ∀ other, before.find? (·.isReached (t.bar m) t.lastTick later) = some other →
        other.target = j.target := by
    rw [hanswer, hnow, takeJump_eq_iff hplaying]
    cases before.find? (·.isReached (t.bar m) t.lastTick later) with
    | none => exact iff_of_true rfl nofun
    | some other => simp
  refine ⟨hnow, before, rest, hjumps, hbefore, ?_, hsame, fun hordered => ?_⟩
  · exact reported_jump hplaying (fun _ hseek => nomatch hpending.symm.trans hseek.1) hnext
  · rw [hjumps] at hordered ⊢
    have hnone : before.find? (·.isReached (t.bar m) t.lastTick later) = none :=
      List.find?_eq_none.mpr fun other hother =>
        Bool.eq_false_iff.mp (not_isReached_before hordered hj hbefore other hother)
    refine ⟨hsame.mpr fun other hother => ?_, fun other => le_of_isReached hordered hj hbefore⟩
    cases hnone.symm.trans hother

/-- A track that has begun to play. -/
def leap (jumps : List Jump) : Track :=
  { make ⟨⟨"a.mid"⟩, jumps, .fourFour, none⟩ with playing := true }

/-- Both bars are reached by one report. -/
theorem jump_at_later_report_leap :
    let t := leap [⟨2, 5⟩, ⟨3, 1⟩]
    t.pending = none ∧ 2000 < 4000 ∧
      t.Reported ⟨0, 480⟩ 2000 (some ⟨2, 5⟩) (t.fileTick 2000 ⟨0, 480⟩) ∧ InBarOrder t.jumps ∧
      t.fileTick 4000 ⟨0, 480⟩ = t.fileTick 2000 ⟨0, 480⟩ := by
  intro t
  have hreported : t.Reported ⟨0, 480⟩ 2000 (some ⟨2, 5⟩) (t.fileTick 2000 ⟨0, 480⟩) :=
    reported_jump rfl (fun _ hseek => nomatch hseek.1) (by decide +kernel)
  have hordered : InBarOrder t.jumps := by
    show [⟨2, 5⟩, ⟨3, 1⟩].Pairwise fun a b : Jump => a.source ≤ b.source
    decide
  obtain ⟨-, _, _, -, -, -, -, hinOrder⟩ :=
    jump_at_later_report rfl (show 2000 < 4000 by decide) hreported
  exact ⟨rfl, by decide, hreported, hordered, (hinOrder hordered).1⟩

/-- The playhead comes to the second bar first, and yet the jump of the third is taken. -/
theorem nearer_jump_is_passed :
    let t := leap [⟨3, 1⟩, ⟨2, 5⟩]
    t.pending = none ∧ t.lastTick ≤ 2000 ∧
      t.Reported ⟨0, 480⟩ 2000 (some ⟨2, 5⟩) (t.fileTick 2000 ⟨0, 480⟩) ∧
      t.Reported ⟨0, 480⟩ 4000 (some ⟨3, 1⟩) (t.fileTick 4000 ⟨0, 480⟩) ∧
      (t.fileTick 2000 ⟨0, 480⟩).1.lastTick = 7680 ∧
      (t.fileTick 4000 ⟨0, 480⟩).1.lastTick = 0 := by
  intro t
  have hidle : ∀ now target, ¬ t.Seeks ⟨0, 480⟩ now target := fun _ _ hseek => nomatch hseek.1
  exact ⟨rfl, Nat.zero_le _, reported_jump rfl (hidle _) (by decide +kernel),
    reported_jump rfl (hidle _) (by decide +kernel), by decide +kernel, by decide +kernel⟩

end Track

end MidiRig
