import MidiRig.Proofs.Player.Playhead

/-!
# Seeks

A seek is asked for at any time and carried out at a bar line: by the first report that comes over
one (`Track.ReachesLine`), unless another seek has been asked for before. `Track.Waiting` tells from
what has happened which bar is still to be gone to; a track that keeps playing remembers just that
(`Track.pending_after`), so a report does what the history says (`Track.seek_at_bar_line`).
-/

namespace MidiRig.Track

/-- What happens to a track that is left playing. -/
inductive Cue where
  /-- The position is reported. -/
  | report (m : Moment) (now : Nat)
  | seek (bar : Nat)

def take (t : Track) : Cue → Track
  | .report m now => (t.fileTick now m).1
  | .seek bar => t.seek bar

def after (t : Track) (cues : List Cue) : Track := cues.foldl take t

/-- Whether there is a bar line on the way to a position. -/
def ReachesLine (t : Track) (m : Moment) (now : Nat) : Prop :=
  ∃ k, t.lastTick < k * t.bar m ∧ k * t.bar m ≤ now

/-- The bar that was asked for last, if no bar line has been reached since. -/
inductive Waiting (t : Track) : List Cue → Nat → Prop where
  | asked (cues : List Cue) (bar : Nat) : t.Waiting (cues ++ [.seek bar]) bar
  | still {cues : List Cue} {bar now : Nat} {m : Moment} (h : t.Waiting cues bar)
      (hline : ¬ (t.after cues).ReachesLine m now) : t.Waiting (cues ++ [.report m now]) bar

variable {t : Track} {cues : List Cue} {m : Moment} {now bar : Nat}

theorem after_concat (t : Track) (cues : List Cue) (cue : Cue) :
    t.after (cues ++ [cue]) = (t.after cues).take cue := List.foldl_concat ..

/-! ## Bar lines -/

theorem bar_pos (t : Track) (m : Moment) : 0 < t.bar m := Nat.le_max_right ..

theorem barStart_max (length bar : Nat) : barStart length (max bar 1) = barStart length bar := by
  unfold barStart
  rw [show max bar 1 - 1 = bar - 1 by omega]

/-- What is left over a bar line is less than the way if and only if the way comes over one. -/
theorem crossesBar_iff {length last : Nat} (hlength : 0 < length) :
    crossesBar length last now = true ↔ ∃ k, last < k * length ∧ k * length ≤ now := by
  have hsplit : now / length * length + now % length = now := Nat.div_add_mod' now length
  unfold crossesBar
  rw [decide_eq_true_iff]
  constructor
  · intro h
    exact ⟨now / length, by omega, Nat.div_mul_le_self now length⟩
  · rintro ⟨k, hlast, hnow⟩
    have hk : k * length ≤ now / length * length :=
      Nat.mul_le_mul_right length ((Nat.le_div_iff_mul_le hlength).mpr hnow)
    omega

theorem seeks_iff : t.Seeks m now bar ↔ t.pending = some bar ∧ t.ReachesLine m now := by
  rw [Seeks, crossesBar_iff (t.bar_pos m), ReachesLine]

/-- A jump is taken at a bar line. -/
theorem reachesLine_of_jump {jump : Jump}
    (h : jump? t.jumps (t.bar m) t.lastTick now = some jump) : t.ReachesLine m now :=
  ⟨jump.source - 1, (jump?_eq_some h).2⟩

/-! ## What is waiting -/

theorem waiting_seek_iff {next : Nat} : t.Waiting (cues ++ [.seek next]) bar ↔ bar = next := by
  constructor
  · generalize hall : cues ++ [.seek next] = all
    intro h
    cases h with
    | asked => cases (List.append_inj' hall rfl).2; rfl
    | still => cases (List.append_inj' hall rfl).2
  · rintro rfl
    exact .asked cues bar

theorem waiting_report_iff : t.Waiting (cues ++ [.report m now]) bar ↔
    t.Waiting cues bar ∧ ¬ (t.after cues).ReachesLine m now := by
  constructor
  · generalize hall : cues ++ [.report m now] = all
    intro h
    cases h with
    | asked => cases (List.append_inj' hall rfl).2
    | still h hline =>
      obtain ⟨rfl, hlast⟩ := List.append_inj' hall rfl
      cases hlast
      exact ⟨h, hline⟩
  · rintro ⟨h, hline⟩
    exact .still h hline

theorem not_waiting_nil : ¬ t.Waiting [] bar := by
  generalize hall : [] = all
  intro h
  cases h <;> exact absurd hall (by simp)

theorem fileTick_of_silent (h : t.playing = false) : t.fileTick now m = (t, []) := by
  simp [fileTick, h]

theorem playing_of_take {cue : Cue} (h : (t.take cue).playing = true) : t.playing = true := by
  cases cue with
  | seek bar => exact h
  | report m now =>
    cases hplaying : t.playing with
    | true => rfl
    | false =>
      rw [take, fileTick_of_silent hplaying] at h
      exact hplaying.symm.trans h

/-- A report that comes over a bar line forgets what was waiting, and no other does. -/
theorem pending_fileTick (h : (t.fileTick now m).1.playing = true) (b : Nat) :
    (t.fileTick now m).1.pending = some b ↔ t.pending = some b ∧ ¬ t.ReachesLine m now := by
  obtain ⟨jump, hreported⟩ := t.reported_fileTick m now
  generalize t.fileTick now m = answer at h hreported ⊢
  cases hreported with
  | silent hsilent => cases hsilent.symm.trans h
  | seeks _ hseek => exact iff_of_false nofun fun hb => hb.2 (seeks_iff.mp hseek).2
  | jumps _ hseek hjump =>
    have hline := reachesLine_of_jump hjump
    split at h
    · cases t.playing_stop.symm.trans h
    · next hgoes =>
      rw [if_neg hgoes]
      exact iff_of_false (fun hb => hseek b (seeks_iff.mpr ⟨hb, hline⟩)) fun hb => hb.2 hline
  | goes _ hseek _ =>
    exact ⟨fun hb => ⟨hb, fun hline => hseek b (seeks_iff.mpr ⟨hb, hline⟩)⟩, And.left⟩

/-- A track that keeps playing remembers the bar that it waits for. -/
theorem pending_after (hnew : t.pending = none) (h : (t.after cues).playing = true) (b : Nat) :
    (t.after cues).pending = some b ↔ ∃ bar, t.Waiting cues bar ∧ max bar 1 = b := by
  induction cues using List.reverseRecOn generalizing b with
  | nil => simp [after, hnew, not_waiting_nil]
  | append_singleton cues cue ih =>
    rw [after_concat] at h ⊢
    have hbefore := ih (playing_of_take h)
    cases cue with
    | seek next =>
      simp only [waiting_seek_iff, exists_eq_left]
      exact Option.some_inj
    | report m now =>
      simp only [waiting_report_iff]
      rw [take, pending_fileTick h, hbefore]
      exact ⟨fun ⟨⟨bar, hw, hb⟩, hline⟩ => ⟨bar, ⟨hw, hline⟩, hb⟩,
        fun ⟨bar, ⟨hw, hline⟩, hb⟩ => ⟨⟨bar, hw, hb⟩, hline⟩⟩

/-! ## What a report does -/

theorem fileTick_of_pending_none (hplaying : t.playing = true) (h : t.pending = none) :
    t.fileTick now m = t.follow (t.bar m) now := by
  simp only [fileTick, hplaying, h]
  rfl

theorem fileTick_of_reachesLine (hplaying : t.playing = true) (h : t.pending = some bar)
    (hline : t.ReachesLine m now) : t.fileTick now m =
      ({ t with pending := none, lastTick := barStart (t.bar m) bar },
        [.fileSeek (barStart (t.bar m) bar)]) := by
  have hcrosses : crossesBar (barLength t.meter m.resolution) t.lastTick now = true :=
    (seeks_iff.mpr ⟨h, hline⟩).2
  simp only [fileTick, hplaying, h, hcrosses]
  rfl

/-- Without a bar line there is neither a seek nor a jump. -/
theorem fileTick_of_not_reachesLine (hplaying : t.playing = true)
    (hline : ¬ t.ReachesLine m now) : t.fileTick now m = ({ t with lastTick := now }, []) := by
  obtain ⟨jump, hreported⟩ := t.reported_fileTick m now
  generalize t.fileTick now m = answer at hreported ⊢
  cases hreported with
  | silent hsilent => cases hsilent.symm.trans hplaying
  | seeks _ hseek => exact absurd (seeks_iff.mp hseek).2 hline
  | jumps _ _ hjump => exact absurd (reachesLine_of_jump hjump) hline
  | goes _ _ _ => rfl

/-- A seek is carried out by the first report after it that comes over a bar line: the transport and
the track go to the start of the bar, and nothing waits from then on. A report before that only says
where the playhead is, and leaves the seek waiting. A seek that comes first takes its place. Where
nothing waits, a report does what it does to a track that was never asked to go anywhere. -/
theorem seek_at_bar_line (hnew : t.pending = none) (hplaying : (t.after cues).playing = true)
    (m : Moment) (now : Nat) :
    let s := t.after cues
    (∀ bar, t.Waiting cues bar →
      (s.ReachesLine m now →
        s.fileTick now m =
            ({ s with pending := none, lastTick := (bar - 1) * s.bar m },
              [.fileSeek ((bar - 1) * s.bar m)]) ∧
          (∀ u : Transport,
            u.perform (s.fileTick now m).2 = { u with position := (bar - 1) * s.bar m }) ∧
          ∀ other, ¬ t.Waiting (cues ++ [.report m now]) other) ∧
      (¬ s.ReachesLine m now →
        s.fileTick now m = ({ s with lastTick := now }, []) ∧
          (∀ u : Transport, u.perform (s.fileTick now m).2 = u) ∧
          ∀ other, t.Waiting (cues ++ [.report m now]) other ↔ t.Waiting cues other) ∧
      ∀ next other, t.Waiting (cues ++ [.seek next]) other ↔ other = next) ∧
    ((∀ bar, ¬ t.Waiting cues bar) →
      s.pending = none ∧ s.fileTick now m = s.follow (s.bar m) now) := by
  intro s
  have hpending := fun b => pending_after hnew hplaying b
  refine ⟨fun bar hwaiting => ⟨fun hline => ?_, fun hline => ?_, fun _ _ => waiting_seek_iff⟩,
    fun hnone => ?_⟩
  · have hseek := fileTick_of_reachesLine hplaying ((hpending _).mpr ⟨bar, hwaiting, rfl⟩) hline
    rw [barStart_max] at hseek
    refine ⟨hseek, fun u => ?_, fun other => ?_⟩
    · rw [hseek]
      rfl
    · rw [waiting_report_iff]
      exact fun h => h.2 hline
  · have hstill : s.fileTick now m = _ := fileTick_of_not_reachesLine hplaying hline
    refine ⟨hstill, fun u => ?_, fun other => ?_⟩
    · rw [hstill]
      rfl
    · rw [waiting_report_iff]
      exact and_iff_left hline
  · have hidle : s.pending = none := by
      refine Option.eq_none_iff_forall_ne_some.mpr fun b hb => ?_
      obtain ⟨bar, hwaiting, -⟩ := (hpending b).mp hb
      exact hnone bar hwaiting
    exact ⟨hidle, fileTick_of_pending_none hplaying hidle⟩

/-- A seek in the first bar is carried out at its end. -/
theorem seek_at_bar_line_first :
    let t : Track := { make ⟨⟨"a.mid"⟩, [], .fourFour, none⟩ with playing := true }
    let cues := [.report ⟨0, 480⟩ 100, .seek 5, .report ⟨0, 480⟩ 1000]
    let s := t.after cues
    t.pending = none ∧ s.playing = true ∧ t.Waiting cues 5 ∧ s.ReachesLine ⟨0, 480⟩ 1940 ∧
      (s.fileTick 1940 ⟨0, 480⟩).2 = [.fileSeek ((5 - 1) * s.bar ⟨0, 480⟩)] ∧
      s.bar ⟨0, 480⟩ = 1920 := by
  intro t cues s
  have hbar : s.bar ⟨0, 480⟩ = 1920 := by decide +kernel
  have hwaiting : t.Waiting cues 5 := by
    have hasked : t.Waiting [.report ⟨0, 480⟩ 100, .seek 5] 5 := .asked [.report ⟨0, 480⟩ 100] 5
    refine hasked.still ?_
    rw [ReachesLine, ← crossesBar_iff (bar_pos ..)]
    decide +kernel
  have hline : s.ReachesLine ⟨0, 480⟩ 1940 := by
    refine ⟨1, ?_⟩
    rw [hbar]
    decide +kernel
  have hplaying : s.playing = true := by decide +kernel
  have hseek := (seek_at_bar_line (t := t) rfl hplaying ⟨0, 480⟩ 1940).1 5 hwaiting
  exact ⟨rfl, hplaying, hwaiting, hline, congrArg Prod.snd (hseek.1 hline).1, hbar⟩

end MidiRig.Track
