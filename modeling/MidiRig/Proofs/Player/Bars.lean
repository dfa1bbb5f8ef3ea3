import MidiRig.Proofs.Number.Order
import MidiRig.Proofs.Number.Relative
import MidiRig.Proofs.Player.Seeks
import MidiRig.Setup.Definition

/-!
# Where bars start

The length of a bar is computed in doubles and rounded to ticks, and a bar starts at a multiple of
it. A time signature whose note value is a number gives bars within a tick of their exact length
(`Track.abs_barLength_sub_le`), and none of the bars that a track is ever sent to starts out of
reach (`Deck.bars_reachable`). A note value of zero is not refused, though, and then a bar is as long as
positions go (`Deck.third_bar_is_out_of_reach`).
-/

namespace MidiRig

open Binary64

/-! ## Lengths -/

namespace Meter

variable {μ : Meter}

/-- A time signature whose numbers are written with a few digits. -/
structure Small (μ : Meter) : Prop where
  numerator : μ.numerator < 2 ^ 12
  denominator : μ.denominator < 2 ^ 12

theorem Small.approximates_beatsPerBar (h : μ.Small) (hpos : 0 < μ.denominator) :
    Approximates μ.beatsPerBar 2 (μ.numerator * (4 / μ.denominator)) := by
  obtain ⟨hnum, hden⟩ := h
  have hquarters : Approximates (4.0 / Float.ofNat μ.denominator) 1 ((4 : ℕ) / μ.denominator) :=
    (approximates_literal 4 (by norm_num)).div (has_natCast (by omega)) (by norm_num)
      (Nat.cast_nonneg 4) (Nat.cast_pos.mpr hpos) (reachable_div (by norm_num) (by omega) hpos)
  have hreach : Reachable (μ.numerator * ((4 : ℕ) / μ.denominator)) := by
    rw [← mul_div_assoc, ← Nat.cast_mul]
    exact reachable_div (by omega) (by omega) hpos
  exact (has_natCast (by omega)).approximates.mul hquarters (by norm_num) (Nat.cast_nonneg _)
    (by positivity) hreach

/-- A bar of notes of no length lasts for ever, unless it has none of them. -/
theorem beatsPerBar_of_zero (hzero : μ.denominator = 0) (hnum : μ.numerator < 2 ^ 12) :
    if μ.numerator = 0 then μ.beatsPerBar.isNaN = true else Binary64.IsTop μ.beatsPerBar := by
  have htop : Binary64.IsTop (4.0 / Float.ofNat 0) := by
    have hparts : parts (4.0 / Float.ofNat 0) = .infinite false := by decide +kernel
    rw [Binary64.IsTop, unpack_eq_parts, hparts]
    rfl
  have hhas : Has (Float.ofNat μ.numerator) μ.numerator := has_natCast (by omega)
  unfold beatsPerBar
  rw [hzero]
  split
  · next h =>
    rw [h, Nat.cast_zero] at hhas
    rw [h, isNaN_iff]
    exact (mul_top_of_zero hhas htop).1
  · next h => exact htop.top_mul hhas (Nat.cast_pos.mpr (Nat.pos_of_ne_zero h))

end Meter

namespace Track

variable {μ : Meter} {resolution : ℕ}

theorem exact_le (hμ : μ.Small) (hpos : 0 < μ.denominator) (hmost : resolution ≤ 2 ^ 16) :
    (resolution : ℚ) * μ.numerator * 4 / μ.denominator ≤ 2 ^ 30 := by
  have hone : (1 : ℚ) ≤ μ.denominator := by exact_mod_cast hpos
  have hticks : resolution * μ.numerator * 4 ≤ 2 ^ 16 * 2 ^ 12 * 4 :=
    Nat.mul_le_mul_right 4 (Nat.mul_le_mul hmost hμ.numerator.le)
  calc (resolution : ℚ) * μ.numerator * 4 / μ.denominator
      ≤ resolution * μ.numerator * 4 := div_le_self (by positivity) hone
    _ ≤ 2 ^ 16 * 2 ^ 12 * 4 := by exact_mod_cast hticks
    _ = 2 ^ 30 := by norm_num

/-- A bar is as long as its notes, up to a tick. -/
theorem abs_barLength_sub_le (hμ : μ.Small) (hpos : 0 < μ.denominator)
    (hmost : resolution ≤ 2 ^ 16) :
    |(barLength μ resolution : ℚ) - resolution * μ.numerator * 4 / μ.denominator| ≤ 1 := by
  obtain ⟨hnum, hden⟩ := hμ
  set exact : ℚ := resolution * μ.numerator * 4 / μ.denominator with hexact
  have hproduct : (resolution : ℚ) * (μ.numerator * (4 / μ.denominator)) = exact := by
    rw [hexact]
    ring
  have hnonneg : 0 ≤ exact := by positivity
  have hlarge : exact ≤ 2 ^ 30 := exact_le ⟨hnum, hden⟩ hpos hmost
  have happrox : Approximates (Float.ofNat resolution * μ.beatsPerBar) 3 exact := by
    rw [← hproduct]
    refine (has_natCast (by omega)).approximates.mul
      (Meter.Small.approximates_beatsPerBar ⟨hnum, hden⟩ hpos) (by norm_num) (Nat.cast_nonneg _)
      (by positivity) ?_
    have hquotient : (resolution : ℚ) * (μ.numerator * (4 / μ.denominator)) =
        (resolution * μ.numerator * 4 : ℕ) / μ.denominator := by
      push_cast
      ring
    have hticks : resolution * μ.numerator ≤ 2 ^ 16 * 2 ^ 12 := Nat.mul_le_mul hmost hnum.le
    rw [hquotient]
    exact reachable_div (by omega) (by omega) hpos
  obtain ⟨hbelow, habove⟩ := abs_le.mp
    (happrox.abs_toWord64_round_sub_le (by norm_num) hnonneg (by linarith))
  unfold barLength
  generalize toWord64 (round (Float.ofNat resolution * μ.beatsPerBar)) = ticks at hbelow habove ⊢
  rw [abs_le]
  rcases Nat.eq_zero_or_pos ticks with rfl | hticks
  · norm_num at hbelow habove ⊢
    constructor <;> linarith
  · rw [max_eq_left hticks]
    constructor <;> linarith

theorem barLength_of_zero (hzero : μ.denominator = 0) (hnum : μ.numerator < 2 ^ 12)
    (hpos : 0 < resolution) (hmost : resolution ≤ 2 ^ 16) :
    barLength μ resolution = if μ.numerator = 0 then 1 else 2 ^ 64 - 1 := by
  have hbeats := Meter.beatsPerBar_of_zero hzero hnum
  have hhas : Has (Float.ofNat resolution) resolution := has_natCast (by omega)
  unfold barLength
  split_ifs with h
  · rw [if_pos h] at hbeats
    rw [toWord64_round_nan (isNaN_iff.mp (isNaN_mul_of_isNaN hbeats))]
    rfl
  · rw [if_neg h] at hbeats
    rw [(hbeats.top_mul hhas (Nat.cast_pos.mpr hpos)).toWord64_round]
    rfl

/-! ## Bars that a track is sent to -/

/-- The bars that a track may go to or be sent away from. -/
def bars (t : Track) : List Nat :=
  t.pending.toList ++ t.jumps.flatMap fun jump => [jump.source, jump.target]

variable {t : Track} {m : Moment} {c : Call} {b bar position : Nat} {actions : List Action}

theorem mem_bars : b ∈ t.bars ↔
    t.pending = some b ∨ ∃ jump ∈ t.jumps, b = jump.source ∨ b = jump.target := by
  simp [bars]

theorem bars_stop_subset : t.stop.1.bars ⊆ t.bars := by
  unfold stop
  split
  · exact List.subset_append_right ..
  · exact List.Subset.refl _

/-- A call adds no bar but the one that it asks for. -/
theorem bars_respond (h : b ∈ (t.respond m c).1.bars) :
    b ∈ t.bars ∨ ∃ bar, c = .seek bar ∧ b = max bar 1 := by
  cases c with
  | play loops =>
    refine .inl ?_
    change b ∈ (t.play loops).1.bars at h
    unfold play at h
    split at h
    · exact bars_stop_subset h
    · exact h
  | tempo bpm =>
    refine .inl ?_
    change b ∈ (t.setTempo bpm).1.bars at h
    unfold setTempo at h
    split at h <;> exact h
  | seek bar =>
    rcases mem_bars.mp h with h | h
    · exact .inr ⟨bar, rfl, (Option.some.inj h).symm⟩
    · exact .inl (mem_bars.mpr (.inr h))
  | fileTick now =>
    refine .inl ?_
    change b ∈ (t.fileTick now m).1.bars at h
    obtain ⟨jump, hreported⟩ := t.reported_fileTick m now
    generalize t.fileTick now m = answer at h hreported
    cases hreported with
    | silent => exact h
    | seeks => exact List.mem_append_right _ h
    | jumps =>
      split at h
      · exact bars_stop_subset h
      · exact h
    | goes => exact h
  | dismiss => exact .inl (bars_stop_subset h)
  | _ => exact .inl h

/-- The file is sent to the starts of such bars alone. -/
theorem exists_bar_of_fileSeek (h : .fileSeek position ∈ (t.respond m c).2) :
    ∃ b ∈ t.bars, position = barStart (t.bar m) b := by
  have hstop : .fileSeek position ∉ t.stop.2 := by
    unfold stop
    split <;> simp
  cases c with
  | play loops =>
    change .fileSeek position ∈ (t.play loops).2 at h
    unfold play at h
    split at h
    · exact absurd h hstop
    · cases htempo : t.tempo <;> simp [htempo] at h
  | tempo bpm =>
    change .fileSeek position ∈ (t.setTempo bpm).2 at h
    unfold setTempo at h
    split at h <;> simp at h
  | fileTick now =>
    change .fileSeek position ∈ (t.fileTick now m).2 at h
    obtain ⟨jump, hreported⟩ := t.reported_fileTick m now
    generalize t.fileTick now m = answer at h hreported
    cases hreported with
    | silent => cases h
    | seeks _ hseek =>
      exact ⟨_, mem_bars.mpr (.inl hseek.1), Action.fileSeek.inj (List.mem_singleton.mp h)⟩
    | jumps _ _ hjump =>
      split at h
      · exact absurd h hstop
      · have hmem := (jump?_eq_some hjump).1
        exact ⟨_, mem_bars.mpr (.inr ⟨_, hmem, .inr rfl⟩),
          Action.fileSeek.inj (List.mem_singleton.mp h)⟩
    | goes => cases h
  | dismiss => exact absurd h hstop
  | _ => cases h

/-- Within the first few thousand bars everything is in reach. -/
theorem barStart_lt (hμ : μ.Small) (hpos : 0 < μ.denominator) (hmost : resolution ≤ 2 ^ 16)
    (hb : b < 2 ^ 12) : barStart (barLength μ resolution) b < 2 ^ 64 := by
  have hnear := (abs_le.mp (abs_barLength_sub_le hμ hpos hmost)).2
  have hexact : (resolution : ℚ) * μ.numerator * 4 / μ.denominator ≤ 2 ^ 30 :=
    exact_le hμ hpos hmost
  have hlength : barLength μ resolution ≤ 2 ^ 31 := by
    have hcast : (barLength μ resolution : ℚ) ≤ 2 ^ 31 := by linarith
    exact_mod_cast hcast
  calc (b - 1) * barLength μ resolution ≤ 2 ^ 12 * 2 ^ 31 := Nat.mul_le_mul (by omega) hlength
    _ < 2 ^ 64 := by norm_num

end Track

namespace Deck

/-- All bars that a track comes to know of are in its definition or have been asked for. -/
theorem mem_bars_after {d : TrackDef} {u : Transport} {uses : List DeckUse} {b : Nat}
    (h : b ∈ (after d u uses).track.bars) :
    (∃ jump ∈ d.jumps, b = jump.source ∨ b = jump.target) ∨
      ∃ m bar, .call m (.seek bar) ∈ uses ∧ b = max bar 1 := by
  induction uses using List.reverseRecOn generalizing b with
  | nil =>
    rcases Track.mem_bars.mp h with h | h
    · cases h
    · exact .inl h
  | append_singleton uses use ih =>
    have hbefore : b ∈ (after d u uses).track.bars →
        (∃ jump ∈ d.jumps, b = jump.source ∨ b = jump.target) ∨
          ∃ m bar, .call m (.seek bar) ∈ uses ++ [use] ∧ b = max bar 1 := fun h =>
      (ih h).imp_right fun ⟨m, bar, hmem, hb⟩ => ⟨m, bar, List.mem_append_left _ hmem, hb⟩
    unfold after at h
    rw [List.foldl_append] at h
    cases use with
    | rest position => exact hbefore h
    | call m c =>
      rcases Track.bars_respond h with h | ⟨bar, rfl, hb⟩
      · exact hbefore h
      · exact .inr ⟨m, bar, by simp, hb⟩

/-- Whether a definition is accepted does not depend on its time signature. Bars are at least a tick
long. Where the note value is a number they are as long as their notes, up to a tick, and every bar
that the track is ever sent to or from starts in reach. Where it is zero only the first two bars do,
unless there are no notes in a bar. -/
theorem bars_reachable (d : TrackDef) (u : Transport) (uses : List DeckUse) (m : Moment)
    (hmeter : d.meter.Small)
    (hjumps : ∀ jump ∈ d.jumps, jump.source < 2 ^ 12 ∧ jump.target < 2 ^ 12)
    (hseeks : ∀ m bar, .call m (.seek bar) ∈ uses → bar < 2 ^ 12)
    (hpos : 0 < m.resolution) (hmost : m.resolution ≤ 2 ^ 16) :
    let t := (after d u uses).track
    let length := t.bar m
    (∀ μ, ({ d with meter := μ } : TrackDef).problem? = d.problem?) ∧ 1 ≤ length ∧
      (d.meter.denominator ≠ 0 →
        |(length : ℚ) - m.resolution * d.meter.numerator * 4 / d.meter.denominator| ≤ 1 ∧
          (∀ bar ∈ t.bars, Track.barStart length bar < 2 ^ 64) ∧
          ∀ c position, .fileSeek position ∈ (t.respond m c).2 → position < 2 ^ 64) ∧
      (d.meter.denominator = 0 →
        length = (if d.meter.numerator = 0 then 1 else 2 ^ 64 - 1) ∧
          (d.meter.numerator ≠ 0 → ∀ bar, Track.barStart length bar < 2 ^ 64 ↔ bar ≤ 2)) := by
  intro t length
  have hlength : length = Track.barLength d.meter m.resolution :=
    congrArg (Track.barLength · m.resolution) (Prod.mk.inj (score_after d u uses)).2
  refine ⟨fun _ => rfl, t.bar_pos m, fun hvalue => ?_, fun hzero => ?_⟩
  · have hvalue : 0 < d.meter.denominator := Nat.pos_of_ne_zero hvalue
    have hstart : ∀ bar ∈ t.bars, Track.barStart length bar < 2 ^ 64 := by
      intro bar hbar
      rw [hlength]
      refine Track.barStart_lt hmeter hvalue hmost ?_
      rcases mem_bars_after hbar with ⟨jump, hmem, hb⟩ | ⟨m, asked, hmem, hb⟩
      · have := hjumps jump hmem
        omega
      · have := hseeks m asked hmem
        omega
    refine ⟨?_, hstart, fun c position hseek => ?_⟩
    · rw [hlength]
      exact Track.abs_barLength_sub_le hmeter hvalue hmost
    · obtain ⟨bar, hbar, rfl⟩ := Track.exists_bar_of_fileSeek hseek
      exact hstart bar hbar
  · have hbar := Track.barLength_of_zero hzero hmeter.numerator hpos hmost
    rw [← hlength] at hbar
    refine ⟨hbar, fun hnum bar => ?_⟩
    rw [hbar, if_neg hnum, Track.barStart]
    omega

/-- Four quarters to a bar, and a jump back from the third bar. -/
def ballad : TrackDef := ⟨⟨"a.mid"⟩, [⟨3, 2⟩], .fourFour, none⟩

/-- A seek waits while the jump leads back. -/
theorem bars_reachable_ballad :
    let t := (after ballad .idle [.call ⟨0, 96⟩ (.play 1.0), .call ⟨0, 96⟩ (.seek 4000)]).track
    (ballad.meter.numerator = 4 ∧ ballad.meter.denominator = 4 ∧ 4000 ∈ t.bars) ∧
      Track.barStart (t.bar ⟨0, 96⟩) 4000 < 2 ^ 64 := by
  intro t
  have hbar : 4000 ∈ t.bars := by decide +kernel
  refine ⟨⟨rfl, rfl, hbar⟩, ?_⟩
  have h := bars_reachable ballad .idle
    [.call ⟨0, 96⟩ (.play 1.0), .call ⟨0, 96⟩ (.seek 4000)] ⟨0, 96⟩
    ⟨by decide, by decide⟩ (by decide) (by simp) (by decide) (by decide)
  exact (h.2.2.1 (by decide)).2.1 4000 hbar

/-- A file in bars of four notes of no length, as it is read. -/
def endless : Value :=
  .table [("type", .text "midifile"), ("file", .text "a.mid"),
    ("time_signature", .table [("numerator", .int 4), ("denominator", .int 0)])]

/-- It is accepted, and its third bar starts beyond all positions. -/
theorem third_bar_is_out_of_reach :
    ∃ d : TrackDef, PlayerDef.ofValue? endless = some (.track d) ∧
      (PlayerDef.track d).validate "bed" = .ok () ∧ d.meter.denominator = 0 ∧
      (let t := (after d .idle [.call ⟨0, 480⟩ (.play 1.0), .call ⟨0, 480⟩ (.seek 3)]).track
       3 ∈ t.bars ∧ 2 ^ 64 ≤ Track.barStart (t.bar ⟨0, 480⟩) 3) := by
  refine ⟨⟨⟨"a.mid"⟩, [], ⟨4, 0⟩, none⟩, by rfl, by rfl, rfl, ?_⟩
  decide +kernel

end Deck

end MidiRig
