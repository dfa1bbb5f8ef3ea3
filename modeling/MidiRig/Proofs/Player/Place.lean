import MidiRig.Proofs.Player.Order
import MidiRig.Proofs.Player.Pass

/-!
# The place in a pass

Where the tick rate is neither next to nothing nor next to infinity and the clock stays below
`2 ^ 50` ticks, the length of a loop is a positive number whatever has happened to the loop
(`Life.sized`), and the beat at which it finds itself is rounded to the tick at which it is
(`Loop.Regular.place`). So the entries before that beat are due by now, and those from it on are not
due before now (`Loop.Regular.due_le_of_lt`, `Loop.Regular.le_due_of_not_lt`); in the timeline
the one come before the other (`Loop.Regular.drop_countBefore`).
-/

namespace MidiRig

open Binary64

/-! ## Lengths -/

namespace Loop

variable {l k : Loop} {m : Moment} {now later : ℕ}

/-- A length is a positive number, as far as beats can be told from ticks. -/
structure Sized (l : Loop) (now : ℕ) : Prop where
  tempo : l.tempo.Forward
  fixed : ∀ b, l.fixedBeats = some b → ∃ q, Has b q ∧ 0 < q
  beats : l.tempo.Moderate → now < 2 ^ 50 → ∀ b, l.beats = some b → ∃ q, Has b q ∧ 0 < q

theorem Sized.mono (h : l.Sized now) (hle : now ≤ later) : l.Sized later :=
  ⟨h.tempo, h.fixed, fun htempo hlater => h.beats htempo (by omega)⟩

theorem Sized.edit (h : l.Sized m.now) (hedit : Edit m l k) : k.Sized m.now := by
  cases hedit with
  | tempo bpm =>
    exact ⟨h.tempo.setBpm bpm, h.fixed, fun htempo => h.beats (htempo.of_setBpm h.tempo)⟩
  | measures hpassed =>
    refine ⟨h.tempo, h.fixed, fun htempo hnow => ?_⟩
    rintro _ ⟨⟩
    obtain ⟨τ, hτ, -⟩ := htempo.ticksPerBeat
    obtain ⟨e, he, -⟩ := htempo.roundTicks_toBeats (show m.now - l.passStart < 2 ^ 50 by omega)
      (has_natCast (by omega)) hτ
    exact ⟨e, he, (has_zero.lt_iff he).mp hpassed⟩
  | forgets => exact ⟨h.tempo, h.fixed, fun _ _ => h.fixed⟩
  | _ => exact ⟨h.tempo, h.fixed, h.beats⟩

theorem sized_make {d : LoopDef} (hd : d.problem? = none) (config : SequencerConfig)
    (rate : Float) (now : ℕ) : (make d config rate).Sized now :=
  ⟨Tempo.forward_of _ _, fun _ => LoopDef.length_pos hd, fun _ _ _ => LoopDef.length_pos hd⟩

theorem Sized.respond (h : l.Sized m.now) (c : Call) : (l.respond m c).1.Sized m.now :=
  (edits_respond l c).keep (fun _ _ hedit hl => Sized.edit hl hedit) h

end Loop

/-- For a loop, that its length is a number. -/
def Player.Sized (now : ℕ) : Player → Prop
  | loop l => l.Sized now
  | _ => True

/-- Whatever happens to a player. -/
theorem Life.sized {r : Conduct} {d : PlayerDef} {busy : Bool} {now : ℕ} {p : Part}
    {played : List Played} (h : Life r d busy now p played) :
    ∀ player, p.player = some player → player.Sized now := by
  refine h.keep (fun now config rate hvalid => ?_) (fun now later p hle hp => ?_) fun p m c hp => ?_
  · cases d with
    | loop d => exact Loop.sized_make hvalid config rate now
    | _ => trivial
  · cases p with
    | loop l => exact Loop.Sized.mono hp hle
    | _ => trivial
  · cases p with
    | loop l => exact Loop.Sized.respond hp c
    | _ => trivial

/-! ## Places -/

theorem Layer.take_countBefore (layer : Layer) (beat : Float) :
    layer.take (layer.countBefore beat) = layer.takeWhile fun x => x.1 < beat :=
  (List.prefix_iff_eq_take.mp (List.takeWhile_prefix _)).symm

theorem Layer.drop_countBefore {layer : Layer} {beat : Float}
    (h : layer.Pairwise fun x y => y.1 < beat → x.1 < beat) :
    layer.drop (layer.countBefore beat) = layer.filter fun x => !(x.1 < beat) := by
  induction layer with
  | nil => rfl
  | cons x rest ih =>
    obtain ⟨hfirst, hrest⟩ := List.pairwise_cons.mp h
    by_cases hx : x.1 < beat
    · have hcount : countBefore (x :: rest) beat = countBefore rest beat + 1 := by
        simp [countBefore, hx]
      rw [hcount, List.drop_succ_cons, ih hrest, List.filter_cons_of_neg (by simpa using hx)]
    · have hnone : ∀ y ∈ x :: rest, ¬ y.1 < beat := by
        intro y hy
        rcases List.mem_cons.mp hy with rfl | hy
        · exact hx
        · exact fun hlt => hx (hfirst y hy hlt)
      have hcount : countBefore (x :: rest) beat = 0 := by simp [countBefore, hx]
      rw [hcount, List.drop_zero, List.filter_eq_self.mpr fun y hy => by simpa using hnone y hy]

namespace Loop

variable {l k : Loop} {beats : Float} {length now : ℕ} {x : Float × Event}

/-- A loop with a length and with an ordinary tempo, all of whose beats lie within the length. -/
structure Regular (l : Loop) (beats : Float) (length : ℕ) : Prop where
  ordered : l.Ordered
  tempo : l.tempo.Moderate
  known : l.beats = some beats
  sized : ∃ q, Has beats q ∧ 0 < q
  fits : l.Fits beats
  length : l.passTicks? = some length

theorem Regular.of_same (h : l.Regular beats length) (htempo : k.tempo = l.tempo)
    (hbeats : k.beats = l.beats) (htimeline : k.timeline = l.timeline) :
    k.Regular beats length := by
  have hlength : k.passTicks? = l.passTicks? := by
    unfold passTicks?
    rw [hbeats, htempo]
  refine ⟨⟨htimeline ▸ h.ordered.timeline, htempo ▸ h.ordered.tempo⟩, htempo ▸ h.tempo,
    hbeats.trans h.known, h.sized, ?_, hlength.trans h.length⟩
  intro x hx
  exact h.fits x (htimeline ▸ hx)

/-- The beat of a tick is at the tick. -/
theorem Regular.place (h : l.Regular beats length) (hnow : now < 2 ^ 50)
    (hstart : l.passStart ≤ now) (hend : now < l.passStart + length) :
    ∃ e, Has (l.beatAt now) e ∧ 0 ≤ e ∧ l.tempo.roundTicks (l.beatAt now) = now - l.passStart ∧
      ∀ τ, Has l.tempo.ticksPerBeat τ → |e * τ - (now - l.passStart : ℕ)| ≤ 1 / 4 := by
  obtain ⟨τ, hτ, -⟩ := h.tempo.ticksPerBeat
  obtain ⟨d, hd, -, hbehind, -⟩ :=
    has_elapsed (show now < 2 ^ 53 by omega) (show l.passStart ≤ 2 ^ 200 by omega)
  rw [hbehind hstart] at hd
  obtain ⟨e, he, hnonneg, hticks, hnear⟩ :=
    h.tempo.roundTicks_toBeats (show now - l.passStart < 2 ^ 50 by omega) hd hτ
  obtain ⟨_, hsame, hlength, -⟩ := passTicks?_eq h.length
  obtain rfl := Option.some.inj (h.known.symm.trans hsame)
  obtain ⟨q, hq, hpos⟩ := h.sized
  have hbefore := Tempo.lt_of_roundTicks_lt h.ordered.tempo he hq hpos.le
    (by rw [hticks, hlength]; omega)
  have hplace : Has (l.beatAt now) e := by
    unfold beatAt
    rw [h.known]
    exact he.modulo_of_lt hnonneg hbefore
  refine ⟨e, hplace, hnonneg, ?_, fun σ hσ => hσ.unique hτ ▸ hnear⟩
  rw [Tempo.roundTicks_congr h.ordered.tempo hplace he hnonneg, hticks]

/-- What lies before the place is due by now. -/
theorem Regular.due_le_of_lt (h : l.Regular beats length) (hnow : now < 2 ^ 50)
    (hstart : l.passStart ≤ now) (hend : now < l.passStart + length) (hx : x ∈ l.timeline)
    (hlt : x.1 < l.beatAt now) : l.passStart + l.tempo.roundTicks x.1 ≤ now := by
  obtain ⟨e, he, -, hticks, -⟩ := h.place hnow hstart hend
  obtain ⟨v, hv, hnonneg, -⟩ := h.fits x hx
  have hle := Tempo.roundTicks_mono h.ordered.tempo hv he hnonneg ((hv.lt_iff he).mp hlt).le
  omega

/-- So is what comes before the entry to come. -/
theorem Regular.due_le_of_mem_take (h : l.Regular beats length) (hnow : now < 2 ^ 50)
    (hstart : l.passStart ≤ now) (hend : now < l.passStart + length)
    (hx : x ∈ l.timeline.take (l.timeline.countBefore (l.beatAt now))) :
    l.passStart + l.tempo.roundTicks x.1 ≤ now := by
  rw [Layer.take_countBefore] at hx
  exact h.due_le_of_lt hnow hstart hend (List.takeWhile_subset _ hx)
    (by simpa using List.mem_takeWhile_imp hx)

/-- What lies at the place or behind it is not due before now. -/
theorem Regular.le_due_of_not_lt (h : l.Regular beats length) (hnow : now < 2 ^ 50)
    (hstart : l.passStart ≤ now) (hend : now < l.passStart + length) (hx : x ∈ l.timeline)
    (hle : ¬ x.1 < l.beatAt now) : now ≤ l.passStart + l.tempo.roundTicks x.1 := by
  obtain ⟨e, he, hnonneg, hticks, -⟩ := h.place hnow hstart hend
  obtain ⟨v, hv, -, -⟩ := h.fits x hx
  rw [hv.lt_iff he, not_lt] at hle
  have := Tempo.roundTicks_mono h.ordered.tempo he hv hnonneg hle
  omega

/-- The entries from the place on. -/
theorem Regular.drop_countBefore (h : l.Regular beats length) (hnow : now < 2 ^ 50)
    (hstart : l.passStart ≤ now) (hend : now < l.passStart + length) :
    l.timeline.drop (l.timeline.countBefore (l.beatAt now)) =
      l.timeline.filter fun x => !(x.1 < l.beatAt now) := by
  obtain ⟨e, he, -⟩ := h.place hnow hstart hend
  refine Layer.drop_countBefore (h.ordered.timeline.imp_of_mem fun {x y} hx hy hle hlt => ?_)
  obtain ⟨v, hv, hv0, -⟩ := h.fits x hx
  obtain ⟨w, hw, hw0, -⟩ := h.fits y hy
  rw [hv.lt_iff he]
  exact (hv.le_of_orderKey hw hv0 hw0 hle).trans_lt ((hw.lt_iff he).mp hlt)

/-! ## The pass in progress -/

theorem align_eq (hlength : l.passTicks? = some length) (now : ℕ) :
    l.align now = { l with passStart := (l.align now).passStart } := by
  unfold align
  rw [hlength]
  simp only
  split <;> rfl

theorem align_mem (hlength : l.passTicks? = some length) (now : ℕ) :
    (l.align now).passStart ≤ now ∧ now < (l.align now).passStart + length := by
  obtain ⟨_, -, -, hpos⟩ := passTicks?_eq hlength
  unfold align
  rw [hlength]
  simp only
  split
  · next hahead =>
    have hfloor := Nat.div_mul_le_self (l.passStart - now + (length - 1)) length
    have hceil := Nat.lt_div_mul_add (a := l.passStart - now + (length - 1)) hpos
    simp only
    omega
  · have hfloor := Nat.div_mul_le_self (now - l.passStart) length
    have hceil := Nat.lt_div_mul_add (a := now - l.passStart) hpos
    simp only
    omega

/-- Where the loop is some passes ahead, it goes back to the pass in which the tick lies. -/
theorem align_passStart (hlength : l.passTicks? = some length) {start passes : ℕ}
    (hpasses : l.passStart = start + passes * length) (hstart : start ≤ now)
    (hend : now < start + length) : (l.align now).passStart = start := by
  unfold align
  rw [hlength]
  simp only
  cases passes with
  | zero =>
    rw [Nat.zero_mul, Nat.add_zero] at hpasses
    have hwithin : (now - start) / length = 0 := Nat.div_eq_of_lt (by omega)
    rw [hpasses, if_neg (by omega), hwithin]
    simp
  | succ passes =>
    have hmore : (passes + 1 + 1) * length = (passes + 1) * length + length := Nat.succ_mul _ _
    have hleast : length ≤ (passes + 1) * length := Nat.le_mul_of_pos_left _ (Nat.succ_pos _)
    have hcount : (l.passStart - now + (length - 1)) / length = passes + 1 :=
      Nat.div_eq_of_lt_le (by omega) (by omega)
    rw [if_pos (by omega), hcount]
    simp only
    omega

/-- In a pass in progress nothing is moved. -/
theorem align_of_mem (hlength : l.passTicks? = some length) (hstart : l.passStart ≤ now)
    (hend : now < l.passStart + length) : l.align now = l := by
  have hsame := align_eq hlength now
  rw [align_passStart hlength (show l.passStart = l.passStart + 0 * length by omega) hstart hend]
    at hsame
  exact hsame

end Loop

end MidiRig
