import MidiRig.Proofs.Clock.Rounding
import MidiRig.Proofs.Number.Equal
import MidiRig.Proofs.Player.Edits
import MidiRig.Proofs.Stage.Life

/-!
# Timelines in order

A loop only ever takes its timeline from a merge of its layers, and its tempo stays in its bounds.
So whatever happens to it, the entries of its timeline are in the order of their beats, and a beat
takes no negative time (`Life.ordered`). For beats within the pass that is the order of the ticks
at which they play, all of which lie within the pass too (`Loop.Ordered.offsets`,
`Loop.Ordered.offset_le`).
-/

namespace MidiRig

open Binary64

namespace Layer

/-- In the order of the beats. -/
def Ordered (layer : Layer) : Prop := layer.Pairwise fun x y => orderKey x.1 ≤ orderKey y.1

theorem ordered_merge (layers : List Layer) : (merge layers).Ordered := by
  have htrans : ∀ a b c, beforeOrAt a b = true → beforeOrAt b c = true →
      beforeOrAt a c = true := by
    simp only [beforeOrAt, decide_eq_true_eq]
    omega
  have htotal : ∀ a b, (beforeOrAt a b || beforeOrAt b a) = true := by
    simp only [beforeOrAt, Bool.or_eq_true, decide_eq_true_eq]
    omega
  exact (List.pairwise_mergeSort htrans htotal layers.flatten).imp fun h => of_decide_eq_true h

end Layer

namespace Loop

structure Ordered (l : Loop) : Prop where
  timeline : l.timeline.Ordered
  tempo : l.tempo.Forward

variable {l k : Loop} {m : Moment}

theorem Ordered.edit (h : l.Ordered) (hedit : Edit m l k) : k.Ordered := by
  cases hedit with
  | tempo bpm => exact ⟨h.timeline, h.tempo.setBpm bpm⟩
  | merges => exact ⟨Layer.ordered_merge _, h.tempo⟩
  | _ => exact ⟨h.timeline, h.tempo⟩

theorem ordered_make (d : LoopDef) (config : SequencerConfig) (rate : Float) :
    (make d config rate).Ordered :=
  ⟨List.Pairwise.nil, Tempo.forward_of _ _⟩

theorem Ordered.respond (h : l.Ordered) (m : Moment) (c : Call) : (l.respond m c).1.Ordered :=
  (edits_respond l c).keep (fun _ _ hedit hl => Ordered.edit hl hedit) h

/-! ## Ticks of the entries -/

/-- All beats lie within a pass of this length. -/
def Fits (l : Loop) (beats : Float) : Prop :=
  ∀ x ∈ l.timeline, ∃ v, Has x.1 v ∧ 0 ≤ v ∧ AtLeast beats v

/-- Entries play in the order in which they are. -/
theorem Ordered.offsets (h : l.Ordered) {beats : Float} (hfits : l.Fits beats) :
    l.timeline.Pairwise fun x y => l.tempo.roundTicks x.1 ≤ l.tempo.roundTicks y.1 := by
  refine h.timeline.imp_of_mem fun {x y} hx hy hle => ?_
  obtain ⟨v, hxv, hv, -⟩ := hfits x hx
  obtain ⟨w, hyw, hw, -⟩ := hfits y hy
  exact Tempo.roundTicks_mono h.tempo hxv hyw hv (hxv.le_of_orderKey hyw hv hw hle)

theorem passTicks?_eq {length : ℕ} (h : l.passTicks? = some length) :
    ∃ beats, l.beats = some beats ∧ l.tempo.roundTicks beats = length ∧ 0 < length := by
  obtain ⟨beats, hbeats, hlength⟩ := Option.bind_eq_some_iff.mp h
  simp only at hlength
  split at hlength
  · next hpos =>
    cases hlength
    exact ⟨beats, hbeats, rfl, hpos⟩
  · cases hlength

/-- No entry plays after the end of the pass. -/
theorem Ordered.offset_le (h : l.Ordered) {beats : Float} (hbeats : l.beats = some beats)
    (hfits : l.Fits beats) {length : ℕ} (hlength : l.passTicks? = some length) :
    ∀ x ∈ l.timeline, l.tempo.roundTicks x.1 ≤ length := by
  obtain ⟨_, hsame, rfl, hpos⟩ := passTicks?_eq hlength
  obtain rfl := Option.some.inj (hbeats.symm.trans hsame)
  intro x hx
  obtain ⟨v, hxv, hv, hle⟩ := hfits x hx
  exact Tempo.roundTicks_le h.tempo hxv hv hle hpos

end Loop

/-! ## Along a life -/

/-- For a loop, that it is in order. -/
def Player.Ordered : Player → Prop
  | loop l => l.Ordered
  | _ => True

theorem Player.ordered_make (d : PlayerDef) (config : SequencerConfig) (rate : Float) :
    (Player.make d config rate).Ordered := by
  cases d with
  | loop d => exact Loop.ordered_make d config rate
  | _ => trivial

theorem Player.Ordered.respond {p : Player} (h : p.Ordered) (m : Moment) (c : Call) :
    (p.respond m c).1.Ordered := by
  cases p with
  | loop l => exact Loop.Ordered.respond h m c
  | _ => trivial

/-- Whatever happens to a player. -/
theorem Life.ordered {r : Conduct} {d : PlayerDef} {busy : Bool} {now : ℕ} {p : Part}
    {played : List Played} (h : Life r d busy now p played) :
    ∀ player, p.player = some player → player.Ordered :=
  h.keep (P := fun _ => Player.Ordered) (fun _ config rate _ => Player.ordered_make d config rate)
    (fun _ _ _ _ hp => hp) fun _ m c hp => Player.Ordered.respond hp m c

end MidiRig
