import MidiRig.Proofs.Player.Keys
import MidiRig.Proofs.Stage.Life

/-!
# What a step strikes

The events of a step, told from what a sequence or an arpeggio is given: the cells of the pattern
voice by voice (`Pattern.struck`), or the keys that are held in the order of the style
(`Arpeggio.Strikes`), each as loud as the groove has it at that step (`Event.struck`). A sequence
queues these (`Sequence.stepEvents_eq`), and so does an arpeggio all its life
(`Arpeggio.Tuned.strikes`).
-/

namespace MidiRig

/-! ## Accents -/

/-- The event with its value times the accent of the step; the groove goes round. A note gets a
whole velocity. -/
def Event.struck (groove : List Float) (step : ℕ) (e : Event) : Event :=
  let value := e.value * groove.getD (step % groove.length) 1.0
  { e with
    value := if e.kind = .note then Binary64.clamp 0.0 127.0 (Binary64.round value) else value }

/-! ## Patterns -/

/-- Of each voice the event at the step, unless it rests there or is over. -/
def Pattern.struck (p : Pattern) (groove : List Float) (step : ℕ) : List Event :=
  p.flatMap fun (voice : Voice) =>
    match voice[step]? with
    | some (.event e) => [e.struck groove step]
    | _ => []

theorem Pattern.map_eventsAt (p : Pattern) (groove : List Float) (step : ℕ) :
    (p.eventsAt step).map (Event.struck groove step) = p.struck groove step := by
  unfold eventsAt Pattern.struck
  induction p with
  | nil => rfl
  | cons voice rest ih =>
    rw [List.filterMap_cons, List.flatMap_cons, ← ih]
    cases voice[step]? with
    | none => rfl
    | some c => cases c <;> rfl

/-- A pattern goes on as long as one of its voices does. -/
theorem Pattern.lt_length_iff {p : Pattern} {n : ℕ} :
    n < p.length ↔ ∃ voice ∈ p, n < voice.length := by
  have hfold : ∀ (lengths : List ℕ) (least : ℕ),
      n < lengths.foldl max least ↔ n < least ∨ ∃ l ∈ lengths, n < l := by
    intro lengths
    induction lengths with
    | nil => simp
    | cons l rest ih =>
      intro least
      have hmax : n < max least l ↔ n < least ∨ n < l := by omega
      rw [List.foldl_cons, ih, hmax, List.exists_mem_cons_iff, or_assoc]
  unfold length
  rw [hfold]
  simp

theorem Sequence.stepEvents_eq (s : Sequence) :
    s.stepEvents = s.pattern.struck s.stepping.groove s.step :=
  s.pattern.map_eventsAt s.stepping.groove s.step

/-! ## Keys -/

namespace Arpeggio

/-- A chord strikes all the keys that are held, in the order of the style, and another style one of
them after the other. -/
def Strikes (a : Arpeggio) (step : ℕ) (events : List Event) : Prop :=
  ∃ keys, keys ≠ [] ∧ Arranged a.held keys a.style ∧
    events = (if a.style = .chord then keys else (keys[step % keys.length]?).toList).map
      (Event.struck a.stepping.groove step)

variable {events held : List Event} {style : ArpeggioStyle} {a : Arpeggio}

theorem Holds.isKeyDown (h : Holds events held) {key : Event} (hkey : key ∈ held) :
    key.isKeyDown = true := by
  have hmem : key ∈ held.filter (Event.about key.channel key.number) :=
    List.mem_filter.mpr ⟨hkey, about_self key⟩
  rw [h.latest, Option.mem_toList, Option.filter_eq_some_iff] at hmem
  exact hmem.2

theorem mem_of_mem_arrange {key : Event} (h : key ∈ style.arrange held) : key ∈ held := by
  have hup : ∀ {k : Event}, k ∈ ArpeggioStyle.upward held → k ∈ held :=
    fun hk => (List.mergeSort_perm held ArpeggioStyle.below).mem_iff.mp hk
  cases style with
  | up => exact hup h
  | chord => exact hup h
  | down => exact hup (List.mem_reverse.mp h)
  | both =>
    rcases List.mem_append.mp h with h | h
    · exact hup h
    · have hinner := (List.dropLast_sublist _).subset (List.mem_reverse.mp h)
      exact hup ((List.tail_sublist _).subset hinner)
  | manual => exact h

theorem Tuned.kind (h : Tuned style events a) {key : Event} (hkey : key ∈ a.notes) :
    key.kind = .note := by
  rw [h.notes] at hkey
  have hdown := h.held.isKeyDown (mem_of_mem_arrange hkey)
  unfold Event.isKeyDown at hdown
  simp only [Bool.and_eq_true, decide_eq_true_eq] at hdown
  exact hdown.1

/-- What a step of an arpeggio queues is what it strikes. -/
theorem Tuned.strikes (h : Tuned style events a) (hnotes : a.notes ≠ []) (step : ℕ) :
    a.Strikes step (stepEvents { a with step }) := by
  refine ⟨a.notes, hnotes, ?_, ?_⟩
  · rw [h.kept, h.notes]
    exact arranged_arrange style a.held
  · unfold stepEvents stepKeys
    refine List.map_congr_left fun key hkey => ?_
    have hnote : key ∈ a.notes := by
      split at hkey
      · exact hkey
      · exact List.mem_of_getElem? (Option.mem_toList.mp hkey)
    show key.withValue _ = key.withValue (if key.kind = .note then _ else _)
    rw [if_pos (h.kind hnote)]
    rfl

/-- The notes are those that the held keys give. -/
def InTune (a : Arpeggio) : Prop := ∃ style events, Tuned style events a

theorem inTune_respond (h : a.InTune) (m : Moment) (c : Call) : (a.respond m c).1.InTune := by
  obtain ⟨style, events, h⟩ := h
  exact ⟨style, _, h.respond m c⟩

end Arpeggio

/-- An arpeggio stays in tune all its life. -/
theorem Life.inTune {r : Conduct} {d : PlayerDef} {busy : Bool} {now : ℕ} {p : Part}
    {played : List Played} (h : Life r d busy now p played) :
    ∀ player, p.player = some player → ∀ a, player = .arpeggio a → a.InTune := by
  refine h.keep (P := fun _ player => ∀ a, player = .arpeggio a → a.InTune) ?_ ?_ ?_
  · intro _ config rate _ a ha
    cases d with
    | arpeggio d =>
      cases ha
      exact ⟨d.style, _, Arpeggio.tuned_after d config rate []⟩
    | _ => cases ha
  · exact fun _ _ _ _ h => h
  · intro player m c h a ha
    cases player with
    | arpeggio b =>
      cases ha
      exact Arpeggio.inTune_respond (h b rfl) m c
    | _ => cases ha

end MidiRig
