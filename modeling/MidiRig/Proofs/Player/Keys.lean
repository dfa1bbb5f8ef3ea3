import Mathlib.Data.List.DropRight
import MidiRig.Proofs.Player.Stepper

/-!
# Held keys

What an arpeggio holds is settled by the events it has been given since it last let go of all its
keys (`Call.keys`): a key is held exactly if the last event about it pressed it, and the keys stand
in the order of those presses (`Arpeggio.Holds`). The notes are the held keys as the style arranges
them (`Arpeggio.Arranged`), which leaves no choice (`Arpeggio.Arranged.eq`), and the arpeggio plays
exactly while there are any. Every call keeps this (`Arpeggio.Tuned.respond`), so every run does
(`Arpeggio.held_keys`).
-/

namespace MidiRig

/-! ## What calls say about keys -/

/-- Whether an event is about a key. -/
def Event.about (channel number : Option Int) (e : Event) : Bool :=
  e.channel == channel && e.number == number

namespace Call

/-- To play zero times and to be dismissed are to let go of every key. -/
def letsGo : Call → Bool
  | .play loops => loops == 0.0
  | .dismiss => true
  | _ => false

/-- The key that is pressed or released. -/
def key? : Call → Option Event
  | .add e => if e.kind = .note ∨ e.kind = .noteOff then some e else none
  | _ => none

/-- The presses and releases since the last call that let go of every key. -/
def keys (calls : List Call) : List Event :=
  (calls.rtakeWhile fun c => !c.letsGo).filterMap key?

theorem keys_concat (calls : List Call) (c : Call) :
    keys (calls ++ [c]) = if c.letsGo then [] else keys calls ++ c.key?.toList := by
  unfold keys
  rw [List.rtakeWhile_concat]
  cases c.letsGo with
  | true => rfl
  | false =>
    simp only [Bool.not_false, if_true, Bool.false_eq_true, if_false, List.filterMap_append]
    cases h : c.key? <;> simp [h]

end Call

namespace Arpeggio

/-! ## Which keys are held -/

/-- The last of some events about a key. -/
def latest? (events : List Event) (channel number : Option Int) : Option Event :=
  (events.filter (Event.about channel number)).getLast?

/-- How many events have come since the last one about a key. -/
def since (events : List Event) (channel number : Option Int) : Nat :=
  events.reverse.findIdx (Event.about channel number)

/-- The keys that are down after some events. -/
structure Holds (events held : List Event) : Prop where
  /-- A key is held once, by the last event about it, if that pressed it; and not otherwise. -/
  latest (channel number : Option Int) :
    held.filter (Event.about channel number) =
      ((latest? events channel number).filter Event.isKeyDown).toList
  /-- The latest press is last. -/
  ordered : held.Pairwise fun a b =>
    since events b.channel b.number < since events a.channel a.number

theorem latest?_concat (events : List Event) (e : Event) (channel number : Option Int) :
    latest? (events ++ [e]) channel number =
      if e.about channel number then some e else latest? events channel number := by
  unfold latest?
  rw [List.filter_append, List.filter_singleton]
  split <;> simp [*]

theorem since_concat (events : List Event) (e : Event) (channel number : Option Int) :
    since (events ++ [e]) channel number =
      if e.about channel number then 0 else since events channel number + 1 := by
  unfold since
  rw [List.reverse_append, List.reverse_singleton, List.singleton_append, List.findIdx_cons]
  cases e.about channel number <;> rfl

theorem holds_nil : Holds [] [] := ⟨fun _ _ => rfl, .nil⟩

variable {events held : List Event}

theorem sameKey_eq (key e : Event) : sameKey key e = e.about key.channel key.number := by
  rw [sameKey, Event.about, BEq.comm (a := key.channel), BEq.comm (a := key.number)]

theorem about_self (e : Event) : e.about e.channel e.number = true := by simp [Event.about]

/-- A press or a release replaces what is held of its key. -/
theorem filter_holdKey (held : List Event) (e : Event) (channel number : Option Int) :
    (holdKey held e).filter (Event.about channel number) =
      if e.about channel number then ((some e).filter Event.isKeyDown).toList
      else held.filter (Event.about channel number) := by
  have hothers : (held.filter fun key => !sameKey key e).filter (Event.about channel number) =
      if e.about channel number then [] else held.filter (Event.about channel number) := by
    rw [List.filter_filter]
    split
    · next habout =>
      simp only [Event.about, Bool.and_eq_true, beq_iff_eq] at habout
      rw [List.filter_eq_nil_iff]
      intro key _
      simp [sameKey, Event.about, ← habout.1, ← habout.2]
    · next habout =>
      refine List.filter_congr fun key _ => ?_
      simp only [Event.about, sameKey, Bool.and_eq_true, beq_iff_eq, not_and] at habout ⊢
      grind
  unfold holdKey
  by_cases habout : e.about channel number = true
  · cases hdown : e.isKeyDown <;> simp [hothers, habout, hdown, Option.filter]
  · cases e.isKeyDown <;> simp [hothers, habout]

theorem Holds.concat (h : Holds events held) (e : Event) :
    Holds (events ++ [e]) (holdKey held e) where
  latest channel number := by
    rw [latest?_concat, filter_holdKey]
    split
    · rfl
    · exact h.latest channel number
  ordered := by
    have hothers (key : Event) (hkey : key ∈ held.filter fun key => !sameKey key e) :
        since (events ++ [e]) key.channel key.number = since events key.channel key.number + 1 := by
      have habout : e.about key.channel key.number = false := by
        simpa [sameKey_eq] using (List.mem_filter.mp hkey).2
      rw [since_concat, habout, if_neg Bool.false_ne_true]
    have hpairs : (held.filter fun key => !sameKey key e).Pairwise fun a b =>
        since (events ++ [e]) b.channel b.number < since (events ++ [e]) a.channel a.number := by
      refine (h.ordered.filter _).imp_of_mem fun {a b} ha hb hab => ?_
      rw [hothers a ha, hothers b hb]
      exact Nat.succ_lt_succ hab
    unfold holdKey
    simp only
    split
    · refine List.pairwise_append.mpr ⟨hpairs, List.pairwise_singleton _ _, ?_⟩
      intro key hkey last hlast
      obtain rfl := List.mem_singleton.mp hlast
      rw [hothers key hkey, since_concat, if_pos (about_self last)]
      exact Nat.succ_pos _
    · exact hpairs

/-! ## How styles arrange them -/

/-- The keys by number, one without a number first; keys of one number stay as they are. -/
structure Rising (held up : List Event) : Prop where
  perm : up.Perm held
  sorted : up.Pairwise fun a b => ∀ x ∈ a.number, ∃ y ∈ b.number, x ≤ y
  stable (number : Option Int) :
    up.filter (·.number == number) = held.filter (·.number == number)

/-- The order in which a style plays the held keys. -/
def Arranged (held notes : List Event) : ArpeggioStyle → Prop
  | .up | .chord => Rising held notes
  | .down => Rising held notes.reverse
  | .both => ∃ up, Rising held up ∧ notes = up ++ up.tail.dropLast.reverse
  | .manual => notes = held

theorem below_iff (a b : Event) :
    ArpeggioStyle.below a b = true ↔ ∀ x ∈ a.number, ∃ y ∈ b.number, x ≤ y := by
  unfold ArpeggioStyle.below
  split <;> simp [*]

theorem below_trans (a b c : Event) (hab : ArpeggioStyle.below a b = true)
    (hbc : ArpeggioStyle.below b c = true) : ArpeggioStyle.below a c = true := by
  rw [below_iff] at *
  intro x hx
  obtain ⟨y, hy, hxy⟩ := hab x hx
  obtain ⟨z, hz, hyz⟩ := hbc y hy
  exact ⟨z, hz, Int.le_trans hxy hyz⟩

theorem below_total (a b : Event) :
    (ArpeggioStyle.below a b || ArpeggioStyle.below b a) = true := by
  unfold ArpeggioStyle.below
  cases a.number <;> cases b.number <;> simp [Int.le_total]

/-- Sorting keeps what is sorted already, so keys of one number stay as they are. -/
theorem rising_upward (held : List Event) : Rising held (ArpeggioStyle.upward held) := by
  have hperm : (ArpeggioStyle.upward held).Perm held := List.mergeSort_perm _ _
  refine ⟨hperm, ?_, fun number => ?_⟩
  · exact (List.pairwise_mergeSort below_trans below_total held).imp (below_iff _ _).mp
  · have hequal : (held.filter (·.number == number)).Pairwise
        fun a b => ArpeggioStyle.below a b = true := by
      refine List.pairwise_of_forall_mem_list fun a ha b hb => ?_
      obtain rfl : a.number = number := by simpa using (List.mem_filter.mp ha).2
      have hnumber : b.number = a.number := by simpa using (List.mem_filter.mp hb).2
      rw [below_iff, hnumber]
      exact fun x hx => ⟨x, hx, Int.le_refl x⟩
    have hsub : (held.filter (·.number == number)).Sublist (ArpeggioStyle.upward held) :=
      List.sublist_mergeSort below_trans below_total hequal List.filter_sublist
    have hsubsub := hsub.filter (·.number == number)
    rw [List.filter_filter] at hsubsub
    simp only [Bool.and_self] at hsubsub
    exact (hsubsub.eq_of_length (hperm.filter _).length_eq.symm).symm

theorem arranged_arrange (style : ArpeggioStyle) (held : List Event) :
    Arranged held (style.arrange held) style := by
  have hup := rising_upward held
  cases style with
  | up => exact hup
  | chord => exact hup
  | down => simpa only [Arranged, ArpeggioStyle.arrange, List.reverse_reverse] using hup
  | both => exact ⟨_, hup, rfl⟩
  | manual => rfl

/-- Keys of which neither comes after the other have one number. -/
theorem number_eq_of_le {a b : Event} (hab : ∀ x ∈ a.number, ∃ y ∈ b.number, x ≤ y)
    (hba : ∀ x ∈ b.number, ∃ y ∈ a.number, x ≤ y) : a.number = b.number := by
  cases ha : a.number with
  | none =>
    cases hb : b.number with
    | none => rfl
    | some y => simp [ha, hb] at hba
  | some x =>
    cases hb : b.number with
    | none => simp [ha, hb] at hab
    | some y =>
      simp only [ha, hb, Option.mem_some_iff, forall_eq', exists_eq_left'] at hab hba
      rw [Int.le_antisymm hab hba]

/-- Two sorted orders of the same keys begin with the same number. -/
theorem Rising.number_eq {a b : Event} {rest rest' : List Event} (h : Rising held (a :: rest))
    (h' : Rising held (b :: rest')) : a.number = b.number := by
  have hle : ∀ {a b : Event} {rest : List Event}, Rising held (a :: rest) → b ∈ held →
      ∀ x ∈ a.number, ∃ y ∈ b.number, x ≤ y := by
    intro a b rest hrising hb
    rcases List.mem_cons.mp (hrising.perm.mem_iff.mpr hb) with rfl | hb
    · exact fun x hx => ⟨x, hx, Int.le_refl x⟩
    · exact List.rel_of_pairwise_cons hrising.sorted hb
  exact number_eq_of_le (hle h (h'.perm.mem_iff.mp List.mem_cons_self))
    (hle h' (h.perm.mem_iff.mp List.mem_cons_self))

/-- Among the keys that can come next only one has the least number and was pressed first. -/
theorem Rising.unique {up up' : List Event} (h : Rising held up) (h' : Rising held up') :
    up = up' := by
  induction up generalizing held up' with
  | nil => exact (List.nil_perm.mp (h.perm.trans h'.perm.symm)).symm
  | cons a rest ih =>
    cases up' with
    | nil => cases (h.perm.trans h'.perm.symm).eq_nil
    | cons b rest' =>
      have hperm : (a :: rest).Perm (b :: rest') := h.perm.trans h'.perm.symm
      have hstable (number : Option Int) :
          (a :: rest).filter (·.number == number) = (b :: rest').filter (·.number == number) :=
        (h.stable number).trans (h'.stable number).symm
      obtain rfl : a = b := by
        have hfirst := hstable b.number
        simp only [List.filter_cons, h.number_eq h', beq_self_eq_true, if_pos] at hfirst
        exact (List.cons.inj hfirst).1
      have htails (number : Option Int) :
          rest'.filter (·.number == number) = rest.filter (·.number == number) := by
        have hboth := hstable number
        rw [List.filter_cons, List.filter_cons] at hboth
        split at hboth
        · exact (List.cons.inj hboth).2.symm
        · exact hboth.symm
      have hrest : rest = rest' := ih ⟨.refl _, h.sorted.tail, fun _ => rfl⟩
        ⟨hperm.cons_inv.symm, h'.sorted.tail, htails⟩
      rw [hrest]

/-- A style and the held keys leave no choice. -/
theorem Arranged.eq {notes : List Event} {style : ArpeggioStyle} (h : Arranged held notes style) :
    notes = style.arrange held := by
  have hup := rising_upward held
  cases style with
  | up => exact Rising.unique h hup
  | chord => exact Rising.unique h hup
  | down => exact List.reverse_eq_iff.mp (Rising.unique h hup)
  | both =>
    obtain ⟨up, hrising, rfl⟩ := h
    rw [hrising.unique hup]
    rfl
  | manual => exact h

theorem arrange_nil (style : ArpeggioStyle) : style.arrange [] = [] := by
  cases style <;> simp [ArpeggioStyle.arrange, ArpeggioStyle.upward]

/-! ## Runs -/

/-- An arpeggio after calls at their moments. -/
def after (a : Arpeggio) (calls : List (Moment × Call)) : Arpeggio :=
  calls.foldl (fun a c => (a.respond c.1 c.2).1) a

/-- An arpeggio of a style that has been given some events since it last let go of its keys. -/
structure Tuned (style : ArpeggioStyle) (events : List Event) (a : Arpeggio) : Prop where
  held : Holds events a.held
  notes : a.notes = style.arrange a.held
  kept : a.style = style
  keyed : a.Keyed

/-- What steps, starts and stops leave alone. -/
def sheet (a : Arpeggio) : ArpeggioStyle × List Event × List Event := (a.style, a.held, a.notes)

theorem sheet_emit (a : Arpeggio) : a.emit.1.sheet = a.sheet := by
  unfold emit
  split <;> rfl

theorem sheet_start (a : Arpeggio) (m : Moment) : (a.start m).1.sheet = a.sheet := by
  unfold start
  simp only
  split
  · rw [sheet_emit]
    rfl
  · rfl

theorem sheet_wake (a : Arpeggio) (m : Moment) : (a.wake m).1.sheet = a.sheet := by
  unfold wake
  split
  · rw [sheet_emit]
    rfl
  · rfl

theorem sheet_letGo (a : Arpeggio) (m : Moment) : (a.letGo m).1.sheet = (a.style, [], []) := by
  unfold letGo
  simp only
  split <;> rfl

theorem sheet_add (a : Arpeggio) (e : Event) (m : Moment) :
    (a.add e m).1.sheet =
      if e.kind = .note ∨ e.kind = .noteOff then
        (a.style, holdKey a.held e, a.style.arrange (holdKey a.held e))
      else a.sheet := by
  unfold add
  by_cases hkey : e.kind = .note ∨ e.kind = .noteOff
  · rw [if_neg (by tauto), if_pos hkey]
    simp only
    split
    · split
      · rfl
      · rw [sheet_start]
        rfl
    · split <;> rfl
  · rw [if_pos (by tauto), if_neg hkey]

theorem sheet_respond (a : Arpeggio) (m : Moment) (c : Call) :
    (a.respond m c).1.sheet =
      if c.letsGo then (a.style, [], [])
      else match c.key? with
        | some e => (a.style, holdKey a.held e, a.style.arrange (holdKey a.held e))
        | none => a.sheet := by
  cases c with
  | play loops =>
    cases hzero : loops == 0.0 <;> simp [respond, Call.letsGo, Call.key?, hzero, sheet_letGo]
  | dismiss => exact sheet_letGo a m
  | wake => exact sheet_wake a m
  | add e =>
    simp only [respond, Call.letsGo, Call.key?, sheet_add]
    split <;> simp
  | _ => rfl

theorem keyed_respond {a : Arpeggio} (h : a.Keyed) (m : Moment) (c : Call) :
    (a.respond m c).1.Keyed := by
  by_cases hc : c = .wake
  · subst hc
    exact (wakes_wake h m).2
  · exact (does_respond h m hc).2

/-- One call. -/
theorem Tuned.respond {style : ArpeggioStyle} {a : Arpeggio} (h : Tuned style events a)
    (m : Moment) (c : Call) :
    Tuned style (if c.letsGo then [] else events ++ c.key?.toList) (a.respond m c).1 := by
  have hkeyed := keyed_respond h.keyed m c
  have hsheet := a.sheet_respond m c
  generalize (a.respond m c).1 = b at hkeyed hsheet
  by_cases hletsGo : c.letsGo = true
  · rw [if_pos hletsGo] at hsheet ⊢
    simp only [sheet, Prod.mk.injEq] at hsheet
    obtain ⟨hstyle, hheld, hnotes⟩ := hsheet
    refine ⟨hheld ▸ holds_nil, ?_, hstyle.trans h.kept, hkeyed⟩
    rw [hnotes, hheld, arrange_nil]
  · rw [if_neg hletsGo] at hsheet ⊢
    cases hkey : c.key? with
    | some e =>
      simp only [hkey, sheet, Prod.mk.injEq] at hsheet
      obtain ⟨hstyle, hheld, hnotes⟩ := hsheet
      refine ⟨hheld ▸ h.held.concat e, ?_, hstyle.trans h.kept, hkeyed⟩
      rw [hnotes, hheld, h.kept]
    | none =>
      simp only [hkey, sheet, Prod.mk.injEq] at hsheet
      obtain ⟨hstyle, hheld, hnotes⟩ := hsheet
      refine ⟨?_, ?_, hstyle.trans h.kept, hkeyed⟩
      · rw [hheld]
        simpa using h.held
      · rw [hnotes, hheld, h.notes]

theorem tuned_after (d : ArpeggioDef) (config : SequencerConfig) (rate : Float)
    (calls : List (Moment × Call)) :
    Tuned d.style (Call.keys (calls.map Prod.snd)) ((make d config rate).after calls) := by
  induction calls using List.reverseRecOn with
  | nil =>
    exact ⟨holds_nil, (arrange_nil d.style).symm, rfl, keyed_make d config rate⟩
  | append_singleton calls c ih =>
    unfold after
    rw [List.foldl_append, List.map_append, List.map_singleton, Call.keys_concat]
    exact ih.respond c.1 c.2

/-- Held keys drive the arpeggio: after any calls it holds the keys that they left down, plays them
as its style arranges them, and plays exactly while there are any. -/
theorem held_keys (d : ArpeggioDef) (config : SequencerConfig) (rate : Float)
    (calls : List (Moment × Call)) :
    Holds (Call.keys (calls.map Prod.snd)) ((make d config rate).after calls).held ∧
      Arranged ((make d config rate).after calls).held ((make d config rate).after calls).notes
        d.style ∧
      (((make d config rate).after calls).playing = true ↔
        ((make d config rate).after calls).held ≠ []) := by
  have h := tuned_after d config rate calls
  refine ⟨h.held, ?_, ?_⟩
  · rw [h.notes]
    exact arranged_arrange d.style _
  · rw [h.keyed.playing]
    simp

end Arpeggio

end MidiRig
