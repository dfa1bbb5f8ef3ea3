import MidiRig.Proofs.Player.Cuts
import MidiRig.Proofs.Stage.Course
import MidiRig.Proofs.Stage.Log

/-!
# Keys that a loop lets go

A loop keeps no record of the keys that it holds down. Where each press in its timeline is paired
with a release that comes later (`Key.Paired`), what is left of a pass never presses a key more
often than it releases it, so a loop that plays on lets go what it has pressed. What it drops is
another matter: the note-offs among that are lost, and a key may stay down for each of them
(`Told.cut`). `Past.net_le` keeps the account, for whatever a loop is told.
-/

namespace MidiRig

namespace Key

variable {k : Key} {e : Event} {xs ys : List Event}

/-- Presses of the key less its releases. -/
def net (k : Key) (xs : List Event) : Int :=
  (xs.map fun e => if k.presses e then 1 else if k.releases e then -1 else 0).sum

@[simp] theorem net_nil : k.net [] = 0 := rfl

theorem net_append (xs ys : List Event) : k.net (xs ++ ys) = k.net xs + k.net ys := by
  unfold net
  rw [List.map_append, List.sum_append]

theorem net_perm (h : xs.Perm ys) : k.net xs = k.net ys := (h.map _).sum_eq

theorem net_cons (e : Event) (xs : List Event) : k.net (e :: xs) = k.net [e] + k.net xs :=
  net_append [e] xs

theorem net_press (h : k.presses e = true) : k.net [e] = 1 := by simp [net, h]

theorem presses_of_releases (h : k.releases e = true) : k.presses e = false :=
  k.presses_of_noteOff (by simpa using (Bool.and_eq_true_iff.mp h).1)

theorem net_release (h : k.releases e = true) : k.net [e] = -1 := by
  simp [net, h, presses_of_releases h]

theorem net_le_zero (h : k.presses e = false) : k.net [e] ≤ 0 := by
  by_cases hrelease : k.releases e = true
  · rw [net_release hrelease]
    omega
  · simp [net, h, hrelease]

theorem net_eq (xs : List Event) : k.net xs = xs.countP k.presses - xs.countP k.releases := by
  induction xs with
  | nil => rfl
  | cons e rest ih =>
    rw [net_cons, ih, List.countP_cons, List.countP_cons]
    by_cases hpress : k.presses e = true
    · have hrelease : k.releases e = false :=
        Bool.eq_false_iff.mpr fun h => by simp [presses_of_releases h] at hpress
      rw [net_press hpress, if_pos hpress, hrelease]
      simp only [Bool.false_eq_true, if_false]
      omega
    · by_cases hrelease : k.releases e = true
      · rw [net_release hrelease, if_neg hpress, if_pos hrelease]
        omega
      · simp only [net, List.map_singleton, List.sum_singleton, if_neg hpress, if_neg hrelease]
        omega

theorem net_played (played : List Played) :
    k.net (played.map Played.event) = k.downs played - k.offs played := by
  rw [net_eq, List.countP_map, List.countP_map]
  rfl

/-! ## Pairs -/

/-- Each press of the key has a release of its own that comes later. -/
inductive Paired (k : Key) : List Event → Prop where
  | nil : k.Paired []
  | other {e : Event} {rest : List Event} (he : k.presses e = false) (hrest : k.Paired rest) :
      k.Paired (e :: rest)
  | press {e off : Event} {between after : List Event} (he : k.presses e = true)
      (hoff : k.releases off = true) (hrest : k.Paired (between ++ after)) :
      k.Paired (e :: (between ++ off :: after))

theorem net_release_between (hoff : k.releases e = true) (xs ys : List Event) :
    k.net (xs ++ e :: ys) = k.net (xs ++ ys) - 1 := by
  rw [net_append, net_cons, net_release hoff, net_append]
  omega

/-- From whatever place on, the key is not pressed more often than it is released. -/
theorem Paired.net_suffix (h : k.Paired xs) : ∀ {ys : List Event}, ys <:+ xs → k.net ys ≤ 0 := by
  induction h with
  | nil =>
    intro ys hys
    rw [List.suffix_nil.mp hys, net_nil]
  | other he _ ih =>
    intro ys hys
    rcases List.suffix_cons_iff.mp hys with rfl | hys
    · have := net_le_zero he
      have := ih List.suffix_rfl
      rw [net_cons]
      omega
    · exact ih hys
  | @press e off between after he hoff _ ih =>
    intro ys hys
    rcases List.suffix_cons_iff.mp hys with rfl | ⟨before, hys⟩
    · have := ih List.suffix_rfl
      rw [net_cons, net_press he, net_release_between hoff]
      omega
    · rcases List.append_eq_append_iff.mp hys with ⟨within, rfl, rfl⟩ | ⟨within, rfl, hrest⟩
      · have hle : k.net (within ++ after) ≤ 0 := ih ⟨before, (List.append_assoc _ _ _).symm⟩
        rw [net_release_between hoff]
        omega
      · cases within with
        | nil =>
          have := ih (List.suffix_append between after)
          rw [← show off :: after = ys from hrest, net_cons, net_release hoff]
          omega
        | cons x within =>
          obtain ⟨rfl, rfl⟩ := List.cons_eq_cons.mp hrest
          exact ih (List.suffix_append_of_suffix (List.suffix_append within ys))

/-- Where there are more releases, one of them can be spared. -/
theorem Paired.exists_spare (h : k.Paired xs) (hnet : k.net xs < 0) :
    ∃ before off after, xs = before ++ off :: after ∧ k.releases off = true ∧
      k.Paired (before ++ after) := by
  induction h with
  | nil => simp at hnet
  | @other e rest he hrest ih =>
    by_cases hoff : k.releases e = true
    · exact ⟨[], e, rest, rfl, hoff, hrest⟩
    · rw [net_cons, show k.net [e] = 0 by simp [net, he, hoff]] at hnet
      obtain ⟨before, off, after, rfl, hoff, hpaired⟩ := ih (by omega)
      exact ⟨e :: before, off, after, rfl, hoff, .other he hpaired⟩
  | @press e off between after he hoff hrest ih =>
    rw [net_cons, net_press he, net_release_between hoff] at hnet
    obtain ⟨before, spare, behind, hsplit, hspare, hpaired⟩ := ih (by omega)
    rcases List.append_eq_append_iff.mp hsplit with ⟨within, rfl, rfl⟩ | ⟨within, hbetween, hafter⟩
    · refine ⟨e :: (between ++ off :: within), spare, behind, by simp, hspare, ?_⟩
      rw [List.cons_append, List.append_assoc, List.cons_append]
      exact .press he hoff (by rwa [← List.append_assoc])
    · cases within with
      | nil =>
        subst hafter
        rw [List.append_nil] at hbetween
        subst hbetween
        refine ⟨e :: (between ++ [off]), spare, behind, by simp, hspare, ?_⟩
        rw [List.cons_append, List.append_assoc]
        exact .press he hoff hpaired
      | cons x within =>
        obtain ⟨rfl, rfl⟩ := List.cons_eq_cons.mp hafter
        subst hbetween
        refine ⟨e :: before, spare, within ++ off :: after, by simp, hspare, ?_⟩
        rw [List.cons_append, ← List.append_assoc]
        exact .press he hoff (by rwa [List.append_assoc])

theorem paired_iff : k.Paired xs ↔ ∀ ys ∈ xs.tails, k.net ys ≤ 0 := by
  simp only [List.mem_tails]
  refine ⟨fun h ys hys => h.net_suffix hys, fun h => ?_⟩
  induction xs with
  | nil => exact .nil
  | cons e rest ih =>
    have hrest := ih fun ys hys => h ys (hys.trans (List.suffix_cons e rest))
    by_cases he : k.presses e = true
    · have hnet := h _ List.suffix_rfl
      rw [net_cons, net_press he] at hnet
      obtain ⟨before, off, after, rfl, hoff, hpaired⟩ := hrest.exists_spare (by omega)
      exact .press he hoff hpaired
    · exact .other (by simpa using he) hrest

instance : Decidable (k.Paired xs) := decidable_of_iff _ paired_iff.symm

end Key

/-! ## What is left to play -/

namespace Agenda

variable {k : Loop} {xs : List Action}

def events (a : Agenda) : List Event := a.filterMap Slot.event

theorem events_act_callback (now tick : Nat) (a : Agenda) :
    (act now a (.callback tick)).events.Perm a.events :=
  (perm_put ⟨max tick now, none⟩ a).filterMap _

theorem events_act_event (now tick : Nat) (e : Event) (a : Agenda) :
    (act now a (.event e tick)).events.Perm (e :: a.events) :=
  (perm_put ⟨max tick now, some e⟩ a).filterMap _

theorem events_perform_arming (h : k.Arming xs) (now : Nat) (a : Agenda) :
    (a.perform now xs).events.Perm a.events := by
  unfold Loop.Arming at h
  split at h
  · obtain ⟨tick, rfl⟩ := h
    exact events_act_callback now tick a
  · rw [h]
    exact .refl _

end Agenda

namespace Loop

/-- Events of a pass. -/
def events (l : Loop) : List Event := l.timeline.map Prod.snd

/-- Events of the pass that it has not come to. -/
def rest (l : Loop) : List Event :=
  if l.playing && !l.atEnd then (l.timeline.drop l.next).map Prod.snd else []

variable {l : Loop}

theorem rest_of_silent (h : l.playing = false) : l.rest = [] := by
  unfold rest
  rw [h]
  rfl

/-- The pass lets go, from wherever the loop is, what is pressed from there on. -/
theorem net_le_of_suffix_rest {k : Key} (h : l.playing = true → k.Paired l.events)
    {xs : List Event} (hxs : xs <:+ l.rest) : k.net xs ≤ 0 := by
  cases hplaying : l.playing with
  | false =>
    rw [rest_of_silent hplaying] at hxs
    rw [List.suffix_nil.mp hxs, Key.net_nil]
  | true =>
    have hrest : l.rest <:+ l.events := by
      unfold rest
      split
      · exact (List.drop_suffix l.next l.timeline).map Prod.snd
      · exact List.nil_suffix
    exact (h hplaying).net_suffix (hxs.trans hrest)

theorem rest_arm (l : Loop) : l.arm.1.rest = l.rest := by
  unfold arm
  split
  · rfl
  · split
    · rfl
    · next hend =>
      have hdrop : l.timeline.drop l.next = [] :=
        List.drop_eq_nil_of_le (List.getElem?_eq_none_iff.mp hend)
      unfold rest
      rw [hdrop]
      simp

end Loop

/-- Events that a player has queued, and those that a loop has not come to in its pass. -/
def Part.unplayed (p : Part) : List Event :=
  p.agenda.events ++ match p.player with
    | some (.loop l) => l.rest
    | _ => []

namespace Told

variable {x : Told}

/-- What there is to play before the answer. -/
def unplayed (x : Told) : List Event := Part.unplayed ⟨some x.player, x.agenda⟩

/-- Whether what is queued is dropped. -/
def drops (x : Told) : Bool :=
  x.actions.any fun
    | .cancel => true
    | _ => false

/-- What of it is not dropped. -/
def kept (x : Told) : List Event := if x.drops then [] else x.unplayed

/-- Releases of a key that are dropped, less the presses that are dropped with them. -/
def cut (k : Key) (x : Told) : Nat := if x.drops then (-k.net x.unplayed).toNat else 0

/-- A loop is told something, and if it then plays, its timeline lets go whatever it presses. -/
def Pairs (k : Key) (x : Told) : Prop :=
  match x.after with
  | .loop l => l.playing = true → k.Paired l.events
  | _ => False

instance (k : Key) (x : Told) : Decidable (x.Pairs k) := by
  unfold Pairs
  split <;> infer_instance

theorem exists_of_pairs {k : Key} (h : x.Pairs k) : ∃ l, x.player = .loop l ∧
    ((l.respond x.moment x.call).1.playing = true →
      k.Paired (l.respond x.moment x.call).1.events) := by
  obtain ⟨m, p, a, c⟩ := x
  cases p with
  | loop l => exact ⟨l, rfl, h⟩
  | _ => exact h.elim

end Told

namespace Loop

variable {l : Loop} {m : Moment} {a : Agenda} {c : Call}

/-- What is left to play after an answer: what has been left and is not dropped, with the pass from
some place on. -/
def Leaves (m : Moment) (l : Loop) (a : Agenda) (c : Call) : Prop :=
  ∃ more, more <:+ (l.respond m c).1.rest ∧
    (Part.unplayed ⟨some (.loop (l.respond m c).1), a.perform m.now (l.respond m c).2⟩).Perm
      ((Told.mk m (.loop l) a c).kept ++ more)

/-- A loop that drops what is queued plays its pass from some place on, if it plays. -/
theorem leaves_of_cancel {k : Loop} {xs : List Action} (h : l.respond m c = (k, .cancel :: xs))
    (hxs : (Agenda.perform m.now [] xs).events = []) : Leaves m l a c := by
  have hdrops : (Told.mk m (.loop l) a c).drops = true := by
    show (l.respond m c).2.any _ = true
    rw [h]
    exact Bool.true_or _
  refine ⟨(l.respond m c).1.rest, List.suffix_rfl, ?_⟩
  rw [Told.kept, if_pos hdrops, h]
  show ((Agenda.perform m.now [] xs).events ++ k.rest).Perm _
  rw [hxs]

/-- One that drops nothing can begin another pass. -/
theorem leaves_of_kept {answer : Response Loop} {more : List Event} (h : l.respond m c = answer)
    (hkept : .cancel ∉ answer.2) (hmore : more <:+ answer.1.rest)
    (hperm : ((a.perform m.now answer.2).events ++ answer.1.rest).Perm
      (a.events ++ l.rest ++ more)) : Leaves m l a c := by
  have hdrops : ¬ (Told.mk m (.loop l) a c).drops = true := by
    show ¬ (l.respond m c).2.any _ = true
    rw [h]
    intro hany
    obtain ⟨x, hx, hcancel⟩ := List.any_eq_true.mp hany
    cases x with
    | cancel => exact hkept hx
    | _ => cases hcancel
  refine ⟨more, h ▸ hmore, ?_⟩
  rw [Told.kept, if_neg hdrops, h]
  exact hperm

theorem cancel_not_mem_arming {k : Loop} {xs : List Action} (h : k.Arming xs) : .cancel ∉ xs := by
  unfold Arming at h
  split at h
  · obtain ⟨tick, rfl⟩ := h
    simp
  · simp [h]

theorem leaves_call (l : Loop) (m : Moment) (a : Agenda) (hc : c ≠ .wake) : Leaves m l a c := by
  have hdoes := l.does_respond m hc
  have hanswers := l.answers_respond m hc
  obtain ⟨⟨k, xs⟩, hrespond⟩ : ∃ answer, l.respond m c = answer := ⟨_, rfl⟩
  rw [hrespond] at hdoes hanswers
  cases hdoes with
  | rests hplaying =>
    have hrest : k.rest = l.rest := by
      cases hanswers with
      | silent hk => rw [rest_of_silent hk, rest_of_silent (hplaying.symm.trans hk)]
      | rests recording layers hk =>
        rw [show k = _ from hk]
        rfl
      | starts base recording layers hk hxs => cases hxs
      | resumes base hbase hk hxs => cases hxs
    refine leaves_of_kept hrespond nofun List.nil_suffix ?_
    rw [hrest, List.append_nil]
    exact .refl _
  | stops => exact leaves_of_cancel hrespond rfl
  | arms _ hxs =>
    exact leaves_of_cancel hrespond (Agenda.events_perform_arming hxs m.now []).eq_nil

theorem leaves_turnOver {length : Nat} (hend : l.atEnd = true)
    (hwake : l.respond m .wake = l.turnOver length) : Leaves m l a .wake := by
  -- a pass that has come to its end leaves nothing, and the next one is all there
  have hrest : l.rest = [] := by simp [rest, hend]
  have hnext : ∀ k : Loop, l.respond m .wake = k.arm → Leaves m l a .wake := by
    intro k hk
    refine leaves_of_kept hk (cancel_not_mem_arming (arming_arm k)) List.suffix_rfl ?_
    rw [hrest, List.append_nil]
    exact (Agenda.events_perform_arming (arming_arm k) m.now a).append_right _
  unfold turnOver at hwake
  split at hwake
  · exact hnext _ hwake
  · split at hwake
    · exact leaves_of_cancel hwake rfl
    · exact hnext _ hwake

theorem leaves_playNext (hplaying : l.playing = true) (hend : l.atEnd = false)
    (hwake : l.respond m .wake = l.playNext) : Leaves m l a .wake := by
  cases hentry : l.timeline[l.next]? with
  | some entry =>
    obtain ⟨k, hk⟩ : ∃ k, k = { l with next := l.next + 1 } := ⟨_, rfl⟩
    have hplays : l.respond m .wake =
        (k.arm.1, .event entry.2 (l.tickOf entry.1) :: k.arm.2) := by
      rw [hwake, playNext, hentry, hk]
    -- the entry goes from the pass to the queue
    have hrest : l.rest = entry.2 :: k.rest := by
      obtain ⟨hlt, hget⟩ := List.getElem?_eq_some_iff.mp hentry
      simp [hk, rest, hplaying, hend, List.drop_eq_getElem_cons hlt, hget]
    have hqueue : (a.perform m.now (.event entry.2 (l.tickOf entry.1) :: k.arm.2)).events.Perm
        (entry.2 :: a.events) :=
      (Agenda.events_perform_arming (arming_arm k) m.now _).trans (Agenda.events_act_event _ _ _ a)
    refine leaves_of_kept hplays ?_ List.nil_suffix ?_
    · rintro (_ | ⟨_, hmem⟩)
      exact cancel_not_mem_arming (arming_arm k) hmem
    · rw [rest_arm, hrest, List.append_nil]
      exact (hqueue.append_right _).trans List.perm_middle.symm
  | none =>
    have harms : l.respond m .wake = l.arm := by rw [hwake, playNext, hentry]
    refine leaves_of_kept harms (cancel_not_mem_arming (arming_arm l)) List.nil_suffix ?_
    rw [rest_arm, List.append_nil]
    exact (Agenda.events_perform_arming (arming_arm l) m.now a).append_right _

theorem leaves_respond (l : Loop) (m : Moment) (a : Agenda) (c : Call) : Leaves m l a c := by
  by_cases hc : c = .wake
  · subst hc
    have hwake : l.respond m .wake = l.wake := rfl
    unfold wake at hwake
    split at hwake
    · next length hplaying _ =>
      split at hwake
      · next hend => exact leaves_turnOver hend hwake
      · next hend => exact leaves_playNext hplaying (by simpa using hend) hwake
    · refine leaves_of_kept hwake nofun List.nil_suffix ?_
      rw [List.append_nil]
      exact .refl _
  · exact leaves_call l m a hc

end Loop

/-! ## The account -/

/-- An answer leaves no more presses without releases than there have been, but for the releases
that it drops. -/
theorem Told.net_after {k : Key} {x : Told} (h : x.Pairs k) :
    k.net (Part.unplayed ⟨some x.after, x.queue⟩) ≤ k.net x.unplayed + x.cut k := by
  obtain ⟨l, hl, hpaired⟩ := exists_of_pairs h
  obtain ⟨m, p, a, c⟩ := x
  subst hl
  obtain ⟨more, hmore, hperm⟩ := l.leaves_respond m a c
  have hnet := Loop.net_le_of_suffix_rest hpaired hmore
  show k.net (Part.unplayed ⟨some (.loop (l.respond m c).1), a.perform m.now (l.respond m c).2⟩) ≤ _
  rw [Key.net_perm hperm, Key.net_append, kept, cut]
  by_cases hdrops : (Told.mk m (.loop l) a c).drops = true
  · rw [if_pos hdrops, if_pos hdrops, Key.net_nil]
    omega
  · rw [if_neg hdrops, if_neg hdrops]
    omega

/-- What a loop sends at once presses nothing. -/
theorem Told.net_atOnce {k : Key} {x : Told} (h : x.Pairs k) :
    k.net ((atOnce x.moment.now x.actions).map Played.event) ≤ 0 := by
  obtain ⟨l, hl, -⟩ := exists_of_pairs h
  obtain ⟨m, p, a, c⟩ := x
  subst hl
  have hdowns : k.downs (atOnce m.now (l.respond m c).2) = 0 :=
    List.countP_eq_zero.mpr fun x hx => by
      simp [k.presses_of_noteOff ((l.cutsOnly_respond m c).atOnce x hx)]
  show k.net ((atOnce m.now (l.respond m c).2).map Played.event) ≤ 0
  rw [Key.net_played, hdowns]
  omega

/-- One more entry keeps the account. -/
theorem Told.net_append {k : Key} {x : Told} {q : Part} {played : List Played} {log : List Told}
    (hpairs : x.Pairs k)
    (hbefore : k.net (played.map Played.event) + k.net x.unplayed ≤ (log.map (Told.cut k)).sum)
    (hq : k.net q.unplayed = k.net (Part.unplayed ⟨some x.after, x.queue⟩)) :
    k.net ((played ++ atOnce x.moment.now x.actions).map Played.event) + k.net q.unplayed ≤
      ((log ++ [x]).map (Told.cut k)).sum := by
  have hafter := net_after hpairs
  have hsent := net_atOnce hpairs
  rw [hq, List.map_append, Key.net_append, List.map_append, List.sum_append, List.map_singleton,
    List.sum_singleton, Nat.cast_add]
  omega

/-- The presses of a loop, played and still to play, are no more than its releases and those that
it has dropped. -/
theorem Past.net_le {r : Conduct} {busy : Bool} {now : Nat} {p : Part} {played : List Played}
    {log : List Told} (h : Past r busy now p played log) (k : Key)
    (hpairs : ∀ x ∈ log, x.Pairs k) :
    k.net (played.map Played.event) + k.net p.unplayed ≤ (log.map (Told.cut k)).sum := by
  have hlast : ∀ {log : List Told} {x : Told}, x ∈ log ++ (some x).toList :=
    List.mem_append_right _ (List.mem_singleton_self _)
  induction h with
  | unborn => exact Int.le_refl 0
  | born d config rate => cases d <;> exact Int.le_refl 0
  | hears _ _ hs ih =>
    have hbefore := ih fun x hx => hpairs x (List.mem_append_left _ hx)
    cases hs with
    | stays => simpa using hbefore
    | answers c => exact Told.net_append (hpairs _ hlast) hbefore rfl
    | leaves =>
      have hx := hpairs _ hlast
      obtain ⟨l, rfl, -⟩ := Told.exists_of_pairs hx
      exact Told.net_append hx hbefore rfl
  | @plays _ now tick p a _ _ e _ _ ih =>
    have hbefore := ih hpairs
    rw [show Part.unplayed ⟨p, ⟨tick, some e⟩ :: a⟩ = e :: Part.unplayed ⟨p, a⟩ from rfl,
      Key.net_cons] at hbefore
    rw [List.map_append, Key.net_append, Int.add_assoc]
    exact hbefore
  | wakes _ _ ih =>
    have hbefore := ih fun x hx => hpairs x (List.mem_append_left _ hx)
    exact Told.net_append (hpairs _ hlast) hbefore rfl
  | lost _ ih => exact ih hpairs
  | passes _ _ _ ih => exact ih hpairs
  | settles _ _ ih => exact ih hpairs

end MidiRig
