import MidiRig.Proofs.Player.Stepper
import MidiRig.Proofs.Stage.Life

/-!
# Callbacks that players wait for

A player that does not play has nothing queued (`Life.tidy`). One that plays and goes by the clock
waits for one callback, never for two (`Life.armed`): each operation that asks for a callback
either drops what is queued before, or follows the delivery of the callback before. For an arpeggio
this rests on its keys: it plays exactly while keys are held, so the first key finds it silent.
-/

namespace MidiRig

/-! ## Counting callbacks -/

namespace Agenda

/-- How many callbacks are queued. -/
def callbacks (a : Agenda) : Nat := a.countP fun x => x.event.isNone

theorem callbacks_put (x : Slot) (a : Agenda) :
    callbacks (put x a) = callbacks a + if x.event.isNone then 1 else 0 := by
  unfold callbacks
  rw [(perm_put x a).countP_eq, List.countP_cons]

@[simp] theorem callbacks_nil : callbacks [] = 0 := rfl

@[simp] theorem callbacks_cons_event (tick : Nat) (e : Event) (a : Agenda) :
    callbacks (⟨tick, some e⟩ :: a) = callbacks a := by
  unfold callbacks
  rw [List.countP_cons]
  rfl

@[simp] theorem callbacks_cons_callback (tick : Nat) (a : Agenda) :
    callbacks (⟨tick, none⟩ :: a) = callbacks a + 1 := by
  unfold callbacks
  rw [List.countP_cons]
  rfl

@[simp] theorem callbacks_act_event (now : Nat) (a : Agenda) (e : Event) (tick : Nat) :
    callbacks (act now a (.event e tick)) = callbacks a := callbacks_put _ a

@[simp] theorem callbacks_act_callback (now : Nat) (a : Agenda) (tick : Nat) :
    callbacks (act now a (.callback tick)) = callbacks a + 1 := callbacks_put _ a

@[simp] theorem act_cancel (now : Nat) (a : Agenda) : act now a .cancel = [] := rfl

/-- Strikes queue events only. -/
@[simp] theorem callbacks_perform_strikes (now : Nat) (a : Agenda) (length tick : Nat)
    (events : List Event) :
    callbacks (perform now a (events.flatMap (strike length tick))) = callbacks a := by
  induction events generalizing a with
  | nil => rfl
  | cons e rest ih =>
    rw [List.flatMap_cons, perform_append, ih]
    unfold strike noteOffs
    split <;> simp

end Agenda

/-! ## Sequences and arpeggios -/

namespace Stepper

variable {now : Nat} {p q : Stepper} {xs : List Action} {a : Agenda}

theorem perform_stepActions (p : Stepper) (events : List Event) (tick length : Nat) (a : Agenda) :
    (a.perform now (p.stepActions events tick length)).callbacks = a.callbacks + 1 := by
  unfold stepActions
  rw [Agenda.perform_append, Agenda.perform_cons, Agenda.perform_nil,
    Agenda.callbacks_act_callback, Agenda.callbacks_perform_strikes]

theorem rest_does (h : Does now p xs q) (hp : p.playing = false → a = [])
    (hq : q.playing = false) : a.perform now xs = [] := by
  induction h generalizing a with
  | rests => exact hp hq
  | stops => rw [Agenda.perform_cons, Agenda.act_cancel, Agenda.perform_release]
  | starts => cases hq
  | strikes => cases hq
  | seq _ _ ihxs ihys =>
    rw [Agenda.perform_append]
    exact ihys (fun hmiddle => ihxs hp hmiddle) hq

theorem rest_wakes (h : Wakes now p xs q) (hp : p.playing = false → a = [])
    (hq : q.playing = false) : a.perform now xs = [] := by
  cases h with
  | sleeps => exact hp hq
  | steps => cases hq
  | ends => rw [Agenda.perform_cons, Agenda.act_cancel, Agenda.perform_release]

/-- One callback while it plays, and nothing at all otherwise. -/
structure Armed (p : Stepper) (a : Agenda) : Prop where
  one : p.playing = true → a.callbacks = 1
  rest : p.playing = false → a = []

theorem Armed.does (h : p.Armed a) (hdoes : Does now p xs q) : q.Armed (a.perform now xs) := by
  refine ⟨?_, rest_does hdoes h.rest⟩
  induction hdoes generalizing a with
  | rests => exact h.one
  | stops => intro hq; cases hq
  | starts hsilent =>
    rw [h.rest hsilent]
    exact fun _ => rfl
  | strikes hsilent =>
    rw [h.rest hsilent, perform_stepActions]
    exact fun _ => rfl
  | seq hxs _ ihxs ihys =>
    rw [Agenda.perform_append]
    exact ihys ⟨ihxs h, rest_does hxs h.rest⟩

/-- Only a stepper that plays has something queued. -/
theorem Armed.playing {x : Slot} (h : p.Armed (x :: a)) : p.playing = true := by
  by_contra hsilent
  have := h.rest (Bool.eq_false_iff.mpr hsilent)
  cases this

/-- An event that leaves the queue is no callback. -/
theorem Armed.tail {tick : Nat} {e : Event} (h : p.Armed (⟨tick, some e⟩ :: a)) : p.Armed a := by
  have hplaying := h.playing
  refine ⟨fun hp => ?_, fun hsilent => ?_⟩
  · rw [← h.one hp, Agenda.callbacks_cons_event]
  · rw [hsilent] at hplaying
    cases hplaying

/-- Behind a callback there is no other. -/
theorem Armed.callbacks_eq_zero {tick : Nat} (h : p.Armed (⟨tick, none⟩ :: a)) :
    a.callbacks = 0 := by
  have hone := h.one h.playing
  rw [Agenda.callbacks_cons_callback] at hone
  omega

/-- A callback that is delivered leaves none, and asks for at most one. -/
theorem Armed.wakes {tick : Nat} (h : p.Armed (⟨tick, none⟩ :: a)) (hwakes : Wakes now p xs q) :
    q.Armed (a.perform now xs) := by
  have hplaying := h.playing
  have hnone := h.callbacks_eq_zero
  cases hwakes with
  | sleeps hsilent =>
    rw [hplaying] at hsilent
    cases hsilent
  | steps =>
    refine ⟨fun _ => ?_, fun hq => by cases hq⟩
    rw [perform_stepActions, hnone]
  | ends =>
    rw [Agenda.perform_cons, Agenda.act_cancel, Agenda.perform_release]
    exact ⟨(nomatch ·), fun _ => rfl⟩

end Stepper

/-! ## Loops -/

namespace Loop

variable {l k : Loop} {xs : List Action} {a : Agenda}

/-- Whether these actions ask for what a loop that plays waits for: a callback, if its length is
known. -/
def Arming (l : Loop) (xs : List Action) : Prop :=
  match l.passTicks? with
  | some _ => ∃ tick, xs = [.callback tick]
  | none => xs = []

/-- What operations do, callbacks apart. -/
inductive Does : Loop → List Action → Loop → Prop where
  | rests {l k : Loop} (hplaying : k.playing = l.playing)
      (hlength : l.playing = true → k.passTicks? = l.passTicks?) : Does l [] k
  | stops {l k : Loop} (h : k.playing = false) : Does l [.cancel] k
  | arms {l k : Loop} {xs : List Action} (h : k.playing = true) (hxs : k.Arming xs) :
      Does l (.cancel :: xs) k

/-- What callbacks do. -/
inductive Wakes : Loop → List Action → Loop → Prop where
  | sleeps {l : Loop} (h : l.playing = false ∨ l.passTicks? = none) : Wakes l [] l
  | ends {l k : Loop} (h : k.playing = false) : Wakes l [.cancel] k
  | arms {l k : Loop} {xs : List Action} (h : k.playing = true) (hxs : k.Arming xs)
      (hlength : k.passTicks? ≠ none) : Wakes l xs k
  | plays {l k : Loop} (e : Event) (tick : Nat) {xs : List Action} (h : k.playing = true)
      (hxs : k.Arming xs) (hlength : k.passTicks? ≠ none) : Wakes l (.event e tick :: xs) k

/-- What is not about playing and length does not matter. -/
theorem Does.same {k' : Loop} (h : Does l xs k) (hplaying : k'.playing = k.playing)
    (hlength : k'.passTicks? = k.passTicks?) : Does l xs k' := by
  cases h with
  | rests hp hl => exact .rests (hplaying.trans hp) fun h => hlength.trans (hl h)
  | stops hp => exact .stops (hplaying.trans hp)
  | arms hp hxs =>
    refine .arms (hplaying.trans hp) ?_
    unfold Arming at hxs ⊢
    rwa [hlength]

theorem passTicks?_arm (l : Loop) : l.arm.1.passTicks? = l.passTicks? := by
  unfold arm
  split
  · rfl
  · split <;> rfl

theorem arming_arm (l : Loop) : l.arm.1.Arming l.arm.2 := by
  unfold Arming
  rw [passTicks?_arm]
  unfold arm
  split
  · next length h =>
    rw [h]
    simp only
    split <;> exact ⟨_, rfl⟩
  · next h => simp only [h]

theorem does_rearm (h : l.playing = true) (k : Loop) : Does k l.rearm.2 l.rearm.1 := by
  refine .arms ?_ (arming_arm _)
  exact (arm_frame _).1.trans h

theorem does_startPlaying (l k : Loop) (m : Moment) :
    Does k (l.startPlaying m).2 (l.startPlaying m).1 := does_rearm rfl k

theorem align_playing (l : Loop) (now : Nat) : (l.align now).playing = l.playing := by
  unfold align
  split
  · rfl
  · simp only
    split <;> rfl

theorem does_resync (h : l.playing = true) (k : Loop) (m : Moment) :
    Does k (l.resync m).2 (l.resync m).1 :=
  does_rearm (by exact (align_playing l m.now).trans h) k

theorem does_play (l : Loop) (loops : Float) (m : Moment) :
    Does l (l.play loops m).2 (l.play loops m).1 := by
  unfold play
  split
  · exact .stops rfl
  · split
    · exact .rests rfl fun _ => rfl
    · exact does_startPlaying _ l m

theorem does_setTempo (l : Loop) (bpm : Float) (m : Moment) :
    Does l (l.setTempo bpm m).2 (l.setTempo bpm m).1 := by
  unfold setTempo
  split
  · next h =>
    refine .rests rfl fun hplaying => ?_
    simp [hplaying] at h
  · next h =>
    have hplaying : l.playing = true := by simpa using h
    exact does_resync (by exact (align_playing l m.now).trans hplaying) l m

theorem does_add (l : Loop) (e : Event) (m : Moment) : Does l [] (l.add e m) := by
  unfold add
  split <;> exact .rests rfl fun _ => rfl

theorem does_startRecording (l : Loop) (m : Moment) :
    Does l (l.startRecording m).2 (l.startRecording m).1 := by
  unfold startRecording
  split
  · exact .rests rfl fun _ => rfl
  · have hready : Does l
        (if l.playing then (l, []) else if l.beats.isSome then l.startPlaying m
          else ({ l with passStart := m.now }, [])).2
        (if l.playing then (l, []) else if l.beats.isSome then l.startPlaying m
          else ({ l with passStart := m.now }, [])).1 := by
      split
      · exact .rests rfl fun _ => rfl
      · split
        · exact does_startPlaying l l m
        · exact .rests rfl fun _ => rfl
    exact hready.same rfl rfl

theorem playing_endLayer (l : Loop) (m : Moment) : (l.endLayer m).playing = l.playing := by
  unfold endLayer
  simp only
  split
  · split <;> rfl
  · rfl

theorem does_becomeEmpty (l k : Loop) (h : k.playing = l.playing) :
    Does k l.becomeEmpty.2 l.becomeEmpty.1 := by
  unfold becomeEmpty
  by_cases hplaying : l.playing = true
  · rw [if_pos hplaying]
    exact .stops rfl
  · rw [if_neg hplaying]
    exact .rests h.symm fun hk => absurd (h ▸ hk) hplaying

theorem does_stopRecording (l : Loop) (keep : Option Nat) (m : Moment) :
    Does l (l.stopRecording keep m).2 (l.stopRecording keep m).1 := by
  have hkept : ((l.endLayer m).keepLayers keep).playing = l.playing := playing_endLayer l m
  unfold stopRecording
  simp only
  split
  · exact does_becomeEmpty _ l hkept.symm
  · split
    · next hplaying => exact does_resync hplaying l m
    · next hplaying =>
      split
      · exact does_startPlaying _ l m
      · exact .rests hkept fun h => absurd (hkept.trans h) hplaying

theorem does_record (l : Loop) (value : Float) (m : Moment) :
    Does l (l.record value m).2 (l.record value m).1 := by
  unfold record
  split
  · exact does_startRecording l m
  · split
    · exact does_stopRecording l none m
    · split
      · exact does_stopRecording l _ m
      · exact .rests rfl fun _ => rfl

theorem does_respond (l : Loop) (m : Moment) {c : Call} (hc : c ≠ .wake) :
    Does l (l.respond m c).2 (l.respond m c).1 := by
  cases c with
  | play loops => exact l.does_play loops m
  | tempo bpm => exact l.does_setTempo bpm m
  | record value => exact l.does_record value m
  | add e => exact l.does_add e m
  | dismiss => exact .stops rfl
  | wake => exact absurd rfl hc
  | _ => exact .rests rfl fun _ => rfl

theorem wakes_turnOver {length : Nat} (hplaying : l.playing = true)
    (hknown : l.passTicks? = some length) :
    Wakes l (l.turnOver length).2 (l.turnOver length).1 := by
  have harms : ∀ k : Loop, k.playing = true → k.passTicks? = some length →
      Wakes l k.arm.2 k.arm.1 := by
    intro k hk hlength
    refine .arms ((arm_frame k).1.trans hk) (arming_arm k) ?_
    rw [passTicks?_arm, hlength]
    exact nofun
  unfold turnOver
  split
  · exact harms _ hplaying hknown
  · split
    · exact .ends rfl
    · exact harms _ hplaying hknown

theorem wakes_playNext {length : Nat} (hplaying : l.playing = true)
    (hknown : l.passTicks? = some length) : Wakes l l.playNext.2 l.playNext.1 := by
  have hlength : ∀ k : Loop, k.passTicks? = some length → k.arm.1.passTicks? ≠ none := by
    intro k hk
    rw [passTicks?_arm, hk]
    exact nofun
  unfold playNext
  split
  · exact .plays _ _ ((arm_frame _).1.trans hplaying) (arming_arm _) (hlength _ hknown)
  · exact .arms ((arm_frame l).1.trans hplaying) (arming_arm l) (hlength l hknown)

theorem wakes_wake (l : Loop) : Wakes l l.wake.2 l.wake.1 := by
  unfold wake
  split
  · next length hplaying hknown =>
    split
    · exact wakes_turnOver hplaying hknown
    · exact wakes_playNext hplaying hknown
  · next hother =>
    refine .sleeps ?_
    cases hplaying : l.playing with
    | false => exact .inl rfl
    | true =>
      cases hknown : l.passTicks? with
      | none => exact .inr rfl
      | some length => exact absurd hknown (hother length hplaying)

theorem rest_does (h : Does l xs k) (hl : l.playing = false → a = []) (now : Nat)
    (hk : k.playing = false) : a.perform now xs = [] := by
  cases h with
  | rests hplaying => exact hl (hplaying.symm.trans hk)
  | stops => rfl
  | arms hplaying =>
    rw [hplaying] at hk
    cases hk

theorem rest_wakes (h : Wakes l xs k) (hl : l.playing = false → a = []) (now : Nat)
    (hk : k.playing = false) : a.perform now xs = [] := by
  cases h with
  | sleeps => exact hl hk
  | ends => rfl
  | arms hplaying =>
    rw [hplaying] at hk
    cases hk
  | plays _ _ hplaying =>
    rw [hplaying] at hk
    cases hk

/-- One callback while it plays with a length, and nothing at all while it does not play. -/
structure Armed (l : Loop) (a : Agenda) : Prop where
  one : l.playing = true → a.callbacks = if l.passTicks?.isSome then 1 else 0
  rest : l.playing = false → a = []

theorem callbacks_arming (hxs : k.Arming xs) (now : Nat) (h : a.callbacks = 0) :
    (a.perform now xs).callbacks = if k.passTicks?.isSome then 1 else 0 := by
  unfold Arming at hxs
  cases hlength : k.passTicks? with
  | none =>
    rw [hlength] at hxs
    rw [show xs = [] from hxs]
    exact h
  | some length =>
    rw [hlength] at hxs
    obtain ⟨tick, rfl⟩ := hxs
    rw [Agenda.perform_cons, Agenda.perform_nil, Agenda.callbacks_act_callback, h]
    rfl

theorem Armed.does (h : l.Armed a) (hdoes : Does l xs k) (now : Nat) :
    k.Armed (a.perform now xs) := by
  refine ⟨fun hk => ?_, rest_does hdoes h.rest now⟩
  cases hdoes with
  | rests hplaying hlength =>
    have hl : l.playing = true := hplaying.symm.trans hk
    rw [hlength hl]
    exact h.one hl
  | stops hsilent =>
    rw [hsilent] at hk
    cases hk
  | arms _ hxs => exact callbacks_arming hxs now rfl

theorem Armed.playing {x : Slot} (h : l.Armed (x :: a)) : l.playing = true := by
  by_contra hsilent
  have := h.rest (Bool.eq_false_iff.mpr hsilent)
  cases this

theorem Armed.tail {tick : Nat} {e : Event} (h : l.Armed (⟨tick, some e⟩ :: a)) : l.Armed a := by
  have hplaying := h.playing
  refine ⟨fun hl => ?_, fun hsilent => ?_⟩
  · rw [← h.one hl, Agenda.callbacks_cons_event]
  · rw [hsilent] at hplaying
    cases hplaying

theorem Armed.wakes {tick : Nat} (h : l.Armed (⟨tick, none⟩ :: a)) (hwakes : Wakes l xs k)
    (now : Nat) : k.Armed (a.perform now xs) := by
  have hplaying := h.playing
  have hcount : a.callbacks + 1 = if l.passTicks?.isSome then 1 else 0 := by
    rw [← h.one hplaying, Agenda.callbacks_cons_callback]
  have hknown : l.passTicks?.isSome = true := by
    by_contra hnone
    rw [if_neg hnone] at hcount
    omega
  rw [if_pos hknown] at hcount
  have hzero : a.callbacks = 0 := by omega
  cases hwakes with
  | sleeps hl =>
    rcases hl with hl | hl
    · rw [hplaying] at hl
      cases hl
    · rw [hl] at hknown
      cases hknown
  | ends hk => exact ⟨fun hon => absurd (hk.symm.trans hon) nofun, fun _ => rfl⟩
  | arms hk hxs =>
    exact ⟨fun _ => callbacks_arming hxs now hzero, fun hoff => absurd (hoff.symm.trans hk) nofun⟩
  | plays e tick hk hxs =>
    refine ⟨fun _ => callbacks_arming hxs now ?_, fun hoff => absurd (hoff.symm.trans hk) nofun⟩
    rw [Agenda.callbacks_act_event, hzero]

end Loop

/-! ## Tracks -/

/-- Whether an action is for the transport. -/
def Action.isFile : Action → Bool
  | .filePlay _ | .fileStop | .fileSeek _ | .fileTempo _ => true
  | .event _ _ | .callback _ | .cancel | .send _ => false

theorem Agenda.perform_of_isFile (now : Nat) (a : Agenda) {xs : List Action}
    (h : ∀ x ∈ xs, x.isFile = true) : a.perform now xs = a := by
  induction xs with
  | nil => rfl
  | cons x rest ih =>
    obtain ⟨hx, hrest⟩ := List.forall_mem_cons.mp h
    have hact : a.act now x = a := by
      cases x with
      | event | callback | cancel | send => cases hx
      | _ => rfl
    rw [perform_cons, hact, ih hrest]

/-- Tracks act on the transport, and on nothing else. -/
theorem Track.isFile_respond (t : Track) (m : Moment) (c : Call) :
    ∀ x ∈ (t.respond m c).2, x.isFile = true := by
  have hone : ∀ {x : Action}, x.isFile = true → ∀ y ∈ [x], y.isFile = true := fun hx =>
    List.forall_mem_singleton.mpr hx
  have hstop : ∀ x ∈ t.stop.2, x.isFile = true := by
    unfold stop
    split
    · exact hone rfl
    · exact List.forall_mem_nil _
  have hfollow : ∀ length position, ∀ x ∈ (t.follow length position).2, x.isFile = true := by
    intro length position
    unfold follow
    split
    · split
      · exact hstop
      · exact hone rfl
    · exact List.forall_mem_nil _
  cases c with
  | play loops =>
    simp only [respond, play]
    split
    · exact hstop
    · cases t.tempo with
      | none => exact hone rfl
      | some bpm => exact List.forall_mem_cons.mpr ⟨rfl, hone rfl⟩
  | tempo bpm =>
    simp only [respond, setTempo]
    split
    · exact hone rfl
    · exact List.forall_mem_nil _
  | fileTick position =>
    simp only [respond, fileTick]
    split
    · exact List.forall_mem_nil _
    · split
      · split
        · exact hone rfl
        · exact hfollow _ _
      · exact hfollow _ _
  | dismiss => exact hstop
  | _ => exact List.forall_mem_nil _

/-! ## All players -/

namespace Player

/-- Nothing is queued unless the player plays, and tracks never queue anything. -/
def Tidy (a : Agenda) : Player → Prop
  | sequence s => s.playing = false → a = []
  | arpeggio p => p.Keyed ∧ (p.playing = false → a = [])
  | loop l => l.playing = false → a = []
  | track _ => a = []

/-- Tidy, with one callback where the player waits for one. -/
def Armed (a : Agenda) : Player → Prop
  | sequence s => s.stepper.Armed a
  | arpeggio p => p.Keyed ∧ p.stepper.Armed a
  | loop l => l.Armed a
  | track _ => a = []

variable {p : Player} {a : Agenda}

/-- A new player has nothing queued, and does not play. -/
theorem armed_make (d : PlayerDef) (config : SequencerConfig) (rate : Float) :
    (Player.make d config rate).Armed [] := by
  cases d with
  | sequence d => exact ⟨nofun, fun _ => rfl⟩
  | arpeggio d => exact ⟨Arpeggio.keyed_make d config rate, nofun, fun _ => rfl⟩
  | loop d => exact ⟨nofun, fun _ => rfl⟩
  | track d => rfl

theorem Armed.tidy (h : p.Armed a) : p.Tidy a := by
  cases p with
  | sequence s => exact h.rest
  | arpeggio p => exact ⟨h.1, h.2.rest⟩
  | loop l => exact h.rest
  | track t => exact h

theorem Tidy.nil_of_silent (h : p.Tidy a) (hp : p.isPlaying = false) : a = [] := by
  cases p with
  | sequence s => exact h hp
  | arpeggio p => exact h.2 hp
  | loop l => exact h hp
  | track t => exact h

/-- Tracks leave the queue alone. -/
theorem perform_track (t : Track) (m : Moment) (c : Call) (now : Nat) (a : Agenda) :
    a.perform now (t.respond m c).2 = a := Agenda.perform_of_isFile now a (t.isFile_respond m c)

theorem Tidy.respond (h : p.Tidy a) (m : Moment) (c : Call) :
    (p.respond m c).1.Tidy (a.perform m.now (p.respond m c).2) := by
  by_cases hc : c = .wake
  · subst hc
    cases p with
    | sequence s => exact Stepper.rest_wakes (s.wakes_wake m) h
    | arpeggio p =>
      obtain ⟨hwakes, hkeyed⟩ := Arpeggio.wakes_wake h.1 m
      exact ⟨hkeyed, Stepper.rest_wakes hwakes h.2⟩
    | loop l => exact Loop.rest_wakes l.wakes_wake h m.now
    | track t => exact (perform_track t m .wake m.now a).trans h
  · cases p with
    | sequence s => exact Stepper.rest_does (s.does_respond m hc) h
    | arpeggio p =>
      obtain ⟨hdoes, hkeyed⟩ := Arpeggio.does_respond h.1 m hc
      exact ⟨hkeyed, Stepper.rest_does hdoes h.2⟩
    | loop l => exact Loop.rest_does (l.does_respond m hc) h m.now
    | track t => exact (perform_track t m c m.now a).trans h

theorem Armed.respond (h : p.Armed a) (m : Moment) {c : Call} (hc : c ≠ .wake) :
    (p.respond m c).1.Armed (a.perform m.now (p.respond m c).2) := by
  cases p with
  | sequence s => exact h.does (s.does_respond m hc)
  | arpeggio p =>
    obtain ⟨hdoes, hkeyed⟩ := Arpeggio.does_respond h.1 m hc
    exact ⟨hkeyed, h.2.does hdoes⟩
  | loop l => exact h.does (l.does_respond m hc) m.now
  | track t => exact (perform_track t m c m.now a).trans h

theorem Armed.wake {tick : Nat} (h : p.Armed (⟨tick, none⟩ :: a)) (m : Moment) :
    (p.respond m .wake).1.Armed (a.perform m.now (p.respond m .wake).2) := by
  cases p with
  | sequence s => exact h.wakes (s.wakes_wake m)
  | arpeggio p =>
    obtain ⟨hwakes, hkeyed⟩ := Arpeggio.wakes_wake h.1 m
    exact ⟨hkeyed, h.2.wakes hwakes⟩
  | loop l => exact h.wakes l.wakes_wake m.now
  | track t => cases (show ⟨tick, none⟩ :: a = [] from h)

/-- A player that is dismissed takes with it what it has queued. -/
theorem Tidy.dismiss (h : p.Tidy a) (m : Moment) :
    a.perform m.now (p.respond m .dismiss).2 = [] := by
  have htidy := h.respond m .dismiss
  cases p with
  | sequence s => exact htidy (s.stops_or_rests m).2
  | arpeggio p => exact htidy.2 (p.does_letGo m).2.1
  | loop l => rfl
  | track t => exact htidy

theorem Tidy.tail {x : Slot} (h : p.Tidy (x :: a)) : p.Tidy a := by
  have hcons : ∀ {b : Prop}, x :: a = [] → b := nofun
  cases p with
  | sequence s => exact fun hs => hcons (h hs)
  | arpeggio p => exact ⟨h.1, fun hp => hcons (h.2 hp)⟩
  | loop l => exact fun hl => hcons (h hl)
  | track t => exact hcons h

theorem Armed.tail {tick : Nat} {e : Event} (h : p.Armed (⟨tick, some e⟩ :: a)) : p.Armed a := by
  cases p with
  | sequence s => exact Stepper.Armed.tail h
  | arpeggio p => exact ⟨h.1, h.2.tail⟩
  | loop l => exact Loop.Armed.tail h
  | track t => cases (show ⟨tick, some e⟩ :: a = [] from h)

end Player

/-! ## Along a life -/

namespace Part

/-- A player that is gone leaves nothing queued. -/
def Tidy : Part → Prop
  | ⟨some p, a⟩ => p.Tidy a
  | ⟨none, a⟩ => a = []

def Armed : Part → Prop
  | ⟨some p, a⟩ => p.Armed a
  | ⟨none, a⟩ => a = []

end Part

/-- Whatever happens to a player, also where it is woken out of turn. -/
theorem Life.tidy {r : Conduct} {d : PlayerDef} {busy : Bool} {now : Nat} {p : Part}
    {played : List Played} (h : Life r d busy now p played) : p.Tidy := by
  induction h with
  | born busy now config rate hvalid => exact (Player.armed_make d config rate).tidy
  | steps _ _ hs ih =>
    cases hs with
    | stays => exact ih
    | answers c => exact Player.Tidy.respond ih _ c
    | leaves => exact Player.Tidy.dismiss ih _
  | @turns busy m p q _ _ _ ht ih =>
    cases ht with
    | @plays player a tick e =>
      cases player with
      | none => cases (show _ :: a = [] from ih)
      | some player => exact Player.Tidy.tail ih
    | wakes => exact (Player.Tidy.tail ih).respond _ .wake
    | lost => cases (show _ :: _ = [] from ih)
  | passes _ _ _ ih => exact ih
  | settles _ _ ih => exact ih

/-- As long as players are woken by their callbacks only. -/
theorem Life.armed {r : Conduct} (hr : ¬ r.wakes) {d : PlayerDef} {busy : Bool} {now : Nat}
    {p : Part} {played : List Played} (h : Life r d busy now p played) : p.Armed := by
  induction h with
  | born busy now config rate hvalid => exact Player.armed_make d config rate
  | @steps busy m p q _ _ _ _ hs ih =>
    cases hs with
    | stays => exact ih
    | answers c hc =>
      refine Player.Armed.respond ih _ ?_
      rintro rfl
      exact hr hc
    | leaves => exact Player.Tidy.dismiss (Player.Armed.tidy ih) _
  | @turns busy m p q _ _ _ ht ih =>
    cases ht with
    | @plays player a tick e =>
      cases player with
      | none => cases (show _ :: a = [] from ih)
      | some player => exact Player.Armed.tail ih
    | wakes => exact Player.Armed.wake ih _
    | lost => cases (show _ :: _ = [] from ih)
  | passes _ _ _ ih => exact ih
  | settles _ _ ih => exact ih

end MidiRig
