import MidiRig.Proofs.Player.Callbacks

/-!
# Sums of ticks

`Player.sums` lists the sums and products of ticks that a player makes on the way to its answer, in
the order in which it makes them. They are all that there is to the arithmetic of a player: each
tick that it asks for is one of them, the tick that it has come to, or now, and callbacks come the
lag before (`Player.ticks_from_sums`).
-/

namespace MidiRig

namespace Sequence

def playSums (s : Sequence) (loops : Float) (m : Moment) : List Nat :=
  match playCount? loops with
  | none => []
  | some _ => [m.now + s.lag]

def wakeSums (s : Sequence) (m : Moment) : List Nat :=
  if !s.playing then []
  else
    match { s with sounding := s.sounding.prune m.now }.choose? with
    | some chosen => [chosen.nextTick + chosen.stepTicks]
    | none => []

def sums (s : Sequence) (m : Moment) : Call → List Nat
  | .play loops => s.playSums loops m
  | .wake => s.wakeSums m
  | _ => []

end Sequence

namespace Arpeggio

def emitSums (a : Arpeggio) : List Nat :=
  if a.notes.isEmpty then [] else [a.nextTick + a.stepTicks]

def startSums (a : Arpeggio) (m : Moment) : List Nat :=
  if a.style = .chord then { a with step := 0, nextTick := m.now }.emitSums else [m.now + a.lag]

def addSums (a : Arpeggio) (e : Event) (m : Moment) : List Nat :=
  if e.kind ≠ .note ∧ e.kind ≠ .noteOff then []
  else
    let held := holdKey a.held e
    if a.held.isEmpty && !held.isEmpty then
      { a with held, notes := a.style.arrange held }.startSums m
    else []

def wakeSums (a : Arpeggio) : List Nat := if a.playing then a.emitSums else []

def sums (a : Arpeggio) (m : Moment) : Call → List Nat
  | .add e => a.addSums e m
  | .wake => a.wakeSums
  | _ => []

end Arpeggio

namespace Loop

/-- A number of whole passes, and the pass that begins after them. -/
def alignSums (l : Loop) (now : Nat) : List Nat :=
  match l.passTicks? with
  | none => []
  | some length =>
    if now < l.passStart then [(l.passStart - now + (length - 1)) / length * length]
    else [(now - l.passStart) / length * length,
      l.passStart + (now - l.passStart) / length * length]

def armSums (l : Loop) : List Nat :=
  match l.passTicks? with
  | none => []
  | some length =>
    match l.timeline[l.next]? with
    | some entry => [l.tickOf entry.1]
    | none => [l.passStart + length]

def startPlayingSums (l : Loop) (m : Moment) : List Nat :=
  { l with passStart := m.now, next := 0 }.armSums

def resyncSums (l : Loop) (m : Moment) : List Nat :=
  let aligned := l.align m.now
  l.alignSums m.now ++
    { aligned with next := aligned.timeline.countBefore (aligned.beatAt m.now) }.armSums

def turnOverSums (l : Loop) (length : Nat) : List Nat :=
  (l.passStart + length) :: match l.passes with
  | none => (l.nextPass length).armSums
  | some left => if left ≤ 1 then [] else (l.nextPass length).armSums

def playNextSums (l : Loop) : List Nat :=
  match l.timeline[l.next]? with
  | some entry => l.tickOf entry.1 :: { l with next := l.next + 1 }.armSums
  | none => l.armSums

def wakeSums (l : Loop) : List Nat :=
  match l.playing, l.passTicks? with
  | true, some length => if l.atEnd then l.turnOverSums length else l.playNextSums
  | _, _ => []

def playSums (l : Loop) (loops : Float) (m : Moment) : List Nat :=
  match playCount? loops with
  | none => []
  | some _ => if l.beats.isNone then [] else l.startPlayingSums m

/-- Under a new tempo the pass is found twice. -/
def setTempoSums (l : Loop) (bpm : Float) (m : Moment) : List Nat :=
  if !l.playing then []
  else
    let aligned := l.align m.now
    let tempo := l.tempo.setBpm bpm
    let offset := tempo.roundTicks (aligned.beatAt m.now)
    l.alignSums m.now ++ { aligned with tempo, passStart := m.now - offset }.resyncSums m

def startRecordingSums (l : Loop) (m : Moment) : List Nat :=
  if l.recording || l.playing || l.beats.isNone then [] else l.startPlayingSums m

def stopRecordingSums (l : Loop) (keep : Option Nat) (m : Moment) : List Nat :=
  let kept := (l.endLayer m).keepLayers keep
  if kept.layers.isEmpty then []
  else if kept.playing then kept.resyncSums m
  else if l.recording then kept.startPlayingSums m
  else []

def recordSums (l : Loop) (value : Float) (m : Moment) : List Nat :=
  if value > 0.0 then l.startRecordingSums m
  else if value == 0.0 then l.stopRecordingSums none m
  else if value < 0.0 then
    let undone := Binary64.toWord64 (Binary64.round value.abs)
    l.stopRecordingSums (some (l.layers.length - undone)) m
  else []

def sums (l : Loop) (m : Moment) : Call → List Nat
  | .play loops => l.playSums loops m
  | .tempo bpm => l.setTempoSums bpm m
  | .record value => l.recordSums value m
  | .wake => l.wakeSums
  | _ => []

/-- Tick that a loop counts on from: where the pass begins, or ends if it only waits for that. -/
def front (l : Loop) : Nat := l.passStart + if l.atEnd then l.passTicks?.getD 0 else 0

end Loop

namespace Player

def lag : Player → Nat
  | sequence s => s.lag
  | arpeggio a => a.lag
  | loop l => l.lag
  | track _ => 0

/-- Tick that a player counts on from. -/
def front : Player → Nat
  | sequence s => s.nextTick
  | arpeggio a => a.nextTick
  | loop l => l.front
  | track _ => 0

/-- Sums and products of ticks on the way to an answer. Tracks count positions in a file, not
ticks. -/
def sums (p : Player) (m : Moment) (c : Call) : List Nat :=
  match p with
  | sequence s => s.sums m c
  | arpeggio a => a.sums m c
  | loop l => l.sums m c
  | track _ => []

end Player

/-! ## What is asked for is one of the sums -/

/-- Whether an action is for one of these ticks; a callback is due the lag before. -/
def Action.From (ticks : List Nat) (lag : Nat) : Action → Prop
  | .event _ tick => tick ∈ ticks
  | .callback tick => ∃ n ∈ ticks, tick = n - lag
  | _ => True

theorem Action.From.mono {x : Action} {xs ys : List Nat} {lag : Nat} (h : x.From xs lag)
    (hsub : xs ⊆ ys) : x.From ys lag := by
  cases x with
  | event => exact hsub h
  | callback =>
    obtain ⟨n, hn, htick⟩ := h
    exact ⟨n, hsub hn, htick⟩
  | _ => trivial

theorem from_strikes {ticks : List Nat} {lag length tick : Nat} (events : List Event)
    (htick : tick ∈ ticks) (hend : tick + length ∈ ticks) :
    ∀ x ∈ events.flatMap (strike length tick), x.From ticks lag := by
  intro x hx
  obtain ⟨e, -, hx⟩ := List.mem_flatMap.mp hx
  unfold strike noteOffs at hx
  rcases List.mem_cons.mp hx with rfl | hx
  · exact htick
  · split at hx
    · obtain rfl := List.mem_singleton.mp hx
      exact hend
    · cases hx

theorem from_release {ticks : List Nat} {lag : Nat} (s : Sounding) (now : Nat) :
    ∀ x ∈ s.release now, x.From ticks lag := by
  intro x hx
  obtain ⟨off, -, rfl⟩ := List.mem_map.mp hx
  trivial

theorem Stepper.from_stepActions {ticks : List Nat} (p : Stepper) (events : List Event)
    {tick length : Nat} (htick : tick ∈ ticks) (hend : tick + length ∈ ticks) :
    ∀ x ∈ p.stepActions events tick length, x.From ticks p.lag :=
  List.forall_mem_append.mpr ⟨from_strikes events htick hend,
    List.forall_mem_singleton.mpr ⟨_, hend, rfl⟩⟩

namespace Sequence

theorem from_stopIfPlaying (s : Sequence) (m : Moment) (ticks : List Nat) (lag : Nat) :
    ∀ x ∈ (s.stopIfPlaying m).2, x.From ticks lag := by
  unfold stopIfPlaying
  split
  · exact List.forall_mem_cons.mpr ⟨trivial, from_release s.sounding m.now⟩
  · exact List.forall_mem_nil _

theorem from_play (s : Sequence) (loops : Float) (m : Moment) :
    ∀ x ∈ (s.play loops m).2, x.From (m.now :: s.nextTick :: s.playSums loops m) s.lag := by
  unfold play playSums
  cases playCount? loops with
  | none => exact s.from_stopIfPlaying m _ _
  | some passes =>
    refine List.forall_mem_append.mpr ⟨s.from_stopIfPlaying m _ _,
      List.forall_mem_singleton.mpr ?_⟩
    exact ⟨m.now + s.lag, by simp, (Nat.add_sub_cancel ..).symm⟩

theorem from_wake (s : Sequence) (m : Moment) :
    ∀ x ∈ (s.wake m).2, x.From (m.now :: s.nextTick :: s.wakeSums m) s.lag := by
  unfold wake wakeSums
  split
  · exact List.forall_mem_nil _
  simp only
  cases hchoose : { s with sounding := s.sounding.prune m.now }.choose? with
  | none => exact List.forall_mem_cons.mpr ⟨trivial, from_release _ m.now⟩
  | some chosen =>
    obtain ⟨-, hlag, hnext⟩ := choose?_eq_some hchoose
    change chosen.lag = s.lag at hlag
    change chosen.nextTick = s.nextTick at hnext
    rw [← hlag, ← hnext]
    exact chosen.stepper.from_stepActions chosen.stepEvents (by simp) (by simp)

theorem from_sums (s : Sequence) (m : Moment) (c : Call) :
    ∀ x ∈ (s.respond m c).2, x.From (m.now :: s.nextTick :: s.sums m c) s.lag := by
  cases c with
  | play loops => exact s.from_play loops m
  | dismiss => exact s.from_stopIfPlaying m _ _
  | wake => exact s.from_wake m
  | _ => exact List.forall_mem_nil _

end Sequence

namespace Arpeggio

theorem from_emit (a : Arpeggio) (now : Nat) :
    ∀ x ∈ a.emit.2, x.From (now :: a.nextTick :: a.emitSums) a.lag := by
  unfold emit emitSums
  split
  · exact List.forall_mem_nil _
  · exact a.stepper.from_stepActions a.stepEvents (by simp) (by simp)

theorem from_start (a : Arpeggio) (m : Moment) :
    ∀ x ∈ (a.start m).2, x.From (m.now :: a.nextTick :: a.startSums m) a.lag := by
  unfold start startSums
  simp only
  split
  · intro x hx
    refine (from_emit _ m.now x hx).mono ?_
    show m.now :: m.now :: _ ⊆ m.now :: a.nextTick :: _
    intro n hn
    rcases List.mem_cons.mp hn with rfl | hn
    · exact List.mem_cons_self
    · rcases List.mem_cons.mp hn with rfl | hn
      · exact List.mem_cons_self
      · exact List.mem_cons_of_mem _ (List.mem_cons_of_mem _ hn)
  · exact List.forall_mem_singleton.mpr ⟨m.now + a.lag, by simp, (Nat.add_sub_cancel ..).symm⟩

theorem from_letGo (a : Arpeggio) (m : Moment) (ticks : List Nat) (lag : Nat) :
    ∀ x ∈ (a.letGo m).2, x.From ticks lag := by
  unfold letGo
  simp only
  split
  · exact List.forall_mem_cons.mpr ⟨trivial, from_release a.sounding m.now⟩
  · exact List.forall_mem_nil _

theorem from_add (a : Arpeggio) (e : Event) (m : Moment) :
    ∀ x ∈ (a.add e m).2, x.From (m.now :: a.nextTick :: a.addSums e m) a.lag := by
  unfold add addSums
  split
  · exact List.forall_mem_nil _
  simp only
  cases hbefore : a.held.isEmpty <;> cases hafter : (holdKey a.held e).isEmpty
  · exact List.forall_mem_nil _
  · exact List.forall_mem_cons.mpr ⟨trivial, from_release a.sounding m.now⟩
  · exact from_start _ m
  · exact List.forall_mem_nil _

theorem from_wake (a : Arpeggio) (m : Moment) :
    ∀ x ∈ (a.wake m).2, x.From (m.now :: a.nextTick :: a.wakeSums) a.lag := by
  unfold wake wakeSums
  split
  · exact from_emit _ m.now
  · exact List.forall_mem_nil _

theorem from_sums (a : Arpeggio) (m : Moment) (c : Call) :
    ∀ x ∈ (a.respond m c).2, x.From (m.now :: a.nextTick :: a.sums m c) a.lag := by
  cases c with
  | play loops =>
    show ∀ x ∈ (if loops == 0.0 then a.letGo m else (a, [])).2, x.From _ _
    split
    · exact a.from_letGo m _ _
    · exact List.forall_mem_nil _
  | add e => exact a.from_add e m
  | dismiss => exact a.from_letGo m _ _
  | wake => exact a.from_wake m
  | _ => exact List.forall_mem_nil _

end Arpeggio

namespace Loop

theorem from_arm (l : Loop) : ∀ x ∈ l.arm.2, x.From l.armSums l.lag := by
  unfold arm armSums
  cases l.passTicks? with
  | none => exact List.forall_mem_nil _
  | some length =>
    cases l.timeline[l.next]? <;>
      exact List.forall_mem_singleton.mpr ⟨_, List.mem_singleton_self _, rfl⟩

theorem from_rearm (l : Loop) : ∀ x ∈ l.rearm.2, x.From l.armSums l.lag :=
  List.forall_mem_cons.mpr ⟨trivial, from_arm { l with atEnd := false }⟩

theorem from_startPlaying (l : Loop) (m : Moment) :
    ∀ x ∈ (l.startPlaying m).2, x.From (l.startPlayingSums m) l.lag :=
  from_rearm { l with playing := true, passStart := m.now, next := 0 }

theorem lag_align (l : Loop) (now : Nat) : (l.align now).lag = l.lag := by
  unfold align
  split
  · rfl
  · simp only
    split <;> rfl

theorem from_resync (l : Loop) (m : Moment) :
    ∀ x ∈ (l.resync m).2, x.From (l.resyncSums m) l.lag := by
  intro x hx
  have hfrom := from_rearm _ x hx
  rw [show Loop.lag _ = l.lag from l.lag_align m.now] at hfrom
  exact hfrom.mono (List.subset_append_right _ _)

theorem from_turnOver (l : Loop) (length : Nat) :
    ∀ x ∈ (l.turnOver length).2, x.From (l.turnOverSums length) l.lag := by
  unfold turnOver turnOverSums
  cases l.passes with
  | none => exact fun x hx => (from_arm _ x hx).mono (List.subset_cons_self _ _)
  | some left =>
    simp only
    split
    · exact List.forall_mem_singleton.mpr trivial
    · exact fun x hx => (from_arm _ x hx).mono (List.subset_cons_self _ _)

theorem from_playNext (l : Loop) : ∀ x ∈ l.playNext.2, x.From l.playNextSums l.lag := by
  unfold playNext playNextSums
  cases l.timeline[l.next]? with
  | none => exact l.from_arm
  | some entry =>
    exact List.forall_mem_cons.mpr ⟨List.mem_cons_self,
      fun x hx => (from_arm _ x hx).mono (List.subset_cons_self _ _)⟩

theorem from_wake (l : Loop) : ∀ x ∈ l.wake.2, x.From l.wakeSums l.lag := by
  unfold wake wakeSums
  cases l.playing with
  | false => exact List.forall_mem_nil _
  | true =>
    cases l.passTicks? with
    | none => exact List.forall_mem_nil _
    | some length =>
      simp only
      split
      · exact l.from_turnOver length
      · exact l.from_playNext

theorem from_play (l : Loop) (loops : Float) (m : Moment) :
    ∀ x ∈ (l.play loops m).2, x.From (l.playSums loops m) l.lag := by
  unfold play playSums
  cases playCount? loops with
  | none => exact List.forall_mem_singleton.mpr trivial
  | some passes =>
    simp only
    split
    · exact List.forall_mem_nil _
    · exact from_startPlaying { l with passes } m

theorem from_setTempo (l : Loop) (bpm : Float) (m : Moment) :
    ∀ x ∈ (l.setTempo bpm m).2, x.From (l.setTempoSums bpm m) l.lag := by
  unfold setTempo setTempoSums
  split
  · exact List.forall_mem_nil _
  · rw [← l.lag_align m.now]
    exact fun x hx => (from_resync _ m x hx).mono fun n hn => List.mem_append_right _ hn

theorem from_startRecording (l : Loop) (m : Moment) :
    ∀ x ∈ (l.startRecording m).2, x.From (l.startRecordingSums m) l.lag := by
  unfold startRecording startRecordingSums
  cases hrecording : l.recording
  · cases hplaying : l.playing
    · cases hbeats : l.beats
      · exact List.forall_mem_nil _
      · exact l.from_startPlaying m
    · exact List.forall_mem_nil _
  · exact List.forall_mem_nil _

theorem lag_endLayer (l : Loop) (m : Moment) : (l.endLayer m).lag = l.lag := by
  unfold endLayer
  simp only
  split
  · split <;> rfl
  · rfl

theorem from_stopRecording (l : Loop) (keep : Option Nat) (m : Moment) :
    ∀ x ∈ (l.stopRecording keep m).2, x.From (l.stopRecordingSums keep m) l.lag := by
  have hlag : ((l.endLayer m).keepLayers keep).lag = l.lag := l.lag_endLayer m
  unfold stopRecording stopRecordingSums
  simp only
  split
  · unfold becomeEmpty
    simp only
    split
    · exact List.forall_mem_singleton.mpr trivial
    · exact List.forall_mem_nil _
  · split
    · rw [← hlag]
      exact from_resync _ m
    · split
      · rw [← hlag]
        exact from_startPlaying { (l.endLayer m).keepLayers keep with passes := none } m
      · exact List.forall_mem_nil _

theorem from_record (l : Loop) (value : Float) (m : Moment) :
    ∀ x ∈ (l.record value m).2, x.From (l.recordSums value m) l.lag := by
  unfold record recordSums
  split
  · exact l.from_startRecording m
  · split
    · exact l.from_stopRecording none m
    · split
      · exact l.from_stopRecording _ m
      · exact List.forall_mem_nil _

theorem from_sums (l : Loop) (m : Moment) (c : Call) :
    ∀ x ∈ (l.respond m c).2, x.From (l.sums m c) l.lag := by
  cases c with
  | play loops => exact l.from_play loops m
  | tempo bpm => exact l.from_setTempo bpm m
  | record value => exact l.from_record value m
  | wake => exact l.from_wake
  | dismiss => exact List.forall_mem_singleton.mpr trivial
  | _ => exact List.forall_mem_nil _

end Loop

theorem Track.from_respond (t : Track) (m : Moment) (c : Call) (ticks : List Nat) (lag : Nat) :
    ∀ x ∈ (t.respond m c).2, x.From ticks lag := by
  intro x hx
  have hfile := t.isFile_respond m c x hx
  cases x with
  | event | callback => cases hfile
  | _ => trivial

/-- Whatever a player queues, it queues for now, for the tick that it has come to, or for a sum. -/
theorem Player.ticks_from_sums (p : Player) (m : Moment) (c : Call) :
    ∀ x ∈ (p.respond m c).2, x.From (m.now :: p.front :: p.sums m c) p.lag := by
  cases p with
  | sequence s => exact s.from_sums m c
  | arpeggio a => exact a.from_sums m c
  | loop l =>
    intro x hx
    refine (l.from_sums m c x hx).mono fun n hn => ?_
    exact List.mem_cons_of_mem _ (List.mem_cons_of_mem _ hn)
  | track t => exact t.from_respond m c _ _

end MidiRig
