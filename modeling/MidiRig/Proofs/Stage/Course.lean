import MidiRig.Proofs.Player.Callbacks
import MidiRig.Proofs.Player.Place
import MidiRig.Proofs.Stage.Passes

/-!
# The course of a loop

However a loop has come to play, it plays on from the last time that it found its place: pass after
pass, each entry in its turn (`Loop.Course`). What is queued and lies ahead are the entries that it
has come to since then and that are not due yet, also where the clock has been set past some of
them. This holds all along its life (`Life.onCourse`), because a call either leaves what it plays as
it is or lets it find its place anew (`Loop.answers_respond`).
-/

namespace MidiRig

/-! ## A callback among events -/

namespace Agenda

variable {callback tick : ℕ} {queued : List Timed} {a : Agenda}

theorem of_put_callback
    (h : put ⟨callback, none⟩ (queued.map Timed.slot) = ⟨tick, none⟩ :: a) :
    tick = callback ∧ a = queued.map Timed.slot := by
  cases queued with
  | nil =>
    cases h
    exact ⟨rfl, rfl⟩
  | cons y rest =>
    rw [List.map_cons, put] at h
    split at h
    · cases h
    · cases h
      exact ⟨rfl, rfl⟩

theorem of_put_event {e : Event}
    (h : put ⟨callback, none⟩ (queued.map Timed.slot) = ⟨tick, some e⟩ :: a) :
    ∃ rest, queued = ⟨tick, e⟩ :: rest ∧ a = put ⟨callback, none⟩ (rest.map Timed.slot) := by
  cases queued with
  | nil => cases h
  | cons y rest =>
    rw [List.map_cons, put] at h
    split at h
    · cases h
      exact ⟨rest, rfl, rfl⟩
    · cases h

end Agenda

namespace Loop

variable {l k base : Loop} {m : Moment} {xs : List Action}

/-! ## Answers to calls -/

/-- What a call does to how a loop plays: it does not play after it, goes on as it did, begins a
first pass, or finds its place again. -/
inductive Answers (l : Loop) (m : Moment) (xs : List Action) (k : Loop) : Prop where
  | silent (hk : k.playing = false)
  | rests (recording : Bool) (layers : List Layer) (hk : k = { l with recording, layers })
      (hxs : xs = [])
  | starts (base : Loop) (recording : Bool) (layers : List Layer)
      (hk : k = { (base.startPlaying m).1 with recording, layers })
      (hxs : xs = (base.startPlaying m).2)
  | resumes (base : Loop) (hplaying : base.playing = true) (hk : k = (base.resync m).1)
      (hxs : xs = (base.resync m).2)

theorem answers_play (l : Loop) (loops : Float) (m : Moment) :
    Answers l m (l.play loops m).2 (l.play loops m).1 := by
  unfold play
  split
  · exact .silent rfl
  · next passes _ =>
    split
    · exact .rests _ _ rfl rfl
    · exact .starts { l with passes } _ _ rfl rfl

/-- At a new tempo, and with the pass begun as long ago as the place then takes. -/
def retimed (l : Loop) (bpm : Float) (now : ℕ) : Loop :=
  { l with
    tempo := l.tempo.setBpm bpm
    passStart := now - (l.tempo.setBpm bpm).roundTicks ((l.align now).beatAt now) }

theorem setTempo_eq (hplaying : l.playing = true) (bpm : Float) (m : Moment) :
    l.setTempo bpm m = (l.retimed bpm m.now).resync m := by
  have hsame : ∀ place, { l.align m.now with
      tempo := l.tempo.setBpm bpm
      passStart := m.now - (l.tempo.setBpm bpm).roundTicks place } =
        { l with
          tempo := l.tempo.setBpm bpm
          passStart := m.now - (l.tempo.setBpm bpm).roundTicks place } := by
    intro place
    unfold align
    split
    · rfl
    · simp only
      split <;> rfl
  unfold setTempo
  rw [if_neg (by simp [hplaying])]
  exact congrArg (resync · m) (hsame _)

theorem answers_setTempo (l : Loop) (bpm : Float) (m : Moment) :
    Answers l m (l.setTempo bpm m).2 (l.setTempo bpm m).1 := by
  cases hplaying : l.playing with
  | false =>
    refine .silent ?_
    unfold setTempo
    rw [if_pos (by simp [hplaying])]
    exact hplaying
  | true =>
    have hresync := setTempo_eq hplaying bpm m
    exact .resumes (l.retimed bpm m.now) hplaying (congrArg Prod.fst hresync)
      (congrArg Prod.snd hresync)

theorem answers_add (l : Loop) (e : Event) (m : Moment) : Answers l m [] (l.add e m) := by
  unfold add
  split <;> exact .rests _ _ rfl rfl

theorem answers_startRecording (l : Loop) (m : Moment) :
    Answers l m (l.startRecording m).2 (l.startRecording m).1 := by
  unfold startRecording
  split
  · exact .rests _ _ rfl rfl
  · by_cases hplaying : l.playing = true
    · rw [if_pos hplaying]
      exact .rests _ _ rfl rfl
    · rw [if_neg hplaying]
      by_cases hknown : l.beats.isSome = true
      · rw [if_pos hknown]
        exact .starts l _ _ rfl rfl
      · rw [if_neg hknown]
        exact .silent (by simpa using hplaying)

theorem answers_stopRecording (l : Loop) (keep : Option ℕ) (m : Moment) :
    Answers l m (l.stopRecording keep m).2 (l.stopRecording keep m).1 := by
  unfold stopRecording
  simp only
  split
  · unfold becomeEmpty
    simp only
    split
    · exact .silent rfl
    · next hsilent => exact .silent (by simpa using hsilent)
  · split
    · next hplaying => exact .resumes _ hplaying rfl rfl
    · next hsilent =>
      split
      · exact .starts _ _ _ rfl rfl
      · exact .silent (by simpa using hsilent)

theorem answers_record (l : Loop) (value : Float) (m : Moment) :
    Answers l m (l.record value m).2 (l.record value m).1 := by
  unfold record
  split
  · exact answers_startRecording l m
  · split
    · exact answers_stopRecording l none m
    · split
      · exact answers_stopRecording l _ m
      · exact .rests _ _ rfl rfl

theorem answers_respond (l : Loop) (m : Moment) {c : Call} (hc : c ≠ .wake) :
    Answers l m (l.respond m c).2 (l.respond m c).1 := by
  cases c with
  | play loops => exact answers_play l loops m
  | tempo bpm => exact answers_setTempo l bpm m
  | record value => exact answers_record l value m
  | add e => exact answers_add l e m
  | dismiss => exact .silent rfl
  | wake => exact absurd rfl hc
  | _ => exact .rests _ _ rfl rfl

/-! ## Courses -/

variable {length first passes callback now later : ℕ} {queued : List Timed} {beats : Float}

/-- The entries that a loop has come to, from the beginning of an earlier pass. -/
def behind (l : Loop) (length first passes : ℕ) : List Timed :=
  l.passEntries length first passes ++ (l.entries l.passStart 0).take l.next

/-- A loop that waits for a callback, with events queued, so many passes after one that began at a
tick. -/
structure Course (l : Loop) (length first passes callback now : ℕ) (queued : List Timed) : Prop where
  atEnd : l.atEnd = l.timeline[l.next]?.isNone
  start : l.passStart = first + passes * length
  begun : first ≤ now
  ordered : Timed.Ordered queued
  before : ∀ y ∈ queued, y.tick ≤ max now (l.due length l.passStart l.next)
  callback : callback = l.due length l.passStart l.next - l.lag ∨ callback ≤ now
  queued : Timed.after now queued = Timed.after now (l.behind length first passes)

theorem Course.mono (h : l.Course length first passes callback now queued) (hle : now ≤ later) :
    l.Course length first passes callback later queued := by
  have hbegun := h.begun
  have hcallback := h.callback
  refine ⟨h.atEnd, h.start, by omega, h.ordered, fun y hy => ?_, by omega, ?_⟩
  · have := h.before y hy
    omega
  · rw [← Timed.after_after hle, h.queued, Timed.after_after hle]

/-- What is due leaves the queue. -/
theorem Course.tail {y : Timed} (h : l.Course length first passes callback now (y :: queued))
    (hy : y.tick ≤ now) : l.Course length first passes callback now queued := by
  refine ⟨h.atEnd, h.start, h.begun, h.ordered.tail,
    fun z hz => h.before z (List.mem_cons_of_mem _ hz), h.callback, ?_⟩
  rw [← h.queued, Timed.after_cons_of_le hy]

theorem rearm_eq (base : Loop) (hplaying : base.playing = true) (hlength : base.passTicks? = some length) :
    base.rearm = (base.waiting base.passStart base.next base.passes,
      [.cancel, .callback (base.due length base.passStart base.next - base.lag)]) := by
  have hstanding : base.standing base.passStart base.next base.passes =
      { base with atEnd := false } := by
    unfold standing
    rw [← hplaying]
  have harm := arm_standing hlength base.passStart base.next base.passes
  rw [hstanding] at harm
  unfold rearm
  rw [harm]

/-- A loop that has found its place, with nothing queued yet. -/
theorem course_rearm (base : Loop) (hplaying : base.playing = true)
    (hlength : base.passTicks? = some length) (hstart : base.passStart ≤ now)
    (hbehind : ∀ x ∈ base.timeline.take base.next,
      base.passStart + base.tempo.roundTicks x.1 ≤ now)
    (recording : Bool) (layers : List Layer) (a : Agenda) :
    ∃ callback, Agenda.perform now a base.rearm.2 = Agenda.put ⟨callback, none⟩ [] ∧
      Course { base.rearm.1 with recording, layers } length base.passStart 0 callback now [] := by
  rw [rearm_eq base hplaying hlength, waiting_eq hlength]
  refine ⟨max (base.due length base.passStart base.next - base.lag) now, rfl, ?_⟩
  refine ⟨rfl, by simp [standing], hstart, List.Pairwise.nil, nofun, ?_, ?_⟩
  · show max (base.due length base.passStart base.next - base.lag) now =
      base.due length base.passStart base.next - base.lag ∨ _
    omega
  · refine (Timed.after_eq_nil fun y hy => ?_).symm
    have htake : y ∈ (base.entries base.passStart 0).take base.next := hy
    unfold entries at htake
    rw [List.drop_zero, ← List.map_take] at htake
    obtain ⟨x, hx, rfl⟩ := List.mem_map.mp htake
    exact hbehind x hx

/-- A loop that begins a first pass. -/
theorem course_startPlaying (hlength : base.passTicks? = some length) (recording : Bool)
    (layers : List Layer) (m : Moment) (a : Agenda) :
    ∃ callback, Agenda.perform m.now a (base.startPlaying m).2 = Agenda.put ⟨callback, none⟩ [] ∧
      Course { (base.startPlaying m).1 with recording, layers } length m.now 0 callback m.now [] :=
  course_rearm { base with playing := true, passStart := m.now, next := 0 } rfl hlength
    le_rfl nofun recording layers a

/-- A loop that finds its place again. -/
theorem course_resync (hplaying : base.playing = true) (hregular : base.Regular beats length)
    (m : Moment) (hnow : m.now < 2 ^ 50) (a : Agenda) :
    ∃ callback, Agenda.perform m.now a (base.resync m).2 = Agenda.put ⟨callback, none⟩ [] ∧
      Course (base.resync m).1 length (base.align m.now).passStart 0 callback m.now [] := by
  obtain ⟨hstart, hend⟩ := align_mem hregular.length m.now
  have haligned := align_eq hregular.length m.now
  have hsame : (base.align m.now).Regular beats length := by
    rw [haligned]
    exact hregular.of_same rfl rfl rfl
  refine course_rearm { base.align m.now with
    next := (base.align m.now).timeline.countBefore ((base.align m.now).beatAt m.now) }
    ((align_playing base m.now).trans hplaying) hsame.length hstart (fun x hx => ?_) _ _ a
  exact hsame.due_le_of_mem_take hnow hstart hend hx

/-! ## Callbacks on the course -/

theorem Course.waits (h : l.Course length first passes callback now queued)
    (hplaying : l.playing = true) (hlength : l.passTicks? = some length) :
    l.waiting l.passStart l.next l.passes = l := by
  rw [waiting_eq hlength, ← h.atEnd]
  unfold standing
  rw [← hplaying]

theorem after_max (now tick : ℕ) (e : Event) :
    Timed.after now [⟨max tick now, e⟩] = Timed.after now [⟨tick, e⟩] := by
  rcases Nat.le_total tick now with hle | hle
  · rw [Timed.after_cons_of_le (Nat.max_le.mpr ⟨hle, le_rfl⟩), Timed.after_cons_of_le hle]
  · rw [Nat.max_eq_left hle]

/-- The callback for an entry. -/
theorem Course.entry (h : l.Course length first passes callback now queued)
    (hregular : l.Regular beats length) {x : Float × Event} (hx : l.timeline[l.next]? = some x) :
    ∃ callback queued',
      Agenda.perform now (queued.map Timed.slot)
          [.event x.2 (l.passStart + l.tempo.roundTicks x.1),
            .callback (l.due length l.passStart (l.next + 1) - l.lag)] =
        Agenda.put ⟨callback, none⟩ (queued'.map Timed.slot) ∧
      (l.waiting l.passStart (l.next + 1) l.passes).Course length first passes callback now
        queued' := by
  have hdue := due_entry length l.passStart hx
  have hstep := due_le_due_succ hregular.ordered hregular.known hregular.fits hregular.length
    l.passStart hx
  have hbefore : ∀ y ∈ queued, y.tick ≤ max (l.passStart + l.tempo.roundTicks x.1) now := by
    intro y hy
    have := h.before y hy
    omega
  rw [waiting_eq hregular.length]
  refine ⟨_, _, perform_entry hbefore x.2 _, rfl, h.start, h.begun, ?_, ?_, ?_, ?_⟩
  · refine List.pairwise_append.mpr ⟨h.ordered, List.pairwise_singleton _ _, ?_⟩
    intro y hy z hz
    rw [List.mem_singleton.mp hz]
    exact hbefore y hy
  · show ∀ y ∈ queued ++ [(⟨_, x.2⟩ : Timed)],
      y.tick ≤ max now (l.due length l.passStart (l.next + 1))
    intro y hy
    rcases List.mem_append.mp hy with hy | hy
    · have := h.before y hy
      omega
    · rw [List.mem_singleton.mp hy]
      simp only
      omega
  · show max now (l.due length l.passStart (l.next + 1) - l.lag) =
      l.due length l.passStart (l.next + 1) - l.lag ∨ _
    omega
  · have htake : (l.entries l.passStart 0).take (l.next + 1) =
        (l.entries l.passStart 0).take l.next ++
          [⟨l.passStart + l.tempo.roundTicks x.1, x.2⟩] := by
      unfold entries
      rw [List.drop_zero, List.take_add_one, List.getElem?_map, hx]
      rfl
    show _ = Timed.after now (l.passEntries length first passes ++
      (l.entries l.passStart 0).take (l.next + 1))
    rw [htake, ← List.append_assoc, Timed.after_append, Timed.after_append, h.queued, after_max]
    rfl

/-- The callback for the end of a pass that is not the last. -/
theorem Course.turnOver (h : l.Course length first passes callback now queued)
    (hregular : l.Regular beats length) (hnone : l.timeline[l.next]? = none) (after : Option ℕ) :
    ∃ callback,
      Agenda.perform now (queued.map Timed.slot)
          [.callback (l.due length (l.passStart + length) 0 - l.lag)] =
        Agenda.put ⟨callback, none⟩ (queued.map Timed.slot) ∧
      (l.waiting (l.passStart + length) 0 after).Course length first (passes + 1) callback now
        queued := by
  have hstart := h.start
  have hdue := due_end length l.passStart hnone
  rw [waiting_eq hregular.length]
  refine ⟨_, rfl, rfl, ?_, h.begun, h.ordered, fun y hy => ?_, ?_, ?_⟩
  · show l.passStart + length = first + (passes + 1) * length
    rw [Nat.succ_mul]
    omega
  · have hbefore := h.before y hy
    have hnext := l.le_due length (l.passStart + length) 0
    show y.tick ≤ max now (l.due length (l.passStart + length) 0)
    omega
  · show max (l.due length (l.passStart + length) 0 - l.lag) now =
      l.due length (l.passStart + length) 0 - l.lag ∨ _
    omega
  · have hall : (l.entries l.passStart 0).take l.next = l.entries l.passStart 0 := by
      refine List.take_of_length_le ?_
      unfold entries
      rw [List.length_map, List.drop_zero]
      exact List.getElem?_eq_none_iff.mp hnone
    show _ = Timed.after now (l.passEntries length first (passes + 1) ++ [])
    rw [h.queued, behind, hall, List.append_nil, passEntries_add, passEntries_one, ← hstart]

/-! ## Along a life -/

/-- While it plays, and as far as its beats can be told from ticks. -/
def OnCourse (l : Loop) (now : ℕ) (a : Agenda) : Prop :=
  l.playing = true → ∀ beats length, l.Regular beats length → now < 2 ^ 50 →
    ∃ first passes callback queued, a = Agenda.put ⟨callback, none⟩ (queued.map Timed.slot) ∧
      l.Course length first passes callback now queued

variable {a : Agenda} {tick : ℕ}

theorem OnCourse.mono (h : l.OnCourse now a) (hle : now ≤ later) : l.OnCourse later a := by
  intro hplaying beats length hregular hlater
  obtain ⟨first, passes, callback, queued, ha, hcourse⟩ :=
    h hplaying beats length hregular (hle.trans_lt hlater)
  exact ⟨first, passes, callback, queued, ha, hcourse.mono hle⟩

/-- An event plays. -/
theorem OnCourse.tail {e : Event} (h : l.OnCourse now (⟨tick, some e⟩ :: a)) (htick : tick ≤ now) :
    l.OnCourse now a := by
  intro hplaying beats length hregular hnow
  obtain ⟨first, passes, callback, queued, ha, hcourse⟩ := h hplaying beats length hregular hnow
  obtain ⟨rest, rfl, rfl⟩ := Agenda.of_put_event ha.symm
  exact ⟨first, passes, callback, rest, rfl, hcourse.tail htick⟩

/-- A loop that is regular after it has found its place was so before. -/
theorem Regular.of_clock (h : k.Regular beats length) (hclock : k.tempo = l.tempo)
    (htape : k.tape = l.tape) : l.Regular beats length :=
  h.of_same hclock.symm (congrArg Tape.beats htape).symm (congrArg Tape.timeline htape).symm

/-- A call. -/
theorem OnCourse.respond (h : l.OnCourse m.now a) {c : Call} (hc : c ≠ .wake) :
    (l.respond m c).1.OnCourse m.now (Agenda.perform m.now a (l.respond m c).2) := by
  have hanswers := answers_respond l m hc
  generalize (l.respond m c).1 = k at hanswers ⊢
  generalize (l.respond m c).2 = xs at hanswers ⊢
  intro hplaying beats length hregular hnow
  cases hanswers with
  | silent hk => exact absurd (hk.symm.trans hplaying) nofun
  | rests recording layers hk hxs =>
    subst hk hxs
    obtain ⟨first, passes, callback, queued, ha, hcourse⟩ :=
      h hplaying beats length (hregular.of_same rfl rfl rfl) hnow
    refine ⟨first, passes, callback, queued, ha, ?_⟩
    exact ⟨hcourse.atEnd, hcourse.start, hcourse.begun, hcourse.ordered, hcourse.before,
      hcourse.callback, hcourse.queued⟩
  | starts base recording layers hk hxs =>
    subst hk hxs
    have hstarted : (base.startPlaying m).1.Regular beats length := hregular.of_same rfl rfl rfl
    have hbase := hstarted.of_clock (l := base) (congrArg Prod.fst (clock_startPlaying base m))
      (tape_startPlaying base m)
    obtain ⟨callback, ha, hcourse⟩ := course_startPlaying hbase.length recording layers m a
    exact ⟨m.now, 0, callback, [], ha, hcourse⟩
  | resumes base hon hk hxs =>
    subst hk hxs
    have hbase := hregular.of_clock (l := base) (steady_resync base m).tempo (tape_resync base m)
    obtain ⟨callback, ha, hcourse⟩ := course_resync hon hbase m hnow a
    exact ⟨_, 0, callback, [], ha, hcourse⟩

/-- A callback. -/
theorem OnCourse.wake (h : l.OnCourse now (⟨tick, none⟩ :: a)) :
    l.wake.1.OnCourse now (Agenda.perform now a l.wake.2) := by
  intro hwoken beats length hregular hnow
  have hbase := hregular.of_clock (l := l) (clock_wake l).1 (tape_wake l)
  have hlength := hbase.length
  cases hplaying : l.playing with
  | false =>
    have hsame : l.wake = (l, []) := by
      unfold Loop.wake
      rw [hplaying]
    rw [hsame, hplaying] at hwoken
    cases hwoken
  | true =>
    obtain ⟨first, passes, callback, queued, ha, hcourse⟩ := h hplaying beats length hbase hnow
    obtain ⟨-, rfl⟩ := Agenda.of_put_callback ha.symm
    have hwaits := hcourse.waits hplaying hlength
    cases hentry : l.timeline[l.next]? with
    | some x =>
      have hwake := wake_waiting_entry hlength l.passStart l.passes hentry
      rw [hwaits] at hwake
      obtain ⟨callback', queued', hqueue, hnext⟩ := hcourse.entry hbase hentry
      rw [hwake]
      exact ⟨first, passes, callback', queued', hqueue, hnext⟩
    | none =>
      cases hleft : leftAfter? l.passes with
      | some after =>
        have hwake := wake_waiting_end hlength l.passStart hleft hentry
        rw [hwaits] at hwake
        obtain ⟨callback', hqueue, hnext⟩ := hcourse.turnOver hbase hentry after
        rw [hwake]
        exact ⟨first, passes + 1, callback', queued, hqueue, hnext⟩
      | none =>
        obtain ⟨k, hwake, hsilent⟩ := wake_waiting_last hlength l.passStart hleft hentry
        rw [hwaits] at hwake
        rw [hwake, hsilent] at hwoken
        cases hwoken

end Loop

/-- As long as the loop is woken by its callbacks only. -/
theorem Life.onCourse {r : Conduct} (hr : ¬ r.wakes) {d : PlayerDef} {busy : Bool} {now : ℕ}
    {p : Part} {played : List Played} (h : Life r d busy now p played) :
    ∀ l, p.player = some (.loop l) → l.OnCourse now p.agenda := by
  induction h with
  | born busy now config rate =>
    intro l hl hplaying
    cases d with
    | loop d =>
      cases hl
      cases hplaying
    | _ => cases hl
  | @steps busy m p q _ _ _ _ hs ih =>
    cases hs with
    | stays => exact ih
    | @answers player a c hc =>
      intro l hl
      cases player with
      | loop =>
        cases hl
        refine (ih _ rfl).respond ?_
        rintro rfl
        exact hr hc
      | _ => cases hl
    | leaves => nofun
  | turns _ ht ih =>
    cases ht with
    | plays e htick => exact fun l hl => (ih l hl).tail htick
    | @wakes player =>
      intro l hl
      cases player with
      | loop =>
        cases hl
        exact (ih _ rfl).wake
      | _ => cases hl
    | lost => nofun
  | passes _ hle _ ih => exact fun l hl => (ih l hl).mono hle
  | settles _ _ ih => exact ih

/-! ## Where nothing is due -/

namespace Loop

variable {l : Loop} {beats : Float} {length first start passes callback now limit : ℕ}
  {queued : List Timed} {a : Agenda}

theorem Course.awaits (h : l.Course length first passes callback now queued)
    (hlate : ∀ y ∈ Agenda.put ⟨callback, none⟩ (queued.map Timed.slot), now < y.tick) :
    callback = max now (l.due length l.passStart l.next - l.lag) ∧
      l.Awaits length l.passStart l.next now queued ∧ ∀ y ∈ queued, now < y.tick := by
  have hnext : now < callback := hlate ⟨callback, none⟩ (Agenda.mem_put.mpr (.inl rfl))
  have hcallback := h.callback
  have hahead : ∀ y ∈ queued, now < y.tick := fun y hy =>
    hlate y.slot (Agenda.mem_put.mpr (.inr (List.mem_map_of_mem hy)))
  refine ⟨by omega, ⟨h.ordered, fun y hy => (hahead y hy).le, fun y hy => ?_, by omega⟩, hahead⟩
  have := h.before y hy
  have := hahead y hy
  omega

/-- What it waits for and what comes after that are the entries that are not due yet. -/
theorem Course.ahead (h : l.Course length first passes callback now queued)
    (hregular : l.Regular beats length)
    (hlate : ∀ y ∈ Agenda.put ⟨callback, none⟩ (queued.map Timed.slot), now < y.tick) (more : ℕ) :
    queued ++ (l.entries l.passStart l.next ++
        l.passEntries length (l.passStart + length) more) =
      Timed.after now (l.passEntries length first (passes + (1 + more))) := by
  obtain ⟨hcallback, -, hahead⟩ := h.awaits hlate
  have hnext : now < callback := hlate ⟨callback, none⟩ (Agenda.mem_put.mpr (.inl rfl))
  have hend := due_le hregular.ordered hregular.known hregular.fits hregular.length l.passStart
    l.next
  have hrest : ∀ y ∈ l.entries l.passStart l.next, now < y.tick := by
    intro y hy
    have hdue : l.due length l.passStart l.next ≤ y.tick :=
      due_le_of_mem_entries hregular.ordered hregular.fits l.passStart hy
    omega
  have hmore : ∀ y ∈ l.passEntries length (l.passStart + length) more, now < y.tick := by
    intro y hy
    have := le_of_mem_passEntries hy
    omega
  have hsplit : (l.entries l.passStart 0).take l.next ++ l.entries l.passStart l.next =
      l.entries l.passStart 0 := by
    unfold entries
    rw [List.drop_zero, ← List.map_take, ← List.map_append, List.take_append_drop]
  calc queued ++ (l.entries l.passStart l.next ++ l.passEntries length (l.passStart + length) more)
    _ = Timed.after now (l.behind length first passes) ++
          (Timed.after now (l.entries l.passStart l.next) ++
            Timed.after now (l.passEntries length (l.passStart + length) more)) := by
      rw [← h.queued, Timed.after_eq_self hahead, Timed.after_eq_self hrest,
        Timed.after_eq_self hmore]
    _ = Timed.after now (l.passEntries length first passes ++ (l.entries l.passStart 0 ++
          l.passEntries length (l.passStart + length) more)) := by
      rw [← Timed.after_append, ← Timed.after_append, behind, List.append_assoc,
        ← List.append_assoc (List.take _ _), hsplit]
    _ = Timed.after now (l.passEntries length first (passes + (1 + more))) := by
      rw [passEntries_add, passEntries_add, passEntries_one, ← h.start, Nat.one_mul]

/-- All entries of some passes are due by their end. -/
theorem Regular.le_of_mem_passEntries (h : l.Regular beats length) {y : Timed}
    (hy : y ∈ l.passEntries length start passes) : y.tick ≤ start + passes * length := by
  obtain ⟨k, hk, hy⟩ := List.mem_flatMap.mp hy
  obtain ⟨x, hx, rfl⟩ := List.mem_map.mp hy
  rw [List.drop_zero] at hx
  have hoffset := h.ordered.offset_le h.known h.fits h.length x hx
  have hpass : (k + 1) * length ≤ passes * length :=
    Nat.mul_le_mul_right _ (List.mem_range.mp hk)
  rw [Nat.succ_mul] at hpass
  show start + k * length + l.tempo.roundTicks x.1 ≤ _
  omega

/-- Of passes that follow each other nothing is ahead before the one in progress. -/
theorem Regular.after_passEntries (h : l.Regular beats length)
    (hstart : start + passes * length ≤ now) (hend : now < start + passes * length + length)
    (more : ℕ) :
    Timed.after now (l.passEntries length start (passes + (1 + more))) =
      Timed.after now (l.entries (start + passes * length) 0) ++
        l.passEntries length (start + passes * length + length) more := by
  have hover : ∀ y ∈ l.passEntries length start passes, y.tick ≤ now := fun y hy =>
    (h.le_of_mem_passEntries hy).trans hstart
  have hlater : ∀ y ∈ l.passEntries length (start + passes * length + length) more,
      now < y.tick := fun y hy => hend.trans_le (Loop.le_of_mem_passEntries hy)
  rw [passEntries_add, Nat.add_comm 1, passEntries_succ, Timed.after_append, Timed.after_append,
    Timed.after_eq_nil hover, List.nil_append, Timed.after_eq_self hlater]

/-- Where nothing is due, the loop plays what is ahead of the pass in progress, and the passes after
it, up to any tick before the callback for the end of the last pass. -/
theorem OnCourse.playsOut (h : l.OnCourse now a) (hplaying : l.playing = true)
    (hregular : l.Regular beats length) (hnow : now < 2 ^ 50) (hlate : ∀ y ∈ a, now < y.tick)
    (hleft : ∀ n, l.passes = some n → limit + l.lag < l.passStart + n * length)
    (hlimit : limit + l.lag < (l.align now).passStart + (passes + 1) * length) :
    PlaysOut (fun _ => True) limit limit now ⟨some (.loop l), a⟩
      (Timed.after now (l.entries (l.align now).passStart 0) ++
        l.passEntries length ((l.align now).passStart + length) passes) := by
  obtain ⟨first, behind, callback, queued, rfl, hcourse⟩ := h hplaying beats length hregular hnow
  obtain ⟨hcallback, hawaits, -⟩ := hcourse.awaits hlate
  have hnext : now < callback := hlate ⟨callback, none⟩ (Agenda.mem_put.mpr (.inl rfl))
  have hdue := due_le hregular.ordered hregular.known hregular.fits hregular.length l.passStart
    l.next
  obtain ⟨_, -, -, hpos⟩ := passTicks?_eq hregular.length
  have hbegun := hcourse.begun
  have hpassStart := hcourse.start
  -- the pass in progress may be some passes before the one that the loop has turned to
  obtain ⟨done, hdone, hend⟩ :
      ∃ done, first + done * length ≤ now ∧ now < first + done * length + length := by
    have hfloor := Nat.div_mul_le_self (now - first) length
    have hceil := Nat.lt_div_mul_add (a := now - first) hpos
    exact ⟨(now - first) / length, by omega, by omega⟩
  obtain ⟨turned, rfl⟩ : ∃ turned, behind = done + turned := by
    refine Nat.exists_eq_add_of_le (Nat.le_of_not_lt fun hlt => ?_)
    have hpasses : (behind + 1) * length ≤ done * length := Nat.mul_le_mul_right _ hlt
    rw [Nat.succ_mul] at hpasses
    omega
  rw [Nat.add_mul, ← Nat.add_assoc] at hpassStart
  have hstart := align_passStart hregular.length hpassStart hdone hend
  rw [hstart, Nat.succ_mul] at hlimit
  have hplays := hawaits.playsOut hregular.ordered hregular.known hregular.fits hregular.length
    hleft (show limit + l.lag < l.passStart + (passes + 1) * length by rw [Nat.succ_mul]; omega)
  have hahead : Timed.upTo limit (queued ++ (l.entries l.passStart l.next ++
      l.passEntries length (l.passStart + length) passes)) =
        Timed.upTo limit (Timed.after now (l.entries (first + done * length) 0) ++
          l.passEntries length (first + done * length + length) passes) := by
    have hcount : done + turned + (1 + passes) = done + (1 + (turned + passes)) := by omega
    have hmore : (turned + passes) * length = turned * length + passes * length := Nat.add_mul _ _ _
    rw [hcourse.ahead hregular hlate, hcount, hregular.after_passEntries hdone hend,
      Timed.upTo_append, Timed.upTo_append,
      upTo_passEntries_congr (by omega)
        (show limit < first + done * length + length + passes * length by omega)]
  unfold PlaysOut waitingPart at hplays
  rw [hcourse.waits hplaying hregular.length, ← hcallback, hahead] at hplays
  rw [hstart]
  exact hplays

end Loop

end MidiRig
