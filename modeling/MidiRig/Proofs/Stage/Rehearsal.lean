import MidiRig.Proofs.Player.Undo
import MidiRig.Proofs.Stage.Move
import MidiRig.Stage.Rehearsal

/-!
# Loops in rehearsal

A rehearsal of a loop is used by calls, by ending its recording, by letting time pass and by using
its engine apart from the queue (`Rehearsal.uses`). When all layers are undone there is nothing left
of the loop and nothing is queued for it (`Rehearsal.undo_all`). From then on it goes like the
rehearsal of a new loop, unless a recording starts it with a count of passes that is left over
(`Rehearsal.undone_count_is_left`).
-/

namespace MidiRig

/-- What can be done in a rehearsal. -/
inductive RehearsalUse where
  | call (c : Call)
  | stopRecording (keep : Option Nat)
  /-- What is due up to a tick is delivered. -/
  | run (limit : Nat)
  | engine (u : EngineUse)

namespace Rehearsal

variable {r s : Rehearsal} {counted : Prop}

/-- What a use delivers and what it leaves. -/
def use (r : Rehearsal) : RehearsalUse → List Item × Rehearsal
  | .call c => ([], r.call c)
  | .stopRecording keep => ([], r.stopRecording keep)
  | .run limit => r.run limit
  | .engine u => ([], { r with engine := r.engine.use u })

/-- What uses in turn deliver, and what they leave. -/
def uses (r : Rehearsal) : List RehearsalUse → List (List Item) × Rehearsal
  | [] => ([], r)
  | u :: rest => ((r.use u).1 :: ((r.use u).2.uses rest).1, ((r.use u).2.uses rest).2)

/-! ## A loop with its engine -/

/-- A loop as it was made but for what has been done to it, with nothing queued unless it plays. -/
structure Rehearses (d : LoopDef) (config : SequencerConfig) (rate : Float) (r : Rehearsal)
    (l : Loop) : Prop where
  player : r.player = .loop l
  ticks : r.engine.ticksPerSecond = rate
  made : l.Made d config rate
  known : l.Known
  rest : l.playing = false → r.engine.queue.agenda playerId = []

variable {d : LoopDef} {config : SequencerConfig} {rate : Float} {l k : Loop}

theorem rehearses_make (d : LoopDef) (config : SequencerConfig) (rate : Float) :
    (make (.loop d) config rate).Rehearses d config rate (.make d config rate) :=
  ⟨rfl, rfl, Loop.made_make d config rate, id, fun _ => rfl⟩

/-- Its answer to an operation is performed. -/
theorem Rehearses.take (h : r.Rehearses d config rate l) {actions : List Action}
    (hedits : Loop.Edits r.engine.moment l k)
    (hrest : k.playing = false →
      (r.engine.queue.agenda playerId).perform r.engine.now actions = []) :
    (r.take (.loop k, actions)).Rehearses d config rate k := by
  refine ⟨rfl, (Engine.rate_perform _ _ _).trans h.ticks, hedits.made h.made, hedits.known h.known,
    fun hsilent => ?_⟩
  show (r.engine.perform playerId actions).queue.agenda playerId = []
  rw [Engine.agenda_perform_self]
  exact hrest hsilent

theorem Rehearses.call (h : r.Rehearses d config rate l) (c : Call) :
    (r.call c).Rehearses d config rate (l.respond r.engine.moment c).1 := by
  have hcall : r.call c = r.take ((l.respond r.engine.moment c).map .loop id) := by
    unfold Rehearsal.call
    rw [h.player]
    rfl
  rw [hcall]
  refine h.take (Loop.edits_respond l c) fun hsilent => ?_
  by_cases hwake : c = .wake
  · subst hwake
    exact Loop.rest_wakes l.wakes_wake h.rest _ hsilent
  · exact Loop.rest_does (l.does_respond _ hwake) h.rest _ hsilent

theorem Rehearses.stopRecording (h : r.Rehearses d config rate l) (keep : Option Nat) :
    (r.stopRecording keep).Rehearses d config rate (l.stopRecording keep r.engine.moment).1 := by
  have hstop : r.stopRecording keep =
      r.take ((l.stopRecording keep r.engine.moment).map .loop id) := by
    unfold Rehearsal.stopRecording
    rw [h.player]
  rw [hstop]
  exact h.take (Loop.edits_stopRecording l keep)
    (Loop.rest_does (l.does_stopRecording keep _) h.rest _)

theorem Rehearses.engine (h : r.Rehearses d config rate l) (u : EngineUse) :
    Rehearses d config rate { r with engine := r.engine.use u } l := by
  refine ⟨h.player, ?_, h.made, h.known, fun hsilent => ?_⟩
  · rw [← h.ticks]
    cases u <;> rfl
  · have hqueue : (r.engine.use u).queue = r.engine.queue := by cases u <;> rfl
    show (r.engine.use u).queue.agenda playerId = []
    rw [hqueue]
    exact h.rest hsilent

/-! ### Letting time pass -/

theorem run_of_none {limit : Nat} (h : r.engine.popDue? limit = none) :
    r.run limit = ([], r) := by
  rw [run]
  split
  · rfl
  · next heq => rw [h] at heq; cases heq

theorem run_of_some {limit : Nat} {item : Item} {popped : Engine}
    (h : r.engine.popDue? limit = some (item, popped)) :
    r.run limit =
      (item :: (({ r with engine := popped }.deliver item).run limit).1,
        (({ r with engine := popped }.deliver item).run limit).2) := by
  rw [run]
  split
  · next heq => rw [h] at heq; cases heq
  · next heq =>
    rw [h] at heq
    cases heq
    rfl

/-- An item that leaves the queue of a loop that does not play is not its own. -/
theorem Rehearses.popped (h : r.Rehearses d config rate l) {limit : Nat} {item : Item}
    {popped : Engine} (hpop : r.engine.popDue? limit = some (item, popped)) :
    Rehearses d config rate { r with engine := popped } l := by
  unfold Engine.popDue? at hpop
  split at hpop
  · next first hfirst =>
    split at hpop
    · cases hpop
      refine ⟨h.player, h.ticks, h.made, h.known, fun hsilent => ?_⟩
      have hrest := h.rest hsilent
      by_cases hown : item.player = playerId
      · rw [← hown, Queue.agenda_rest_self hfirst] at hrest
        cases hrest
      · exact (Queue.agenda_rest_other hfirst hown).trans hrest
    · cases hpop
  · cases hpop

theorem Rehearses.deliver (h : r.Rehearses d config rate l) (item : Item) :
    ∃ k, (r.deliver item).Rehearses d config rate k := by
  unfold Rehearsal.deliver
  split
  · exact ⟨_, h.call .wake⟩
  · exact ⟨l, h⟩

theorem Rehearses.run (h : r.Rehearses d config rate l) (limit : Nat) :
    ∃ k, (r.run limit).2.Rehearses d config rate k := by
  fun_induction Rehearsal.run r limit generalizing l with
  | case1 r hnone => exact ⟨l, h⟩
  | case2 r item popped hpop items last hrest ih =>
    obtain ⟨k, hk⟩ := (h.popped hpop).deliver item
    rw [hrest] at ih
    exact ih hk

theorem Rehearses.use (h : r.Rehearses d config rate l) (u : RehearsalUse) :
    ∃ k, (r.use u).2.Rehearses d config rate k := by
  cases u with
  | call c => exact ⟨_, h.call c⟩
  | stopRecording keep => exact ⟨_, h.stopRecording keep⟩
  | run limit => exact h.run limit
  | engine u => exact ⟨l, h.engine u⟩

theorem Rehearses.uses (h : r.Rehearses d config rate l) (us : List RehearsalUse) :
    ∃ k, (r.uses us).2.Rehearses d config rate k := by
  induction us generalizing r l with
  | nil => exact ⟨l, h⟩
  | cons u rest ih =>
    obtain ⟨k, hk⟩ := h.use u
    exact ih hk

/-! ## Rehearsals that go alike -/

/-- One engine, and loops that differ at most in what is not read any more. -/
def Like (counted : Prop) (r s : Rehearsal) : Prop :=
  s.engine = r.engine ∧ ∃ l p, r.player = .loop l ∧ s.player = .loop (l.after p) ∧
    l.Like counted p ∧ l.Known

/-- One engine, and loops that show the same. -/
def Alike (r s : Rehearsal) : Prop :=
  s.engine = r.engine ∧ ∃ l k, r.player = .loop l ∧ s.player = .loop k ∧ k.tape = l.tape ∧
    k.playing = l.playing

theorem Like.alike (h : r.Like counted s) : r.Alike s := by
  obtain ⟨hengine, l, p, hl, hk, -, -⟩ := h
  exact ⟨hengine, l, l.after p, hl, hk, rfl, rfl⟩

theorem Like.mono {counted' : Prop} (h : r.Like counted s) (himp : counted' → counted) :
    r.Like counted' s := by
  obtain ⟨hengine, l, p, hl, hk, hlike, hknown⟩ := h
  exact ⟨hengine, l, p, hl, hk, hlike.mono himp, hknown⟩

/-- Answers that agree are performed alike. -/
theorem Like.take {x y : Response Loop} (hengine : s.engine = r.engine)
    (hagree : Loop.Agree counted x y) (hknown : x.1.Known) :
    (r.take (x.map .loop id)).Like counted (s.take (y.map .loop id)) := by
  obtain ⟨hactions, p, hp, hlike⟩ := hagree
  refine ⟨?_, x.1, p, rfl, congrArg Player.loop hp, hlike, hknown⟩
  show s.engine.perform playerId y.2 = r.engine.perform playerId x.2
  rw [hengine, hactions]

theorem call_loop (h : r.player = .loop l) (c : Call) :
    r.call c = r.take ((l.respond r.engine.moment c).map .loop id) := by
  unfold call
  rw [h]
  rfl

theorem stopRecording_loop (h : r.player = .loop l) (keep : Option Nat) :
    r.stopRecording keep = r.take ((l.stopRecording keep r.engine.moment).map .loop id) := by
  unfold stopRecording
  rw [h]

theorem Like.call (h : r.Like counted s) {c : Call} (hc : counted ∨ ¬ c.Records) :
    (r.call c).Like counted (s.call c) := by
  obtain ⟨hengine, l, p, hl, hk, hlike, hknown⟩ := h
  rw [call_loop hl, call_loop hk, hengine]
  exact .take hengine (hlike.respond hknown hc _) ((Loop.edits_respond l c).known hknown)

theorem Like.call_of_counts (h : r.Like counted s) {c : Call} (hc : c.Counts) :
    (r.call c).Like True (s.call c) := by
  obtain ⟨hengine, l, p, hl, hk, hlike, hknown⟩ := h
  rw [call_loop hl, call_loop hk, hengine]
  exact .take hengine (hlike.respond_of_counts hc _) ((Loop.edits_respond l c).known hknown)

theorem Like.stopRecording (h : r.Like counted s) (keep : Option Nat) :
    (r.stopRecording keep).Like counted (s.stopRecording keep) := by
  obtain ⟨hengine, l, p, hl, hk, hlike, hknown⟩ := h
  rw [stopRecording_loop hl, stopRecording_loop hk, hengine]
  exact .take hengine (hlike.agree_stopRecording hknown keep _)
    ((Loop.edits_stopRecording l keep).known hknown)

theorem Like.deliver (h : r.Like counted s) (popped : Engine) (item : Item) :
    Like counted ({ r with engine := popped }.deliver item)
      ({ s with engine := popped }.deliver item) := by
  obtain ⟨hengine, hloops⟩ := h
  unfold Rehearsal.deliver
  split
  · exact Like.call (r := { r with engine := popped }) (s := { s with engine := popped }) (c := .wake)
      ⟨rfl, hloops⟩ (.inr id)
  · exact ⟨rfl, hloops⟩

theorem Like.run (h : r.Like counted s) (limit : Nat) :
    (s.run limit).1 = (r.run limit).1 ∧ (r.run limit).2.Like counted (s.run limit).2 := by
  fun_induction Rehearsal.run r limit generalizing s with
  | case1 r hnone =>
    rw [run_of_none (h.1.symm ▸ hnone)]
    exact ⟨rfl, h⟩
  | case2 r item popped hpop items last hrest ih =>
    rw [run_of_some (r := s) (h.1.symm ▸ hpop)]
    rw [hrest] at ih
    obtain ⟨hitems, hlike⟩ := ih (h.deliver popped item)
    exact ⟨congrArg (item :: ·) hitems, hlike⟩

theorem Like.engine (h : r.Like counted s) (u : EngineUse) :
    Like counted { r with engine := r.engine.use u } { s with engine := s.engine.use u } :=
  ⟨by rw [h.1], h.2⟩

/-- Whether the loop is played with a count before a recording begins. -/
def Recounts : List RehearsalUse → Prop
  | [] => True
  | .call c :: rest => c.Counts ∨ (¬ c.Records ∧ Recounts rest)
  | _ :: rest => Recounts rest

/-- What is delivered and what is left is the same. -/
theorem Like.uses {us : List RehearsalUse} (h : r.Like counted s) (hus : counted ∨ Recounts us) :
    (s.uses us).1 = (r.uses us).1 ∧ (r.uses us).2.Alike (s.uses us).2 := by
  induction us generalizing r s counted with
  | nil => exact ⟨rfl, h.alike⟩
  | cons u rest ih =>
    have hlast : (s.use u).1 = (r.use u).1 → ∀ counted' : Prop,
        (r.use u).2.Like counted' (s.use u).2 → (counted' ∨ Recounts rest) →
        (s.uses (u :: rest)).1 = (r.uses (u :: rest)).1 ∧
          (r.uses (u :: rest)).2.Alike (s.uses (u :: rest)).2 := by
      intro hitems counted' hlike hrest
      obtain ⟨hmore, halike⟩ := ih hlike hrest
      exact ⟨congrArg₂ List.cons hitems hmore, halike⟩
    cases u with
    | call c =>
      rcases hus with hcounted | hcounts | ⟨hrecords, hrest⟩
      · exact hlast rfl counted (h.call (.inl hcounted)) (.inl hcounted)
      · exact hlast rfl True (h.call_of_counts hcounts) (.inl trivial)
      · exact hlast rfl counted (h.call (.inr hrecords)) (.inr hrest)
    | stopRecording keep => exact hlast rfl counted (h.stopRecording keep) hus
    | run limit => exact hlast (h.run limit).1 counted (h.run limit).2 hus
    | engine u => exact hlast rfl counted (h.engine u) hus

/-! ## Undoing everything -/

/-- Uses that leave no layer. -/
inductive UndoesAll (r : Rehearsal) : RehearsalUse → Prop where
  | keepsNone : UndoesAll r (.stopRecording (some 0))
  | undoes {l : Loop} {value : Float} (hplayer : r.player = .loop l) (hneg : value < 0.0)
      (hall : l.layers.length ≤ Binary64.toWord64 (Binary64.round value.abs)) :
      UndoesAll r (.call (.record value))

theorem use_of_undoesAll {u : RehearsalUse} (hu : r.UndoesAll u) :
    r.use u = r.use (.stopRecording (some 0)) := by
  cases hu with
  | keepsNone => rfl
  | undoes hplayer hneg hall =>
    show ([], r.call _) = ([], r.stopRecording _)
    rw [call_loop hplayer, stopRecording_loop hplayer]
    show ([], r.take (Prod.map _ id (Loop.record _ _ _))) = _
    rw [Loop.record_of_undone hneg hall]

/-- Whatever has been done in a rehearsal: when all layers are undone the loop has no layer and no
timeline, it has the length that it was made with, does not play, does not record and has nothing
queued. From then on all goes as with a new loop of the same definition and of the tempo that this
one has, if it has no fixed length, or no count of passes is left over, or if it is played with a
count before a recording begins. -/
theorem undo_all (d : LoopDef) (config : SequencerConfig) (rate : Float)
    (before : List RehearsalUse) (u : RehearsalUse)
    (hu : UndoesAll ((make (.loop d) config rate).uses before).2 u) :
    let s := (((make (.loop d) config rate).uses before).2.use u).2
    ∃ l, s.player = .loop l ∧ l.layers = [] ∧ l.timeline = [] ∧ l.beats = d.beats ∧
      l.playing = false ∧ l.recording = false ∧ s.engine.pending playerId = 0 ∧
      ∀ later, d.beats = none ∨ l.passes = none ∨ Recounts later →
        let fresh : Rehearsal :=
          { s with
            player := .make (.loop { d with tempo := some l.tempo.bpm }) config
              s.engine.ticksPerSecond }
        (fresh.uses later).1 = (s.uses later).1 ∧
          (s.uses later).2.Alike (fresh.uses later).2 := by
  intro s
  obtain ⟨k, hk⟩ := (rehearses_make d config rate).uses before
  have hs : s = ((((make (.loop d) config rate).uses before).2).stopRecording (some 0)) :=
    congrArg Prod.snd (use_of_undoesAll hu)
  have hl := hs ▸ hk.stopRecording (some 0)
  obtain ⟨htape, hsilent⟩ := Loop.emptied_stopRecording k
    ((make (.loop d) config rate).uses before).2.engine.moment
  generalize (k.stopRecording (some 0) _).1 = l at hl htape hsilent
  have hfixed : k.fixedBeats = d.beats := hk.made.fixedBeats
  rw [hfixed] at htape
  refine ⟨l, hl.player, congrArg Tape.layers htape, congrArg Tape.timeline htape,
    congrArg Tape.beats htape, hsilent, congrArg Tape.recording htape, ?_, fun later hlater => ?_⟩
  · show s.engine.queue.pending playerId = 0
    rw [← Queue.length_agenda, hl.rest hsilent]
    rfl
  · intro fresh
    obtain ⟨p, hp, hlike⟩ := Loop.like_make hl.made htape hsilent
    have hfresh : fresh.player = .loop (l.after p) := by
      rw [← hp, ← hl.ticks]
      rfl
    have hboth : s.Like (d.beats = none ∨ l.passes = none) fresh :=
      ⟨rfl, l, p, hl.player, hfresh, hlike, hl.known⟩
    exact hboth.uses (or_assoc.mpr hlater)

/-- The loop that is rehearsed. -/
def loop? (r : Rehearsal) : Option Loop :=
  match r.player with
  | .loop l => some l
  | _ => none

theorem Rehearses.loop? (h : r.Rehearses d config rate l) : r.loop? = some l := by
  rw [Rehearsal.loop?, h.player]

/-- A key is recorded in a loop of one beat, the loop is played once, and the recording undone. -/
theorem undo_all_played_once :
    let d : LoopDef := ⟨some 1.0, none⟩
    let before : List RehearsalUse :=
      [.call (.record 1.0), .call (.add (.note 1 60 100.0)), .call (.record 0.0),
        .call (.play 1.0)]
    let r := ((make (.loop d) .default 1000.0).uses before).2
    let u : RehearsalUse := .call (.record (-1.0))
    r.UndoesAll u ∧ ∃ l, (r.use u).2.player = .loop l ∧ l.layers = [] ∧ l.beats = d.beats ∧
      l.playing = false ∧ (r.use u).2.engine.pending playerId = 0 := by
  intro d before r u
  obtain ⟨k, hk⟩ := (rehearses_make d .default 1000.0).uses before
  have hcount : r.loop?.map (·.layers.length) = some 1 := by decide +kernel
  have hone : k.layers.length = 1 := by
    rw [show r.loop? = some k from hk.loop?] at hcount
    exact Option.some_inj.mp hcount
  have hu : r.UndoesAll u := .undoes hk.player (by decide +kernel) (by
    rw [hone]
    decide +kernel)
  obtain ⟨l, hplayer, hlayers, -, hbeats, hsilent, -, hpending, -⟩ :=
    undo_all d .default 1000.0 before u hu
  exact ⟨hu, l, hplayer, hlayers, hbeats, hsilent, hpending⟩

/-! ### The count that is left over -/

/-- One delivery. -/
def next (r : Rehearsal) (limit : Nat) : Rehearsal :=
  match r.engine.popDue? limit with
  | some (item, popped) => { r with engine := popped }.deliver item
  | none => r

theorem run_next {limit : Nat} (h : (r.engine.popDue? limit).isSome = true) :
    (r.run limit).2 = ((r.next limit).run limit).2 := by
  obtain ⟨⟨item, popped⟩, hpop⟩ := Option.isSome_iff_exists.mp h
  rw [run_of_some hpop, next, hpop]

/-- A loop of one beat is played once, and its only layer undone. When it is recorded again it
stops after one pass, where a new loop goes on. -/
theorem undone_count_is_left :
    let d : LoopDef := ⟨some 1.0, none⟩
    let s := ((make (.loop d) .default 1000.0).uses
      [.call (.record 1.0), .call (.add (.note 1 60 100.0)), .call (.record 0.0),
        .call (.play 1.0), .call (.record (-1.0))]).2
    let fresh : Rehearsal :=
      { s with
        player := .make (.loop { d with tempo := some 120.0 }) .default s.engine.ticksPerSecond }
    let later : List RehearsalUse := [.call (.record 1.0), .run 490]
    d.problem? = none ∧
      (∃ l, s.player = .loop l ∧ l.layers.length = 0 ∧ (l.tempo.bpm == 120.0) = true) ∧
      (s.uses later).2.player.isPlaying = false ∧
      (fresh.uses later).2.player.isPlaying = true := by
  intro d s fresh later
  have hrun : ∀ r : Rehearsal, (r.uses later).2 = ((r.call (.record 1.0)).run 490).2 :=
    fun _ => rfl
  have hfirst : ∀ r : Rehearsal,
      ((r.call (.record 1.0)).engine.popDue? 490).isSome = true →
      (((r.call (.record 1.0)).next 490).engine.popDue? 490) = none →
      (r.uses later).2 = (r.call (.record 1.0)).next 490 := by
    intro r hsome hnone
    rw [hrun, run_next hsome, run_of_none hnone]
  have hundone : s.loop?.any (fun l => l.layers.length == 0 && l.tempo.bpm == 120.0) = true := by
    decide +kernel
  obtain ⟨l, hl⟩ := (rehearses_make d .default 1000.0).uses
    [.call (.record 1.0), .call (.add (.note 1 60 100.0)), .call (.record 0.0),
      .call (.play 1.0), .call (.record (-1.0))]
  rw [show s.loop? = some l from hl.loop?, Option.any_some, Bool.and_eq_true,
    beq_iff_eq] at hundone
  refine ⟨by decide +kernel, ⟨l, hl.player, hundone.1, hundone.2⟩, ?_, ?_⟩
  · rw [hfirst s (by decide +kernel) (by decide +kernel)]
    decide +kernel
  · rw [hfirst fresh (by decide +kernel) (by decide +kernel)]
    decide +kernel

end Rehearsal

end MidiRig
