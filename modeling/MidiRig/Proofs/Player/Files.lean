import MidiRig.Engine.Basic
import MidiRig.Proofs.Player.Callbacks

/-!
# What players do to the transport

Only tracks ask anything of the transport. `Player.Drives` is all that a call makes of a player and
of the transport together: the file goes on, it is moved or stopped by the player that plays it, or
a track starts it. So a player that plays no file can start one, and nothing else
(`Player.undisturbed_of_silent`).
-/

namespace MidiRig

/-! ## The transport under actions -/

namespace Transport

/-- Does what a player asks of the transport. -/
def act (t : Transport) : Action → Transport
  | .filePlay path => t.play path
  | .fileStop => { t with playing := false }
  | .fileSeek position => { t with position }
  | .fileTempo bpm => { t with tempo := some bpm }
  | .event _ _ | .callback _ | .cancel | .send _ => t

def perform (t : Transport) (xs : List Action) : Transport := xs.foldl act t

@[simp] theorem perform_nil (t : Transport) : t.perform [] = t := rfl

@[simp] theorem perform_cons (t : Transport) (x : Action) (xs : List Action) :
    t.perform (x :: xs) = (t.act x).perform xs := rfl

/-- Whether the transport plays a file. -/
def Plays (t : Transport) (path : Path) : Prop := t.playing = true ∧ t.path = some path

/-- The same file goes on at the same place, or rests there. Its tempo may be another. -/
structure Undisturbed (t u : Transport) : Prop where
  path : u.path = t.path
  playing : u.playing = t.playing
  position : u.position = t.position

namespace Undisturbed

variable {t u v : Transport}

theorem refl (t : Transport) : t.Undisturbed t := ⟨rfl, rfl, rfl⟩

theorem trans (h : t.Undisturbed u) (k : u.Undisturbed v) : t.Undisturbed v :=
  ⟨k.path.trans h.path, k.playing.trans h.playing, k.position.trans h.position⟩

theorem plays {path : Path} (h : t.Undisturbed u) (hplays : t.Plays path) : u.Plays path :=
  ⟨h.playing.trans hplays.1, h.path.trans hplays.2⟩

end Undisturbed

theorem undisturbed_tempo (t : Transport) (tempo : Option Float) :
    t.Undisturbed (t.perform (tempo.map Action.fileTempo).toList) := by
  cases tempo with
  | none => exact .refl t
  | some bpm => exact ⟨rfl, rfl, rfl⟩

end Transport

theorem Engine.transport_perform (e : Engine) (player : Nat) (xs : List Action) :
    (e.perform player xs).transport = e.transport.perform xs := by
  induction xs generalizing e with
  | nil => rfl
  | cons x xs ih =>
    show ((e.act player x).perform player xs).transport = (e.transport.act x).perform xs
    rw [ih]
    cases x <;> rfl

/-! ## Players other than tracks -/

/-- Actions of which none is for the transport. -/
def FileFree (xs : List Action) : Prop := ∀ x ∈ xs, x.isFile = false

namespace FileFree

theorem nil : FileFree [] := by simp [FileFree]

theorem cons {x : Action} {xs : List Action} (hx : x.isFile = false) (hxs : FileFree xs) :
    FileFree (x :: xs) := by
  intro y hy
  rcases List.mem_cons.mp hy with rfl | hy
  · exact hx
  · exact hxs y hy

theorem append {xs ys : List Action} (hxs : FileFree xs) (hys : FileFree ys) :
    FileFree (xs ++ ys) := by
  intro x hx
  rcases List.mem_append.mp hx with hx | hx
  · exact hxs x hx
  · exact hys x hx

theorem strikes (length tick : Nat) (events : List Event) :
    FileFree (events.flatMap (strike length tick)) := by
  intro x hx
  obtain ⟨e, -, hx⟩ := List.mem_flatMap.mp hx
  rcases List.mem_cons.mp hx with rfl | hx
  · rfl
  · obtain ⟨off, -, rfl⟩ := List.mem_map.mp hx
    rfl

theorem stops (s : Sounding) (now : Nat) : FileFree (.cancel :: s.release now) := by
  refine cons rfl fun x hx => ?_
  obtain ⟨off, -, rfl⟩ := List.mem_map.mp hx
  rfl

theorem perform_eq {xs : List Action} (h : FileFree xs) (t : Transport) : t.perform xs = t := by
  induction xs with
  | nil => rfl
  | cons x xs ih =>
    have hx : t.act x = t := by
      have := h x List.mem_cons_self
      cases x <;> first | rfl | cases this
    rw [Transport.perform_cons, hx]
    exact ih fun y hy => h y (List.mem_cons_of_mem _ hy)

end FileFree

namespace Stepper

variable {now : Nat} {p q : Stepper} {xs : List Action}

theorem fileFree_stepActions (p : Stepper) (events : List Event) (tick length : Nat) :
    FileFree (p.stepActions events tick length) :=
  (FileFree.strikes _ _ _).append (.cons rfl .nil)

theorem Does.fileFree (h : Does now p xs q) : FileFree xs := by
  induction h with
  | rests => exact .nil
  | stops => exact .stops _ _
  | starts => exact .cons rfl .nil
  | strikes => exact fileFree_stepActions _ _ _ _
  | seq _ _ hxs hys => exact hxs.append hys

theorem Wakes.fileFree (h : Wakes now p xs q) : FileFree xs := by
  cases h with
  | sleeps => exact .nil
  | steps => exact fileFree_stepActions _ _ _ _
  | ends => exact .stops _ _

end Stepper

theorem Sequence.fileFree_respond (s : Sequence) (m : Moment) (c : Call) :
    FileFree (s.respond m c).2 := by
  cases c with
  | wake => exact (s.wakes_wake m).fileFree
  | _ => exact (s.does_respond m (by nofun)).fileFree

namespace Arpeggio

theorem fileFree_emit (p : Arpeggio) : FileFree p.emit.2 := by
  unfold emit
  split
  · exact .nil
  · exact (FileFree.strikes _ _ _).append (.cons rfl .nil)

theorem fileFree_start (p : Arpeggio) (m : Moment) : FileFree (p.start m).2 := by
  unfold start
  simp only
  split
  · exact fileFree_emit _
  · exact .cons rfl .nil

theorem fileFree_letGo (p : Arpeggio) (m : Moment) : FileFree (p.letGo m).2 := by
  unfold letGo
  simp only
  split
  · exact .stops _ _
  · exact .nil

theorem fileFree_add (p : Arpeggio) (e : Event) (m : Moment) : FileFree (p.add e m).2 := by
  unfold add
  split
  · exact .nil
  simp only
  split
  · split
    · exact .nil
    · exact fileFree_start _ m
  · split
    · exact .stops _ _
    · exact .nil

theorem fileFree_respond (p : Arpeggio) (m : Moment) (c : Call) : FileFree (p.respond m c).2 := by
  cases c with
  | play loops =>
    simp only [respond]
    split
    · exact p.fileFree_letGo m
    · exact .nil
  | add e => exact p.fileFree_add e m
  | dismiss => exact p.fileFree_letGo m
  | wake =>
    show FileFree (p.wake m).2
    unfold wake
    split
    · exact fileFree_emit _
    · exact .nil
  | _ => exact .nil

end Arpeggio

namespace Loop

variable {l k : Loop} {xs : List Action}

theorem Arming.fileFree (h : l.Arming xs) : FileFree xs := by
  unfold Arming at h
  split at h
  · obtain ⟨tick, rfl⟩ := h
    exact .cons rfl .nil
  · exact h ▸ .nil

theorem fileFree_respond (l : Loop) (m : Moment) (c : Call) : FileFree (l.respond m c).2 := by
  have hdoes : ∀ {k : Loop} {xs : List Action}, Does l xs k → FileFree xs := by
    intro k xs h
    cases h with
    | rests => exact .nil
    | stops => exact .cons rfl .nil
    | arms _ hxs => exact .cons rfl hxs.fileFree
  have hwakes : ∀ {k : Loop} {xs : List Action}, Wakes l xs k → FileFree xs := by
    intro k xs h
    cases h with
    | sleeps => exact .nil
    | ends => exact .cons rfl .nil
    | arms _ hxs => exact hxs.fileFree
    | plays _ _ _ hxs => exact .cons rfl hxs.fileFree
  cases c with
  | wake => exact hwakes l.wakes_wake
  | _ => exact hdoes (l.does_respond m nofun)

end Loop

/-! ## All players -/

/-- Whether a call starts a player. -/
def Call.starts : Call → Bool
  | .play loops => (playCount? loops).isSome
  | _ => false

namespace Player

variable {p q : Player} {xs : List Action} {m : Moment} {c : Call}

def isTrack : Player → Bool
  | track _ => true
  | sequence _ | arpeggio _ | loop _ => false

theorem exists_of_isTrack (h : p.isTrack = true) : ∃ t, p = track t := by
  cases p with
  | track t => exact ⟨t, rfl⟩
  | _ => cases h

/-- The file that a player says it plays. -/
def file? : Player → Option Path
  | track t => if t.playing then some t.file else none
  | sequence _ | arpeggio _ | loop _ => none

theorem file?_of_isPlaying {t : Track} (ht : p = track t) (hplaying : p.isPlaying = true) :
    p.file? = some t.file := by
  subst ht
  exact if_pos hplaying

theorem file?_eq_none_iff : p.file? = none ↔ ∀ t, p = track t → p.isPlaying = false := by
  cases p with
  | track t => simp [file?, isPlaying]
  | _ => simp [file?]

theorem file?_make (d : PlayerDef) (config : SequencerConfig) (rate : Float) :
    (make d config rate).file? = none := by
  cases d <;> rfl

/-- What a call makes of the file that a player plays and of the transport. -/
inductive Drives (c : Call) : Player → List Action → Player → Prop where
  | keeps {p q : Player} {xs : List Action} (hfile : q.file? = p.file?)
      (hxs : ∀ t : Transport, t.Undisturbed (t.perform xs)) : Drives c p xs q
  | moves {p q : Player} {path : Path} (position : Nat) (hp : p.file? = some path)
      (hq : q.file? = some path) : Drives c p [.fileSeek position] q
  | stops {p q : Player} {path : Path} (hp : p.file? = some path) (hq : q.file? = none) :
      Drives c p [.fileStop] q
  | starts {p q : Player} {path : Path} (tempo : Option Float) (hc : c.starts = true)
      (hp : p.isTrack = true) (hq : q.file? = some path) :
      Drives c p (.filePlay path :: (tempo.map Action.fileTempo).toList) q

theorem Drives.of_fileFree (hp : p.file? = none) (hq : q.file? = none) (hxs : FileFree xs) :
    Drives c p xs q :=
  .keeps (hq.trans hp.symm) fun t => by rw [hxs.perform_eq]; exact .refl t

theorem drives_stop (t : Track) (c : Call) : Drives c (track t) t.stop.2 (track t.stop.1) := by
  unfold Track.stop
  split
  · next hplaying => exact .stops (if_pos hplaying) rfl
  · exact .keeps rfl .refl

theorem drives_follow {t : Track} (hplaying : t.playing = true) (length now : Nat) (c : Call) :
    Drives c (track t) (t.follow length now).2 (track (t.follow length now).1) := by
  unfold Track.follow
  split
  · split
    · exact drives_stop t c
    · exact .moves _ (if_pos hplaying) (if_pos hplaying)
  · exact .keeps rfl .refl

theorem drives_fileTick (t : Track) (now : Nat) (m : Moment) (c : Call) :
    Drives c (track t) (t.fileTick now m).2 (track (t.fileTick now m).1) := by
  unfold Track.fileTick
  split
  · exact .keeps rfl .refl
  next h =>
  have hplaying : t.playing = true := by simpa using h
  simp only
  split
  · split
    · exact .moves _ (if_pos hplaying) (if_pos hplaying)
    · exact drives_follow hplaying _ now c
  · exact drives_follow hplaying _ now c

theorem drives_track (t : Track) (m : Moment) (c : Call) :
    Drives c (track t) (t.respond m c).2 (track (t.respond m c).1) := by
  cases c with
  | play loops =>
    show Drives _ _ (t.play loops).2 (track (t.play loops).1)
    unfold Track.play
    split
    · exact drives_stop t _
    · next hcount =>
      have hstarts : (Call.play loops).starts = true := by
        simp only [Call.starts, hcount, Option.isSome_some]
      exact .starts t.tempo hstarts rfl rfl
  | tempo bpm =>
    show Drives _ _ (t.setTempo bpm).2 (track (t.setTempo bpm).1)
    unfold Track.setTempo
    split
    · exact .keeps rfl fun _ => ⟨rfl, rfl, rfl⟩
    · exact .keeps rfl .refl
  | fileTick now => exact drives_fileTick t now m _
  | dismiss => exact drives_stop t _
  | _ => exact .keeps rfl .refl

theorem drives_respond (p : Player) (m : Moment) (c : Call) :
    Drives c p (p.respond m c).2 (p.respond m c).1 := by
  cases p with
  | sequence s => exact .of_fileFree rfl rfl (s.fileFree_respond m c)
  | arpeggio a => exact .of_fileFree rfl rfl (a.fileFree_respond m c)
  | loop l => exact .of_fileFree rfl rfl (l.fileFree_respond m c)
  | track t => exact drives_track t m c

/-- A player that plays no file leaves the transport alone, unless it is told to start. -/
theorem undisturbed_of_silent (hp : p.file? = none) (hc : c.starts = false) (m : Moment)
    (t : Transport) : t.Undisturbed (t.perform (p.respond m c).2) := by
  have hdrives := p.drives_respond m c
  generalize (p.respond m c).1 = q at hdrives
  generalize (p.respond m c).2 = xs at hdrives
  cases hdrives with
  | keeps _ hxs => exact hxs t
  | moves _ hplays => rw [hp] at hplays; cases hplays
  | stops hplays => rw [hp] at hplays; cases hplays
  | starts _ hstarts => rw [hc] at hstarts; cases hstarts

/-- A report of the position means something to a player only while it plays a file. -/
theorem respond_fileTick_of_silent (hp : p.file? = none) (m : Moment) (position : Nat) :
    p.respond m (.fileTick position) = (p, []) := by
  cases p with
  | track t =>
    have hsilent : t.playing = false := by simpa [file?] using hp
    show (t.fileTick position m).map track id = _
    unfold Track.fileTick
    rw [hsilent]
    rfl
  | _ => rfl

/-- Only a track plays a file, and a track waits for no callbacks. -/
theorem respond_wake_of_file (hp : p.file? ≠ none) (m : Moment) :
    p.respond m .wake = (p, []) := by
  cases p with
  | track t => rfl
  | _ => exact absurd rfl hp

end Player

end MidiRig
