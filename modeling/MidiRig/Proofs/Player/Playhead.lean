import Mathlib.Data.List.DropRight
import MidiRig.Proofs.Player.Files

/-!
# Jumps and the playhead

A track goes by the position that it was last told or sent its file to, and the transport by where
its playhead is (`Deck`). Between a report and the next stop the two are the same. A start, however,
takes the track back to the beginning of its file, and leaves the playhead where it is if the
transport knows that file (`Deck.Follows`). So a jump is taken when the playhead has come over the
start of its bar, and otherwise by the first report after a start alone (`Deck.jump_reaches`), which
may take one from a bar that lies behind (`Deck.resumed_track_jumps_back`).
-/

namespace MidiRig

namespace Track

/-- Length of a bar of the file that plays. -/
def bar (t : Track) (m : Moment) : Nat := barLength t.meter m.resolution

/-- Whether a report carries out a seek. -/
def Seeks (t : Track) (m : Moment) (now : Nat) (target : Nat) : Prop :=
  t.pending = some target ∧ crossesBar (t.bar m) t.lastTick now = true

/-- All that a report can do: the jump that it takes, if any, and the answer. -/
inductive Reported (t : Track) (m : Moment) (now : Nat) : Option Jump → Response Track → Prop where
  | silent (h : t.playing = false) : Reported t m now none (t, [])
  | seeks {target : Nat} (h : t.playing = true) (hseek : t.Seeks m now target) :
      Reported t m now none ({ t with pending := none }.moveTo (barStart (t.bar m) target))
  | jumps {jump : Jump} (h : t.playing = true) (hseek : ∀ target, ¬ t.Seeks m now target)
      (hjump : jump? t.jumps (t.bar m) t.lastTick now = some jump) :
      Reported t m now (some jump)
        (if jump.target = 0 then t.stop else t.moveTo (barStart (t.bar m) jump.target))
  | goes (h : t.playing = true) (hseek : ∀ target, ¬ t.Seeks m now target)
      (hjump : jump? t.jumps (t.bar m) t.lastTick now = none) :
      Reported t m now none ({ t with lastTick := now }, [])

theorem reported_follow {t : Track} {m : Moment} {now : Nat} (h : t.playing = true)
    (hseek : ∀ target, ¬ t.Seeks m now target) :
    ∃ jump, t.Reported m now jump (t.follow (t.bar m) now) := by
  unfold follow
  cases hjump : jump? t.jumps (t.bar m) t.lastTick now with
  | some jump => exact ⟨_, .jumps h hseek hjump⟩
  | none => exact ⟨_, .goes h hseek hjump⟩

theorem reported_fileTick (t : Track) (m : Moment) (now : Nat) :
    ∃ jump, t.Reported m now jump (t.fileTick now m) := by
  unfold fileTick
  split
  · next hsilent => exact ⟨_, .silent (by simpa using hsilent)⟩
  next hon =>
  have hplaying : t.playing = true := by simpa using hon
  simp only
  split
  · next target hpending =>
    split
    · next hline => exact ⟨_, .seeks hplaying ⟨hpending, hline⟩⟩
    · next hline => exact reported_follow hplaying fun _ h => hline h.2
  · next hpending => exact reported_follow hplaying fun _ h => nomatch hpending.symm.trans h.1

theorem reported_jump {t : Track} {m : Moment} {now : Nat} {jump : Jump} (h : t.playing = true)
    (hseek : ∀ target, ¬ t.Seeks m now target)
    (hjump : jump? t.jumps (t.bar m) t.lastTick now = some jump) :
    t.Reported m now (some jump) (t.fileTick now m) := by
  obtain ⟨_, hreported⟩ := t.reported_fileTick m now
  generalize t.fileTick now m = answer at hreported ⊢
  cases hreported with
  | silent hsilent => exact absurd (h.symm.trans hsilent) Bool.noConfusion
  | seeks _ hseeks => exact absurd hseeks (hseek _)
  | jumps _ _ hother => exact Option.some.inj (hother.symm.trans hjump) ▸ .jumps h hseek hother
  | goes _ _ hnone => cases hnone.symm.trans hjump

theorem jump?_eq_some {jumps : List Jump} {length last now : Nat} {jump : Jump}
    (h : jump? jumps length last now = some jump) :
    jump ∈ jumps ∧ last < barStart length jump.source ∧ barStart length jump.source ≤ now := by
  refine ⟨List.mem_of_find?_eq_some h, ?_⟩
  simpa using List.find?_some h

/-! ### What is left alone -/

theorem playing_stop (t : Track) : t.stop.1.playing = false := by
  unfold stop
  split
  · rfl
  · next hsilent => exact Bool.eq_false_iff.mpr hsilent

/-- What a track has been made with, its tempo apart. -/
def score (t : Track) : List Jump × Meter := (t.jumps, t.meter)

theorem score_stop (t : Track) : t.stop.1.score = t.score := by
  unfold stop
  split <;> rfl

theorem Reported.score {t : Track} {m : Moment} {now : Nat} {jump : Option Jump}
    {answer : Response Track} (h : t.Reported m now jump answer) : answer.1.score = t.score := by
  cases h with
  | jumps _ _ _ =>
    split
    · exact score_stop t
    · rfl
  | _ => rfl

theorem score_respond (t : Track) (m : Moment) (c : Call) :
    (t.respond m c).1.score = t.score := by
  cases c with
  | play loops =>
    show (t.play loops).1.score = t.score
    unfold play
    split
    · exact score_stop t
    · rfl
  | tempo bpm =>
    show (t.setTempo bpm).1.score = t.score
    unfold setTempo
    split <;> rfl
  | fileTick now =>
    obtain ⟨_, h⟩ := t.reported_fileTick m now
    exact h.score
  | dismiss => exact score_stop t
  | _ => rfl

end Track

/-! ## Tracks on the transport -/

/-- A track and the transport that plays its file. -/
structure Deck where
  track : Track
  transport : Transport

/-- What happens on a deck. -/
inductive DeckUse where
  /-- The track is called. -/
  | call (m : Moment) (c : Call)
  /-- The transport is put somewhere while it does not play. -/
  | rest (position : Nat)

/-- Whether a call reports the position of the playhead. -/
def Call.reports : Call → Bool
  | .fileTick _ => true
  | _ => false

namespace DeckUse

def starts : DeckUse → Bool
  | call _ c => c.starts
  | rest _ => false

def reports : DeckUse → Bool
  | call _ c => c.reports
  | rest _ => false

/-- Whether there has been a report since the last start. -/
def reported (uses : List DeckUse) : Bool := (uses.rtakeWhile fun u => !u.starts).any reports

theorem reported_concat (uses : List DeckUse) (u : DeckUse) :
    reported (uses ++ [u]) = (!u.starts && (reported uses || u.reports)) := by
  unfold reported
  rw [List.rtakeWhile_concat]
  cases u.starts <;> simp

end DeckUse

namespace Deck

/-- A report tells where the playhead has come to. -/
def hear (t : Transport) : Call → Transport
  | .fileTick now => if t.playing then { t with position := now } else t
  | _ => t

/-- A transport that does not play is put somewhere. -/
def put (t : Transport) (position : Nat) : Transport :=
  if t.playing then t else { t with position }

def use (k : Deck) : DeckUse → Deck
  | .call m c => ⟨(k.track.respond m c).1, (hear k.transport c).perform (k.track.respond m c).2⟩
  | .rest position => ⟨k.track, put k.transport position⟩

/-- A new track, after all that has happened to it and to the transport. -/
def after (d : TrackDef) (t : Transport) (uses : List DeckUse) : Deck :=
  uses.foldl use ⟨Track.make d, t⟩

/-- While it plays, a track goes by the position of the playhead, once this has been reported; until
then it goes by the beginning of the file. -/
def Follows (reported : Bool) (k : Deck) : Prop :=
  k.track.playing = true → k.transport.playing = true ∧
    k.track.lastTick = if reported then k.transport.position else 0

theorem follows_of_silent {t : Track} (h : t.playing = false) (u : Transport) (reported : Bool) :
    (Deck.mk t u).Follows reported := by
  intro hplaying
  rw [show t.playing = true from hplaying] at h
  cases h

theorem follows_stop (t : Track) (u : Transport) (reported : Bool) :
    (Deck.mk t.stop.1 u).Follows reported :=
  follows_of_silent t.playing_stop u reported

variable {reported : Bool} {k : Deck}

theorem follows_start (t : Track) (u : Transport) (tempo : Option Float) :
    (Deck.mk { t with playing := true, lastTick := 0 }
      (u.perform (.filePlay t.file :: (tempo.map Action.fileTempo).toList))).Follows false := by
  intro _
  exact ⟨((u.play t.file).undisturbed_tempo tempo).playing, rfl⟩

theorem Follows.tempo (h : k.Follows reported) (bpm : Float) :
    (Deck.mk (k.track.setTempo bpm).1
      (k.transport.perform (k.track.setTempo bpm).2)).Follows reported := by
  unfold Track.setTempo
  split <;> exact h

/-- With a report the track and the playhead come to the same position. -/
theorem Follows.report (h : k.Follows reported) (m : Moment) (now : Nat) :
    (k.use (.call m (.fileTick now))).Follows true := by
  show (Deck.mk (k.track.fileTick now m).1
    ((hear k.transport (.fileTick now)).perform (k.track.fileTick now m).2)).Follows true
  obtain ⟨jump, hreported⟩ := k.track.reported_fileTick m now
  generalize k.track.fileTick now m = answer at hreported
  cases hreported with
  | silent hsilent => exact follows_of_silent hsilent _ true
  | seeks hplaying _ =>
    rw [hear, if_pos (h hplaying).1]
    exact fun _ => ⟨(h hplaying).1, rfl⟩
  | jumps hplaying _ _ =>
    rw [hear, if_pos (h hplaying).1]
    split
    · exact follows_stop k.track _ true
    · exact fun _ => ⟨(h hplaying).1, rfl⟩
  | goes hplaying _ _ =>
    rw [hear, if_pos (h hplaying).1]
    exact fun _ => ⟨(h hplaying).1, rfl⟩

theorem Follows.rest (h : k.Follows reported) (position : Nat) :
    (k.use (.rest position)).Follows reported := by
  intro hplaying
  obtain ⟨hon, hlast⟩ := h hplaying
  simp only [Deck.use, put, if_pos hon]
  exact ⟨hon, hlast⟩

/-- One use. -/
theorem Follows.use (h : k.Follows reported) (u : DeckUse) :
    (k.use u).Follows (!u.starts && (reported || u.reports)) := by
  cases u with
  | rest position => cases reported <;> exact h.rest position
  | call m c =>
    cases c with
    | play loops =>
      show (Deck.mk (k.track.play loops).1 (k.transport.perform (k.track.play loops).2)).Follows _
      simp only [Track.play, DeckUse.starts, DeckUse.reports, Call.starts, Call.reports]
      cases playCount? loops with
      | none => exact follows_stop k.track _ _
      | some passes => exact follows_start k.track k.transport k.track.tempo
    | fileTick now => cases reported <;> exact h.report m now
    | dismiss => exact follows_stop k.track _ _
    | tempo bpm => cases reported <;> exact h.tempo bpm
    | _ => cases reported <;> exact h

variable {d : TrackDef} {t : Transport} {uses : List DeckUse}

theorem follows_after (d : TrackDef) (t : Transport) (uses : List DeckUse) :
    (after d t uses).Follows (DeckUse.reported uses) := by
  induction uses using List.reverseRecOn with
  | nil => exact follows_of_silent (t := Track.make d) rfl t _
  | append_singleton uses u ih =>
    unfold after
    rw [List.foldl_append, DeckUse.reported_concat]
    exact ih.use u

theorem score_after (d : TrackDef) (t : Transport) (uses : List DeckUse) :
    (after d t uses).track.score = (d.jumps, d.meter) := by
  induction uses using List.reverseRecOn with
  | nil => rfl
  | append_singleton uses u ih =>
    rw [← ih]
    unfold after
    rw [List.foldl_append]
    cases u with
    | call m c => exact Track.score_respond _ m c
    | rest position => rfl

/-- A report takes a jump only if the playhead has come over the start of its bar from where it was
last known to be, by a report, a jump, a seek or a start; or, as the first report since a start, if
it would have come over it from the beginning of the file. -/
theorem jump_reaches (d : TrackDef) (t : Transport) (uses : List DeckUse) (m : Moment) (now : Nat)
    (jump : Jump) (h : (after d t uses).track.Reported m now (some jump)
      ((after d t uses).track.fileTick now m)) :
    let start := Track.barStart (Track.barLength d.meter m.resolution) jump.source
    jump ∈ d.jumps ∧ start ≤ now ∧
      ((after d t uses).transport.position < start ∨
        DeckUse.reported uses = false ∧ 0 < start) := by
  intro start
  have hfollows := follows_after d t uses
  obtain ⟨hjumps, hmeter⟩ := Prod.mk.inj (score_after d t uses)
  generalize after d t uses = k at h hfollows hjumps hmeter
  generalize k.track.fileTick now m = answer at h
  cases h with
  | jumps hplaying _ hjump =>
    obtain ⟨hmem, hlast, hnow⟩ := Track.jump?_eq_some hjump
    rw [Track.bar, hmeter] at hlast hnow
    refine ⟨hjumps ▸ hmem, hnow, ?_⟩
    rw [(hfollows hplaying).2] at hlast
    cases hreported : DeckUse.reported uses with
    | false => exact .inr ⟨rfl, by simpa [hreported] using hlast⟩
    | true => exact .inl (by simpa [hreported] using hlast)

/-- A track that goes back to the first bar whenever it reaches the second. -/
def vamp : TrackDef := ⟨⟨"a.mid"⟩, [⟨2, 1⟩], .fourFour, none⟩

/-- The first bar is played. -/
theorem jump_reaches_vamp :
    let uses := [.call ⟨0, 480⟩ (.play 1.0), .call ⟨0, 480⟩ (.fileTick 100)]
    let k := after vamp .idle uses
    k.track.Reported ⟨0, 480⟩ 2000 (some ⟨2, 1⟩) (k.track.fileTick 2000 ⟨0, 480⟩) ∧
      (⟨2, 1⟩ ∈ vamp.jumps ∧ Track.barStart (Track.barLength vamp.meter 480) 2 ≤ 2000 ∧
        (k.transport.position < Track.barStart (Track.barLength vamp.meter 480) 2 ∨
          DeckUse.reported uses = false ∧
            0 < Track.barStart (Track.barLength vamp.meter 480) 2)) := by
  intro uses k
  have hpending : k.track.pending = none := by decide +kernel
  have h : k.track.Reported ⟨0, 480⟩ 2000 (some ⟨2, 1⟩) (k.track.fileTick 2000 ⟨0, 480⟩) :=
    Track.reported_jump (by decide +kernel) (fun _ hseek => nomatch hpending.symm.trans hseek.1)
      (by decide +kernel)
  exact ⟨h, jump_reaches vamp .idle uses ⟨0, 480⟩ 2000 ⟨2, 1⟩ h⟩

/-! ## A file that is taken up again -/

/-- The track is sent to the third bar, plays on from there, and is stopped and started again. -/
def takenUp : List DeckUse :=
  [.call ⟨0, 480⟩ (.play 1.0), .call ⟨0, 480⟩ (.seek 3), .call ⟨0, 480⟩ (.fileTick 1940),
    .call ⟨0, 480⟩ (.fileTick 4000), .call ⟨0, 480⟩ (.play 0.0), .call ⟨0, 480⟩ (.play 1.0)]

/-- The playhead goes on in the third bar, and yet the first report takes the jump of the second. -/
theorem resumed_track_jumps_back :
    let k := after vamp .idle takenUp
    let start := Track.barStart (Track.barLength vamp.meter 480) 2
    (k.transport.playing = true ∧ k.transport.position = 4000 ∧ start = 1920) ∧
      k.track.Reported ⟨0, 480⟩ 4100 (some ⟨2, 1⟩) (k.track.fileTick 4100 ⟨0, 480⟩) ∧
      ¬ k.transport.position < start ∧
      (k.use (.call ⟨0, 480⟩ (.fileTick 4100))).transport.position = 0 := by
  intro k start
  have hpending : k.track.pending = none := by decide +kernel
  have hplace : k.transport.playing = true ∧ k.transport.position = 4000 ∧ start = 1920 := by
    decide +kernel
  refine ⟨hplace, ?_, ?_, by decide +kernel⟩
  · exact Track.reported_jump (by decide +kernel)
      (fun _ hseek => nomatch hpending.symm.trans hseek.1) (by decide +kernel)
  · rw [hplace.2.1, hplace.2.2]
    decide

end Deck

end MidiRig
