import MidiRig.Proofs.Session.Operation
import MidiRig.Proofs.Stage.Files

/-!
# Files that go on undisturbed

All tracks of a session drive the one transport of its engine. In a run in which they take turns
the transport plays the file of the track that plays, and whatever is done to the other players
leaves that file where it is (`Session.file_undisturbed`). Without turns this fails: a track that
has been overtaken goes on saying that it plays, and stopping it stops the file of the one that
overtook it (`Session.overtaken_track_stops_file`).
-/

namespace MidiRig.Session

variable {s : Session} {ops : List Op}

/-- Tracks are started only when no other one plays, and the transport is left to the players. -/
def TakesTurns (s : Session) : List Op → Prop
  | [] => True
  | op :: rest => s.stage.TakesTurns (s.moves op) ∧ (s.step op).TakesTurns rest

instance decidableTakesTurns (s : Session) : (ops : List Op) → Decidable (s.TakesTurns ops)
  | [] => .isTrue trivial
  | op :: rest =>
    have := (s.step op).decidableTakesTurns rest
    inferInstanceAs (Decidable (s.stage.TakesTurns (s.moves op) ∧ (s.step op).TakesTurns rest))

theorem tuned_run (h : s.stage.Tuned) (hops : s.TakesTurns ops) : (s.run ops).stage.Tuned := by
  induction ops generalizing s with
  | nil => exact h
  | cons op rest ih =>
    refine ih ?_ hops.2
    rw [stage_step]
    exact h.run hops.1

theorem sound_start (rate : Float) (config : Config) (ops : List Op) :
    ((start rate config).run ops).stage.directory.Sound := by
  obtain ⟨born, hlives⟩ := lives_start .free rate config fun op (_ : op ∈ ops) => op.fits_free
  exact hlives.sound

/-- A player that does not say that it plays a file never stops or moves one, whatever is asked of
it, a start apart, and neither does its removal. And from a session in which no track plays, for as
long as tracks take turns: the transport plays the file of a track that says it plays, no other
track says so, the file goes on at its place through everything that is done to other players, a
start apart, and a report of the position reaches the transport through that track alone. -/
theorem file_undisturbed (rate : Float) (config : Config) (before : List Op) :
    let s := (start rate config).run before
    (∀ m ∈ s.stage.directory.members,
      (∀ t, m.player = .track t → m.player.isPlaying = false) →
      (∀ c, c.starts = false → s.stage.engine.transport.Undisturbed
        (s.step (.call m.name c)).stage.engine.transport) ∧
      s.stage.engine.transport.Undisturbed
        (s.step (.removePlayer m.name)).stage.engine.transport) ∧
    ((∀ m ∈ s.stage.directory.members, ∀ t, m.player = .track t → m.player.isPlaying = false) →
      ∀ ops, s.TakesTurns ops →
      let u := s.run ops
      ∀ m ∈ u.stage.directory.members, ∀ t, m.player = .track t → m.player.isPlaying = true →
        (u.stage.engine.transport.playing = true ∧ u.stage.engine.transport.path = some t.file) ∧
        (∀ n ∈ u.stage.directory.members, n.id ≠ m.id → ∀ v, n.player = .track v →
          n.player.isPlaying = false) ∧
        (∀ op, (∀ mv ∈ u.moves op, mv.Spares m) →
          u.stage.engine.transport.Undisturbed (u.step op).stage.engine.transport ∧
            m ∈ (u.step op).stage.directory.members) ∧
        ∀ position, (u.fileTick position).stage.engine.transport =
          u.stage.engine.transport.perform (t.fileTick position u.stage.engine.moment).2) := by
  intro s
  have hsound : s.stage.directory.Sound := sound_start rate config before
  refine ⟨fun m hm hsilent => ?_, ?_⟩
  · have hall : ∀ n ∈ s.stage.directory.members, n.name = m.name → n.player.file? = none := by
      intro n hn hname
      rw [hsound.eq_of_name hn hm hname]
      exact Player.file?_eq_none_iff.mpr hsilent
    refine ⟨fun c hc => ?_, Stage.undisturbed_remove hall⟩
    rw [stage_step]
    exact Stage.undisturbed_call hc hall
  · intro hbefore ops hops u m hm t ht hplaying
    have htuned : u.stage.Tuned := tuned_run (.of_silent hsound fun m hm =>
      Player.file?_eq_none_iff.mpr (hbefore m hm)) hops
    have hfile := Player.file?_of_isPlaying ht hplaying
    have hne : m.player.file? ≠ none := by
      rw [hfile]
      nofun
    refine ⟨htuned.plays m hm _ hfile, fun n hn hid => ?_, fun op hop => ?_, fun position => ?_⟩
    · exact Player.file?_eq_none_iff.mp (htuned.silent hm hne hn hid)
    · rw [stage_step]
      exact htuned.spares_run hm hne hop
    · obtain ⟨_, _, -, heq⟩ := htuned.report_eq hm hne position
      show (u.stage.callAll (.fileTick position)).engine.transport = _
      rw [heq, Stage.transport_answered, ht]
      rfl

/-- A track that plays a file from its beginning to its end. -/
def plainTrack (file : String) : PlayerDef := .track ⟨⟨file⟩, [], .fourFour, none⟩

/-- Two tracks, of which the second is started when the first has been stopped. -/
def relay : List Op :=
  [.addPlayer "a" (plainTrack "a.mid"), .addPlayer "b" (plainTrack "b.mid"),
    .call "a" (.play 1.0), .call "a" (.play 0.0), .call "b" (.play 1.0)]

/-- The second track of a relay plays, and stopping the first again or removing it does not disturb
the file. -/
theorem file_undisturbed_relay :
    let s := (start 1000.0 .default).run relay
    (start 1000.0 .default).TakesTurns relay ∧
      (∃ m ∈ s.stage.directory.members, m.name = "b" ∧ m.player.isPlaying = true ∧
        s.stage.engine.transport.playing = true ∧
        s.stage.engine.transport.Undisturbed (s.removePlayer "a").stage.engine.transport) ∧
      ∃ m ∈ s.stage.directory.members, m.name = "a" ∧ m.player.isPlaying = false ∧
        s.stage.engine.transport.Undisturbed
          (s.step (.call m.name (.play 0.0))).stage.engine.transport := by
  intro s
  have hturns : (start 1000.0 .default).TakesTurns relay := by decide +kernel
  have hplays : ∃ m ∈ s.stage.directory.members, m.name = "b" ∧ m.player.isTrack = true ∧
      m.player.isPlaying = true := by decide +kernel
  have hempty : ∀ m ∈ ((start 1000.0 .default).run []).stage.directory.members,
      ∀ t, m.player = .track t → m.player.isPlaying = false := fun _ hm => nomatch hm
  obtain ⟨m, hm, hname, htrack, hplaying⟩ := hplays
  obtain ⟨t, ht⟩ := Player.exists_of_isTrack htrack
  obtain ⟨⟨htransport, -⟩, -, hspares, -⟩ :=
    (file_undisturbed 1000.0 .default []).2 hempty relay hturns m hm t ht hplaying
  have hstopped : ∃ m ∈ s.stage.directory.members, m.name = "a" ∧ m.player.isPlaying = false := by
    decide +kernel
  obtain ⟨k, hk, hkname, hksilent⟩ := hstopped
  have hagain := ((file_undisturbed 1000.0 .default relay).1 k hk fun _ _ => hksilent).1
    (.play 0.0) (by decide +kernel)
  refine ⟨hturns, ⟨m, hm, hname, hplaying, htransport, (hspares (.removePlayer "a") ?_).1⟩,
    k, hk, hkname, hksilent, hagain⟩
  intro mv hmv
  rw [List.mem_singleton.mp hmv]
  show "a" ≠ m.name
  rw [hname]
  decide

/-- The second track is started while the first one plays. -/
def overtaking : List Op :=
  [.addPlayer "a" (plainTrack "a.mid"), .addPlayer "b" (plainTrack "b.mid"),
    .call "a" (.play 1.0), .call "b" (.play 1.0)]

/-- The first track goes on saying that it plays, though the transport plays the file of the
second, which was started later; and stopping the first stops that file. -/
theorem overtaken_track_stops_file :
    let s := (start 1000.0 .default).run overtaking
    (s.stage.engine.transport.Plays ⟨"b.mid"⟩ ∧
      ¬ ∀ m ∈ s.stage.directory.members, ∀ t, m.player = .track t → m.player.isPlaying = true →
        s.stage.engine.transport.Plays t.file) ∧
      (∃ m ∈ s.stage.directory.members, m.name = "b" ∧ m.player.isPlaying = true) ∧
      ¬ s.stage.engine.transport.Undisturbed
        (s.step (.call "a" (.play 0.0))).stage.engine.transport := by
  intro s
  have hplays : s.stage.engine.transport.Plays ⟨"b.mid"⟩ := by
    have hpath : s.stage.engine.transport.path.map Path.text = some "b.mid" := by decide +kernel
    obtain ⟨⟨text⟩, hsome, rfl⟩ := Option.map_eq_some_iff.mp hpath
    exact ⟨by decide +kernel, hsome⟩
  have hfirst : ∃ m ∈ s.stage.directory.members, m.player.isPlaying = true ∧
      m.player.isTrack = true ∧ m.player.file?.map Path.text = some "a.mid" := by decide +kernel
  refine ⟨⟨hplays, fun hall => ?_⟩, by decide +kernel, fun hundisturbed => ?_⟩
  · obtain ⟨m, hm, hplaying, htrack, hfile⟩ := hfirst
    obtain ⟨t, ht⟩ := Player.exists_of_isTrack htrack
    have hsame : t.file = ⟨"b.mid"⟩ :=
      Option.some.inj ((hall m hm t ht hplaying).2.symm.trans hplays.2)
    rw [Player.file?_of_isPlaying ht hplaying, hsame] at hfile
    exact absurd (Option.some.inj hfile) (by decide)
  · have hstopped : (s.step (.call "a" (.play 0.0))).stage.engine.transport.playing = false := by
      decide +kernel
    have hon := hundisturbed.playing.trans hplays.1
    rw [hstopped] at hon
    cases hon

end MidiRig.Session
