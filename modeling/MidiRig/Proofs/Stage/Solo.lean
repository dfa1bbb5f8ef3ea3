import MidiRig.Proofs.Stage.Part

/-!
# A player by itself

A `Cue` is something that happens to one player: it is made, called or dismissed, or time passes.
`Solo.Plays` says what a player with its agenda and a clock makes of cues where there is nothing
else, no other player and no queue that it shares. A player that goes by the clock looks at nothing
else of the engine (`Player.respond_of_now`), so only one thing can come of the cues that it gets
(`Solo.Plays.unique`).
-/

namespace MidiRig

/-! ## Players that go by the clock -/

/-- Whether players of a definition go by the engine's clock. A track goes by the file. -/
def PlayerDef.byClock : PlayerDef → Bool
  | .track _ => false
  | _ => true

namespace Player

def byClock : Player → Bool
  | track _ => false
  | _ => true

theorem byClock_make (d : PlayerDef) (config : SequencerConfig) (rate : Float) :
    (make d config rate).byClock = d.byClock := by
  cases d <;> rfl

theorem byClock_respond (p : Player) (m : Moment) (c : Call) :
    (p.respond m c).1.byClock = p.byClock := by
  cases p <;> rfl

variable {p : Player}

/-- What such a player sees of the engine is its clock. -/
theorem respond_of_now (hp : p.byClock) {m n : Moment} (h : m.now = n.now) (c : Call) :
    p.respond m c = p.respond n c := by
  obtain ⟨now, resolution⟩ := m
  obtain ⟨now', resolution'⟩ := n
  obtain rfl : now = now' := h
  cases p with
  | track t => cases hp
  | sequence s => cases c <;> rfl
  | arpeggio a => cases c <;> rfl
  | loop l => cases c <;> rfl

/-- It hears nothing of the file. -/
theorem respond_fileTick (hp : p.byClock) (m : Moment) (position : Nat) :
    p.respond m (.fileTick position) = (p, []) := by
  cases p with
  | track t => cases hp
  | _ => rfl

end Player

namespace Part

/-- Whether the player, if there is one, goes by the clock. -/
def ByClock (p : Part) : Prop := ∀ player, p.player = some player → player.byClock

variable {p q r : Part} {m n : Moment} {played played' : List Played}

theorem byClock_none (a : Agenda) : ByClock ⟨none, a⟩ := nofun

theorem byClock_some {player : Player} (h : player.byClock) (a : Agenda) :
    ByClock ⟨some player, a⟩ := by
  rintro _ ⟨⟩
  exact h

theorem Turn.byClock (h : Turn m p played q) (hp : p.ByClock) : q.ByClock := by
  cases h with
  | plays => exact hp
  | wakes => exact byClock_some ((Player.byClock_respond _ _ _).trans (hp _ rfl)) _
  | lost => exact byClock_none _

theorem Turn.unique (h : Turn m p played q) (h' : Turn n p played' r) (hp : p.ByClock)
    (hnow : m.now = n.now) : played = played' ∧ q = r := by
  cases h with
  | plays e =>
    cases h'
    rw [hnow]
    exact ⟨rfl, rfl⟩
  | wakes =>
    cases h'
    rw [Player.respond_of_now (hp _ rfl) hnow, hnow]
    exact ⟨rfl, rfl⟩
  | lost =>
    cases h'
    exact ⟨rfl, rfl⟩

end Part

/-! ## Cues -/

/-- What happens to one player. -/
inductive Cue where
  | create (d : PlayerDef)
  | call (c : Call)
  | leave
  /-- What is due up to a tick is delivered. -/
  | advance (tick : Nat)
  /-- The clock is set, and nothing is delivered. -/
  | setTick (tick : Nat)

/-- A part with a clock. -/
structure Solo where
  now : Nat
  part : Part

namespace Solo

/-- One turn after the other until nothing is due. The clock stops at each slot. -/
inductive Drains (limit : Nat) : Solo → List Played → Solo → Prop where
  | rest {s : Solo} (h : ∀ x ∈ s.part.agenda, limit < x.tick) : Drains limit s [] s
  | turn {s t : Solo} {x : Slot} {m : Moment} {p : Part} {played more : List Played}
      (hfirst : s.part.agenda.head? = some x) (hdue : x.tick ≤ limit)
      (hnow : m.now = max s.now x.tick) (hturn : Part.Turn m s.part played p)
      (hrest : Drains limit ⟨m.now, p⟩ more t) : Drains limit s (played ++ more) t

/-- What comes of a cue. A player is made for the configuration and the tick rate of the engine. -/
inductive Takes (config : SequencerConfig) (rate : Float) :
    Solo → Cue → List Played → Solo → Prop where
  | create (now : Nat) (d : PlayerDef) :
      Takes config rate ⟨now, none, []⟩ (.create d) [] ⟨now, some (.make d config rate), []⟩
  | call (now resolution : Nat) (p : Player) (a : Agenda) (c : Call) :
      Takes config rate ⟨now, some p, a⟩ (.call c) (atOnce now (p.respond ⟨now, resolution⟩ c).2)
        ⟨now, some (p.respond ⟨now, resolution⟩ c).1,
          a.perform now (p.respond ⟨now, resolution⟩ c).2⟩
  | leave (now resolution : Nat) (p : Player) (a : Agenda) :
      Takes config rate ⟨now, some p, a⟩ .leave
        (atOnce now (p.respond ⟨now, resolution⟩ .dismiss).2)
        ⟨now, none, a.perform now (p.respond ⟨now, resolution⟩ .dismiss).2⟩
  | advance {s t : Solo} {tick : Nat} {played : List Played} (h : Drains tick s played t) :
      Takes config rate s (.advance tick) played ⟨max s.now tick, t.part⟩
  | setTick (s : Solo) (tick : Nat) :
      Takes config rate s (.setTick tick) [] ⟨max s.now tick, s.part⟩

/-- What comes of cues in turn. -/
inductive Plays (config : SequencerConfig) (rate : Float) :
    Solo → List Cue → List Played → Solo → Prop where
  | nil (s : Solo) : Plays config rate s [] [] s
  | cons {s t u : Solo} {cue : Cue} {cues : List Cue} {played more : List Played}
      (h : Takes config rate s cue played t) (hrest : Plays config rate t cues more u) :
      Plays config rate s (cue :: cues) (played ++ more) u

variable {config : SequencerConfig} {rate : Float} {s t u : Solo} {cue : Cue} {cues : List Cue}
  {limit : Nat} {played played' more : List Played}

theorem Drains.byClock (h : Drains limit s played t) (hs : s.part.ByClock) : t.part.ByClock := by
  induction h with
  | rest => exact hs
  | turn _ _ _ hturn _ ih => exact ih (hturn.byClock hs)

theorem Drains.unique (h : Drains limit s played t) (h' : Drains limit s played' u)
    (hs : s.part.ByClock) : played = played' ∧ t = u := by
  induction h generalizing played' u with
  | rest h =>
    cases h' with
    | rest => exact ⟨rfl, rfl⟩
    | turn hfirst hdue => exact absurd (h _ (List.mem_of_head? hfirst)) (Nat.not_lt.mpr hdue)
  | turn hfirst hdue hnow hturn _ ih =>
    cases h' with
    | rest h => exact absurd (h _ (List.mem_of_head? hfirst)) (Nat.not_lt.mpr hdue)
    | turn hfirst' _ hnow' hturn' hrest' =>
      obtain rfl := Option.some.inj (hfirst.symm.trans hfirst')
      have hsame := hnow.trans hnow'.symm
      obtain ⟨rfl, rfl⟩ := hturn.unique hturn' hs hsame
      rw [← hsame] at hrest'
      obtain ⟨rfl, rfl⟩ := ih hrest' (hturn.byClock hs)
      exact ⟨rfl, rfl⟩

theorem Takes.byClock (h : Takes config rate s cue played t) (hs : s.part.ByClock)
    (hcue : ∀ d, cue = .create d → d.byClock) : t.part.ByClock := by
  cases h with
  | create now d => exact Part.byClock_some ((Player.byClock_make _ _ _).trans (hcue d rfl)) _
  | call now resolution p a c =>
    exact Part.byClock_some ((Player.byClock_respond _ _ _).trans (hs _ rfl)) _
  | leave => exact Part.byClock_none _
  | advance h => exact h.byClock hs
  | setTick => exact hs

theorem Takes.unique (h : Takes config rate s cue played t)
    (h' : Takes config rate s cue played' u) (hs : s.part.ByClock) : played = played' ∧ t = u := by
  cases h with
  | create =>
    cases h'
    exact ⟨rfl, rfl⟩
  | call now resolution p a c =>
    cases h' with
    | call _ resolution' =>
      have hsame := Player.respond_of_now (hs p rfl) (m := ⟨now, resolution⟩)
        (n := ⟨now, resolution'⟩) rfl c
      rw [hsame]
      exact ⟨rfl, rfl⟩
  | leave now resolution p a =>
    cases h' with
    | leave _ resolution' =>
      have hsame := Player.respond_of_now (hs p rfl) (m := ⟨now, resolution⟩)
        (n := ⟨now, resolution'⟩) rfl .dismiss
      rw [hsame]
      exact ⟨rfl, rfl⟩
  | advance h =>
    cases h' with
    | advance h' =>
      obtain ⟨rfl, rfl⟩ := h.unique h' hs
      exact ⟨rfl, rfl⟩
  | setTick =>
    cases h'
    exact ⟨rfl, rfl⟩

theorem Takes.plays (h : Takes config rate s cue played t) :
    Plays config rate s [cue] played t := by
  have hplays := Plays.cons h (.nil t)
  rwa [List.append_nil] at hplays

theorem Plays.append (h : Plays config rate s cues played t) {cues' : List Cue}
    (h' : Plays config rate t cues' more u) :
    Plays config rate s (cues ++ cues') (played ++ more) u := by
  induction h with
  | nil => exact h'
  | cons hfirst _ ih =>
    rw [List.append_assoc]
    exact .cons hfirst (ih h')

theorem Plays.byClock (h : Plays config rate s cues played t) (hs : s.part.ByClock)
    (hcues : ∀ d, .create d ∈ cues → d.byClock) : t.part.ByClock := by
  induction h with
  | nil => exact hs
  | cons hfirst _ ih =>
    refine ih (hfirst.byClock hs ?_) fun d hd => hcues d (List.mem_cons_of_mem _ hd)
    rintro d rfl
    exact hcues d List.mem_cons_self

/-- Only one thing comes of the cues that a player gets. -/
theorem Plays.unique (h : Plays config rate s cues played t)
    (h' : Plays config rate s cues played' u) (hs : s.part.ByClock)
    (hcues : ∀ d, .create d ∈ cues → d.byClock) : played = played' ∧ t = u := by
  induction h generalizing played' u with
  | nil =>
    cases h'
    exact ⟨rfl, rfl⟩
  | cons hfirst _ ih =>
    cases h' with
    | cons hfirst' hrest' =>
      obtain ⟨rfl, rfl⟩ := hfirst.unique hfirst' hs
      have hnext := hfirst.byClock hs fun d hd => hcues d (hd ▸ List.mem_cons_self)
      obtain ⟨rfl, rfl⟩ := ih hrest' hnext fun d hd => hcues d (List.mem_cons_of_mem _ hd)
      exact ⟨rfl, rfl⟩

end Solo

end MidiRig
