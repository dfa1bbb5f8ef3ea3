import MidiRig.Proofs.Player.Patterns
import MidiRig.Proofs.Session.Operation

/-!
# The order of a sequence in a session

Whatever has happened in a session, what a sequence would play next is what its order tells from
where it is, if the search may take the turns that this takes. Where it may not, the sequence finds
nothing and ends, although its order goes on (`Session.next_pattern`). The limit is enough for
orders in which each entry that goes back goes back over one that plays or stops. It is not enough
for all orders that a definition may have (`Session.search_gives_up`).
-/

namespace MidiRig

namespace Session

/-- Every place that a sequence can have come to has one reading, which names a pattern that there
is or the end, and the search finds that within its limit. -/
theorem next_pattern (rate : Float) (config : Config) (ops : List Op) :
    let s := (start rate config).run ops
    ∀ m ∈ s.stage.directory.members, ∀ q, m.player = .sequence q →
      ∃ turns found, Cursor.Reads q.order turns q.cursor found ∧
        (∀ turns' found', Cursor.Reads q.order turns' q.cursor found' → found' = found) ∧
        (∀ pattern c, found = some (pattern, c) → pattern < q.patterns.length) ∧
        q.cursor.pattern? q.order q.patterns.length =
          (if turns ≤ Cursor.turnLimit q.order then found else none) ∧
        (Cursor.Spaced q.order → turns ≤ Cursor.turnLimit q.order) := by
  intro s m hm q hq
  obtain ⟨born, hlives⟩ := lives_start .free rate config fun op (_ : op ∈ ops) => op.fits_free
  obtain ⟨d, -, hlife⟩ := hlives.of_mem hm
  have hsound : q.Sound := (hq ▸ hlife.sound _ rfl : Player.Sound (.sequence q))
  obtain ⟨turns, found, hread⟩ := Cursor.exists_reads hsound.plays q.cursor hsound.flags
  refine ⟨turns, found, hread, fun turns' found' hread' => hread'.unique hsound.order_ne_nil hread,
    fun pattern c hfound => ?_, hread.find?_eq hsound.order_ne_nil hsound.entries _,
    fun hspaced => hread.turns_le hspaced hsound.plays⟩
  have hentry := (hread.lands hsound.flags hfound).2
  have := hsound.entries _ (List.mem_of_getElem? hentry)
  omega

/-! ### Two orders -/

/-- A sequence of two patterns in some order is played once, as far as some deliveries go. -/
def inOrder (order : List Int) (deliveries : Nat) : List Op :=
  let key (n : ℤ) : Cell := .event (.note 1 n 100.0)
  .addPlayer "song" (.sequence { SequenceDef.default with
      patterns := [[[key 60]], [[key 62]]], order }) ::
    .call "song" (.play 1.0) :: List.replicate deliveries (.deliver 1000)

/-- Whether a player is a sequence of two patterns that plays and has come to a place. -/
def standsAt (order : List Int) (c : Cursor) : Player → Bool
  | .sequence q => q.playing && q.order == order && q.cursor == c && q.patterns.length == 2
  | _ => false

theorem exists_of_standsAt {order : List Int} {c : Cursor} {p : Player}
    (h : standsAt order c p = true) : ∃ q, p = .sequence q ∧ q.playing = true ∧ q.order = order ∧
      q.cursor = c ∧ q.patterns.length = 2 := by
  cases p with
  | sequence q =>
    simp only [standsAt, Bool.and_eq_true, beq_iff_eq] at h
    obtain ⟨⟨⟨hplaying, horder⟩, hcursor⟩, hpatterns⟩ := h
    exact ⟨q, rfl, hplaying, horder, hcursor, hpatterns⟩
  | _ => cases h

/-- After both patterns the order goes back over them. -/
theorem next_pattern_repeated :
    ∃ m ∈ ((start 1000.0 .default).run (inOrder [1, 2, -2] 3)).stage.directory.members,
      ∃ q, m.player = .sequence q ∧ q.playing = true ∧ q.order = [1, 2, -2] ∧
        q.cursor.position = 2 ∧
        ∃ turns c, Cursor.Reads q.order turns q.cursor (some (0, c)) ∧
          q.cursor.pattern? q.order q.patterns.length = some (0, c) := by
  have hstands : ∃ m ∈ ((start 1000.0 .default).run (inOrder [1, 2, -2] 3)).stage.directory.members,
      standsAt [1, 2, -2] ⟨2, [false, false, false], some 1⟩ m.player = true := by decide +kernel
  obtain ⟨m, hm, hstands⟩ := hstands
  obtain ⟨q, hq, hplaying, horder, hcursor, hpatterns⟩ := exists_of_standsAt hstands
  obtain ⟨turns, found, hread, -, -, hfound, hspaced⟩ :=
    next_pattern 1000.0 .default (inOrder [1, 2, -2] 3) m hm q hq
  rw [if_pos (hspaced (by rw [horder]; decide))] at hfound
  have hnext : q.cursor.pattern? q.order q.patterns.length =
      some (0, ⟨0, [false, false, true], some 1⟩) := by
    rw [horder, hcursor, hpatterns]
    decide
  rw [hnext] at hfound
  subst hfound
  exact ⟨m, hm, q, hq, hplaying, horder, by rw [hcursor], turns, _, hread, hnext⟩

/-- Each of four entries goes back over all the ones before it. The order comes to its pattern in
fifteen turns, and the search gives up after twelve. -/
theorem search_gives_up :
    let order : List Int := [-1, -2, -3, -4, 1]
    ∃ m ∈ ((start 1000.0 .default).run (inOrder order 0)).stage.directory.members,
      ∃ q, m.player = .sequence q ∧ q.playing = true ∧ q.order = order ∧
        Cursor.turnLimit q.order = 12 ∧ (∃ c, Cursor.Reads q.order 15 q.cursor (some (0, c))) ∧
        q.cursor.pattern? q.order q.patterns.length = none := by
  intro order
  have hstands : ∃ m ∈ ((start 1000.0 .default).run (inOrder order 0)).stage.directory.members,
      standsAt order (.start 5 (some 1)) m.player = true := by decide +kernel
  obtain ⟨m, hm, hstands⟩ := hstands
  obtain ⟨q, hq, hplaying, horder, hcursor, hpatterns⟩ := exists_of_standsAt hstands
  refine ⟨m, hm, q, hq, hplaying, horder, by rw [horder]; rfl, ?_, ?_⟩
  · rw [horder, hcursor]
    obtain ⟨turns, found, hread⟩ :
        ∃ turns found, Cursor.Reads order turns (.start 5 (some 1)) found :=
      Cursor.exists_reads (by decide) (.start 5 (some 1)) rfl
    have hfinds : ∀ limit, Cursor.find? order 2 limit _ = _ :=
      hread.find?_eq (by decide) (by decide)
    have hlate := hfinds 14
    have hfound := hfinds 15
    rw [show Cursor.find? order 2 14 (.start 5 (some 1)) = none by decide] at hlate
    rw [show Cursor.find? order 2 15 (.start 5 (some 1)) =
      some (0, ⟨4, [true, true, true, true, false], some 1⟩) by decide] at hfound
    split at hfound
    · next hturns =>
      subst hfound
      have hmore : ¬ turns ≤ 14 := fun hle => by rw [if_pos hle] at hlate; cases hlate
      obtain rfl : turns = 15 := by omega
      exact ⟨_, hread⟩
    · cases hfound
  · rw [horder, hcursor, hpatterns]
    decide

end Session

end MidiRig
