import MidiRig.Event.Bytes
import MidiRig.Proofs.Event.Text
import MidiRig.Rule.Basic

/-!
# Fields that an event has

However an event was made (`Made`) and changed since (`Change`), it has a channel or a number only
if its kind has one. The payload is another matter: `withKind` carries it along, so that what was an
exclusive message has it as an event of any kind (`clock_keeps_payload`). No other change leads
there, and a rule leads back (`fields_fit`).
-/

namespace MidiRig.Event

/-! ## Changes -/

/-- Events that are made and not changed from others: those of the constructors, of bytes and of
texts. -/
inductive Made : Event → Prop
  | make (kind : Kind) (channel number : Option ℤ) (value : Float) :
    Made (make kind channel number value)
  | exclusive (payload : List UInt8) : Made (exclusive payload)
  | bytes {bytes : List UInt8} {e : Event} (h : ofBytes? bytes = some e) : Made e
  | text {s : String} {e : Event} (h : ofText s = .ok e) : Made e

/-- Ways to get an event from another one. -/
inductive Change where
  | kind (kind : Kind)
  | channel (channel : Option ℤ)
  | number (number : Option ℤ)
  | value (value : Float)
  | rule (rule : Rule)
  | lowByte (rule : Rule)

/-- The event that the change gives; only that for the low byte can be missing. -/
def step? (e : Event) : Change → Option Event
  | .kind kind => some (e.withKind kind)
  | .channel channel => some (e.withChannel channel)
  | .number number => some (e.withNumber number)
  | .value value => some (e.withValue value)
  | .rule rule => some (rule.apply e).event
  | .lowByte rule => (rule.apply e).lowByte

/-- The event after one change after the other. -/
def changed? (start : Event) (changes : List Change) : Option Event := changes.foldlM step? start

/-- The payload stays, and no exclusive message comes of it. -/
def Change.Keeps : Change → Prop
  | kind k => k ≠ .exclusive
  | channel _ | number _ | value _ => True
  | rule _ | lowByte _ => False

/-- Among the changes is one that gave another kind to an exclusive message with that payload, and
since then it was changed in single fields only, and was not made an exclusive message again. -/
def Strayed (start : Event) (changes : List Change) (payload : List UInt8) : Prop :=
  ∃ before message kind after, changes = before ++ .kind kind :: after ∧
    start.changed? before = some message ∧ message.kind = .exclusive ∧
    message.payload = payload ∧ ∀ c ∈ Change.kind kind :: after, c.Keeps

theorem changed?_append {start : Event} {changes : List Change} {more : List Change} {e : Event} :
    start.changed? (changes ++ more) = some e ↔
      ∃ e₀, start.changed? changes = some e₀ ∧ e₀.changed? more = some e := by
  rw [changed?, List.foldlM_append]
  exact Option.bind_eq_some_iff

theorem changed?_cons {e e' : Event} {c : Change} {changes : List Change} :
    e.changed? (c :: changes) = some e' ↔
      ∃ e₀, e.step? c = some e₀ ∧ e₀.changed? changes = some e' := by
  rw [changed?, List.foldlM_cons]
  exact Option.bind_eq_some_iff

theorem changed?_concat {start e : Event} {changes : List Change} {c : Change} :
    start.changed? (changes ++ [c]) = some e ↔
      ∃ e₀, start.changed? changes = some e₀ ∧ e₀.step? c = some e := by
  rw [changed?_append]
  simp only [changed?, List.foldlM_cons, List.foldlM_nil, bind_pure]

/-! ## New events -/

/-- An event that was put together from its fields. -/
def Fresh (e : Event) : Prop :=
  (∃ kind channel number value, e = make kind channel number value) ∨
    ∃ payload, e = exclusive payload

theorem fresh_make (kind : Kind) (channel number : Option ℤ) (value : Float) :
    Fresh (make kind channel number value) :=
  .inl ⟨kind, channel, number, value, rfl⟩

theorem Fresh.payload {e : Event} (h : Fresh e) (hpayload : e.payload ≠ []) :
    e.kind = .exclusive := by
  rcases h with ⟨kind, channel, number, value, rfl⟩ | ⟨payload, rfl⟩
  · exact absurd rfl hpayload
  · rfl

theorem fresh_of_ofChannelBytes? {status : ℕ} {data : List UInt8} {e : Event}
    (h : ofChannelBytes? status data = some e) : Fresh e := by
  unfold ofChannelBytes? at h
  simp only at h
  split at h
  case h_1 =>
    split at h <;> cases h <;> exact fresh_make ..
  case h_8 => cases h
  all_goals
    cases h
    exact fresh_make ..

theorem fresh_of_ofBytes? {bytes : List UInt8} {e : Event} (h : ofBytes? bytes = some e) :
    Fresh e := by
  unfold ofBytes? at h
  split at h
  case h_1 => cases h
  case h_2 status data =>
    split at h
    case h_5 =>
      cases h
      exact .inr ⟨_, rfl⟩
    case h_6 => exact fresh_of_ofChannelBytes? h
    all_goals
      cases h
      exact fresh_make ..

theorem Made.fresh {e : Event} (h : Made e) : Fresh e := by
  cases h with
  | make kind channel number value => exact fresh_make ..
  | exclusive payload => exact .inr ⟨payload, rfl⟩
  | bytes h => exact fresh_of_ofBytes? h
  | text h =>
    cases worded_of_ofText h with
    | exclusive payload => exact .inr ⟨payload, rfl⟩
    | message | transport => exact fresh_make ..

/-- What a rule gives is a new event, but for one that it makes an exclusive message of. -/
theorem fresh_apply (r : Rule) (e : Event) :
    Fresh (r.apply e).event ∨ (r.apply e).event = e.withKind .exclusive := by
  unfold Rule.apply
  split
  · exact .inl (fresh_make ..)
  · unfold Rule.applyMessage
    simp only
    split
    · exact .inr rfl
    · split <;> exact .inl (fresh_make ..)

theorem fresh_lowByte {r : Rule} {e low : Event} (h : (r.apply e).lowByte = some low) :
    Fresh low := by
  unfold Rule.apply at h
  split at h
  · cases h
  · obtain ⟨controller, -, rfl⟩ := Option.map_eq_some_iff.mp h
    exact fresh_make ..

/-! ## Channel and number -/

/-- No channel and no number but those of the kind. -/
structure Confined (e : Event) : Prop where
  channel : e.channel ≠ none → e.kind.hasChannel = true
  number : e.number ≠ none → e.kind.hasNumber = true

theorem keepIf_ne_none {carried : Bool} {field : Option ℤ} (h : keepIf carried field ≠ none) :
    carried = true := by
  cases carried with
  | true => rfl
  | false => exact absurd rfl h

theorem confined_withKind (e : Event) (kind : Kind) : (e.withKind kind).Confined where
  channel := keepIf_ne_none
  number := keepIf_ne_none

theorem Fresh.confined {e : Event} (h : Fresh e) : e.Confined := by
  rcases h with ⟨kind, channel, number, value, rfl⟩ | ⟨payload, rfl⟩
  · exact ⟨keepIf_ne_none, keepIf_ne_none⟩
  · exact ⟨fun h => absurd rfl h, fun h => absurd rfl h⟩

theorem Confined.step? {e e' : Event} {c : Change} (h : e.Confined)
    (hchange : e.step? c = some e') : e'.Confined := by
  cases c with
  | kind kind =>
    cases hchange
    exact confined_withKind e kind
  | channel channel =>
    cases hchange
    exact ⟨keepIf_ne_none, h.number⟩
  | number number =>
    cases hchange
    exact ⟨h.channel, keepIf_ne_none⟩
  | value value =>
    cases hchange
    exact ⟨h.channel, h.number⟩
  | rule rule =>
    cases hchange
    rcases fresh_apply rule e with hfresh | heq
    · exact hfresh.confined
    · exact heq ▸ confined_withKind e .exclusive
  | lowByte rule => exact (fresh_lowByte hchange).confined

theorem Confined.changed? {start e : Event} (h : start.Confined) {changes : List Change}
    (hchanged : start.changed? changes = some e) : e.Confined := by
  induction changes generalizing start with
  | nil =>
    cases hchanged
    exact h
  | cons c changes ih =>
    obtain ⟨e₀, hfirst, hrest⟩ := changed?_cons.mp hchanged
    exact ih (h.step? hfirst) hrest

/-! ## Payload -/

theorem Change.Keeps.step? {c : Change} (hc : c.Keeps) {e e' : Event}
    (hchange : e.step? c = some e') (hkind : e.kind ≠ .exclusive ∨ ∃ k, c = .kind k) :
    e'.kind ≠ .exclusive ∧ e'.payload = e.payload := by
  cases c with
  | kind kind =>
    cases hchange
    exact ⟨hc, rfl⟩
  | channel | number | value =>
    cases hchange
    exact ⟨hkind.resolve_right nofun, rfl⟩
  | rule | lowByte => exact hc.elim

theorem keeps_changed? {start e : Event} {changes : List Change} (hkeeps : ∀ c ∈ changes, c.Keeps)
    (hkind : start.kind ≠ .exclusive) (h : start.changed? changes = some e) :
    e.kind ≠ .exclusive ∧ e.payload = start.payload := by
  induction changes generalizing start with
  | nil =>
    cases h
    exact ⟨hkind, rfl⟩
  | cons c changes ih =>
    obtain ⟨e₀, hfirst, hrest⟩ := changed?_cons.mp h
    obtain ⟨hkind₀, hpayload₀⟩ := (hkeeps c List.mem_cons_self).step? hfirst (.inl hkind)
    rw [← hpayload₀]
    exact ih (fun d hd => hkeeps d (List.mem_cons_of_mem _ hd)) hkind₀ hrest

theorem Strayed.spec {start e : Event} {changes : List Change} {payload : List UInt8}
    (h : Strayed start changes payload) (hchanged : start.changed? changes = some e) :
    e.kind ≠ .exclusive ∧ e.payload = payload := by
  obtain ⟨before, message, kind, after, rfl, hbefore, -, rfl, hkeeps⟩ := h
  obtain ⟨e₀, hfirst, hrest⟩ := changed?_append.mp hchanged
  obtain rfl := Option.some_inj.mp (hbefore.symm.trans hfirst)
  obtain ⟨e₁, hkind, hafter⟩ := changed?_cons.mp hrest
  obtain ⟨hkind₁, hpayload₁⟩ :=
    (hkeeps _ List.mem_cons_self).step? hkind (.inr ⟨kind, rfl⟩)
  rw [← hpayload₁]
  exact keeps_changed? (fun c hc => hkeeps c (List.mem_cons_of_mem _ hc)) hkind₁ hafter

/-- A payload that the kind lacks was there before the change, and the change kept it. Only a new
kind takes an exclusive message there. -/
theorem keeps_of_payload {e e' : Event} {c : Change} (hchange : e.step? c = some e')
    (hpayload : e'.payload ≠ []) (hkind : e'.kind ≠ .exclusive) :
    c.Keeps ∧ e'.payload = e.payload ∧ (e.kind = .exclusive → ∃ k, c = .kind k) := by
  cases c with
  | kind kind =>
    cases hchange
    exact ⟨hkind, rfl, fun _ => ⟨kind, rfl⟩⟩
  | channel | number | value =>
    cases hchange
    exact ⟨trivial, rfl, fun h => absurd h hkind⟩
  | rule rule =>
    cases hchange
    rcases fresh_apply rule e with hfresh | heq
    · exact absurd (hfresh.payload hpayload) hkind
    · exact absurd (congrArg Event.kind heq) hkind
  | lowByte rule => exact absurd ((fresh_lowByte hchange).payload hpayload) hkind

theorem strayed_of_payload {start : Event} (hmade : Made start) (changes : List Change) {e : Event}
    (hchanged : start.changed? changes = some e) (hpayload : e.payload ≠ [])
    (hkind : e.kind ≠ .exclusive) : Strayed start changes e.payload := by
  -- from the last change back to the one that took the payload away from its kind
  induction changes using List.reverseRecOn generalizing e with
  | nil =>
    cases hchanged
    exact absurd (hmade.fresh.payload hpayload) hkind
  | append_singleton changes c ih =>
    obtain ⟨e₀, hbefore, hlast⟩ := changed?_concat.mp hchanged
    obtain ⟨hkeeps, hsame, hmessage⟩ := keeps_of_payload hlast hpayload hkind
    by_cases hkind₀ : e₀.kind = .exclusive
    · obtain ⟨k, rfl⟩ := hmessage hkind₀
      exact ⟨changes, e₀, k, [], rfl, hbefore, hkind₀, hsame.symm, by simpa using hkeeps⟩
    · obtain ⟨before, message, kind, after, rfl, hmessage, hexclusive, hpayload, hafter⟩ :=
        ih hbefore (hsame ▸ hpayload) hkind₀
      refine ⟨before, message, kind, after ++ [c], by simp, hmessage, hexclusive,
        hpayload.trans hsame.symm, fun d hd => ?_⟩
      rw [← List.cons_append, List.mem_append, List.mem_singleton] at hd
      rcases hd with hd | rfl
      · exact hafter d hd
      · exact hkeeps

/-! ## All fields -/

/-- Whatever is done to an event, channel and number are those of its kind. A payload that its
kind lacks is that of an exclusive message which got another kind. -/
theorem fields_fit {start e : Event} (hmade : Made start) {changes : List Change}
    (hchanged : start.changed? changes = some e) :
    (e.channel ≠ none → e.kind.hasChannel = true) ∧
    (e.number ≠ none → e.kind.hasNumber = true) ∧
    ∀ payload ≠ [], e.kind ≠ .exclusive ∧ e.payload = payload ↔ Strayed start changes payload := by
  have hconfined := hmade.fresh.confined.changed? hchanged
  refine ⟨hconfined.channel, hconfined.number, fun payload hpayload => ⟨?_, fun h => ?_⟩⟩
  · rintro ⟨hkind, rfl⟩
    exact strayed_of_payload hmade changes hchanged hpayload hkind
  · exact h.spec hchanged

/-- An exclusive message that has become a note goes through a rule for controllers, which leaves
nothing of its payload. -/
theorem fields_fit_mapped :
    let rule : Rule := ⟨.note, .control, none, none, none, none, none, []⟩
    Made (exclusive [1, 2]) ∧
    (exclusive [1, 2]).changed? [.kind .note, .rule rule] =
      some ⟨.control, none, some 0, 0.0, []⟩ ∧
    ∀ payload ≠ [], ¬ Strayed (exclusive [1, 2]) [.kind .note, .rule rule] payload := by
  intro rule
  have hmade : Made (exclusive [1, 2]) := .exclusive _
  have hchanged : (exclusive [1, 2]).changed? [.kind .note, .rule rule] =
      some ⟨.control, none, some 0, 0.0, []⟩ := rfl
  obtain ⟨-, -, hpayload⟩ := fields_fit hmade hchanged
  exact ⟨hmade, hchanged, fun payload hne h => hne ((hpayload payload hne).mpr h).2.symm⟩

/-- A clock with the payload of the exclusive message that it was. -/
theorem clock_keeps_payload :
    Made (exclusive [1]) ∧ ∃ e, (exclusive [1]).changed? [.kind .clock] = some e ∧
      e.payload = [1] ∧ e.kind ≠ .exclusive :=
  ⟨.exclusive _, _, rfl, rfl, nofun⟩

end MidiRig.Event
