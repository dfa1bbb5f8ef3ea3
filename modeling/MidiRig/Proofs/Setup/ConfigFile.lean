import MidiRig.Proofs.Clock.Tempo
import MidiRig.Proofs.Number.Order
import MidiRig.Proofs.Setup.Bank
import MidiRig.Proofs.Toml.Document

/-!
# Saved configurations

A configuration that was accepted is saved and loaded exactly (`Config.exists_load`): its counts
of ticks come from a document, so they fit in one again, and its rates are numbers, since others
are refused. With banks this gives `saved_setups_load`.
-/

namespace MidiRig

open Binary64

/-! ## Counts of ticks -/

theorem bounded_fields? {known : List String} {closed : Bool} {v : Value}
    {fields : List (String × Value)} (hv : Bounded v) (h : v.fields? known closed = some fields) :
    ∀ entry ∈ fields, Bounded entry.2 := by
  cases hv with
  | table hentries =>
    rw [Value.fields?] at h
    split at h
    · cases h
    · cases h
      exact hentries
  | list hitems =>
    rw [Value.fields?] at h
    split at h
    · cases h
    · cases h
      exact fun entry hentry => hitems entry.2 (List.of_mem_zip hentry).2
  | _ => cases h

/-- A field that was found was written. -/
theorem bounded_of_lookup {fields : List (String × Value)} {name : String} {v : Value}
    (hfields : ∀ entry ∈ fields, Bounded entry.2) (h : fields.lookup name = some v) :
    Bounded v := hfields (name, v) (mem_of_lookup h)

theorem le_of_word64? {v : Value} {n : ℕ} (hv : Bounded v) (h : v.word64? = some n) :
    (n : ℤ) ≤ maxInt64 := by
  obtain ⟨m, hm, rfl⟩ := Option.map_eq_some_iff.mp h
  cases hv with
  | int hlo hhi =>
    rw [Value.intWithin?] at hm
    split at hm
    · next hbounds =>
      cases hm
      rwa [Int.toNat_of_nonneg hbounds.1]
    · cases hm
  | _ => cases hm

theorem word64?_ofNat {n : ℕ} (h : (n : ℤ) ≤ maxInt64) : (Value.int n).word64? = some n := by
  have hlarge : maxInt64 ≤ (maxWord64 : ℤ) := by decide
  exact map_intWithin?_ofNat (by exact_mod_cast h.trans hlarge)

/-- A field has what its reader gives on bounded values, and what stands for it has. -/
theorem field?_of_bounded {α : Type} {read : Value → Option α} {P : α → Prop}
    (hread : ∀ {v a}, Bounded v → read v = some a → P a) {absent : α} (habsent : P absent)
    {fields : List (String × Value)} (hfields : ∀ entry ∈ fields, Bounded entry.2) {name : String}
    {a : α} (h : Value.field? fields name read absent = some a) : P a := by
  unfold Value.field? at h
  split at h
  · next v hlookup => exact hread (bounded_of_lookup hfields hlookup) h
  · cases h
    exact habsent

theorem le_of_field? {fields : List (String × Value)} {name : String} {absent n : ℕ}
    (hfields : ∀ entry ∈ fields, Bounded entry.2) (habsent : (absent : ℤ) ≤ maxInt64)
    (h : Value.field? fields name Value.word64? absent = some n) : (n : ℤ) ≤ maxInt64 :=
  field?_of_bounded (P := fun n : ℕ => (n : ℤ) ≤ maxInt64) le_of_word64? habsent hfields h

/-! ## What is restored -/

/-- The value can be stored, and exactly this is read from what is kept of it. -/
structure Restores {α : Type} (k : ℕ) (read : Value → Option α) (v : Value) (a : α) : Prop where
  storable : Storable k v
  reads : ∀ w, Kept v w → read w = some a

theorem restores_bool (k : ℕ) (b : Bool) : Restores k Value.bool? (.bool b) b := by
  refine ⟨.bool k b, fun w hw => ?_⟩
  cases hw
  rfl

theorem restores_float {x : Float} (k : ℕ) (hx : x.isNaN = false) :
    Restores k Value.float? (.float x) x := by
  refine ⟨.float k hx, fun w hw => ?_⟩
  cases hw
  rfl

theorem restores_word64 {n : ℕ} (k : ℕ) (hn : (n : ℤ) ≤ maxInt64) :
    Restores k Value.word64? (.int n) n := by
  refine ⟨storable_ofNat k hn, fun w hw => ?_⟩
  cases hw
  exact word64?_ofNat hn

theorem Restores.field? {α : Type} {k : ℕ} {read : Value → Option α} {v : Value} {a : α}
    (h : Restores k read v a) {entries fields : List (String × Value)}
    (hkept : Kept (.table entries) (.table fields)) (hkeys : (entries.map (·.1)).Nodup)
    (name : String) (hlookup : entries.lookup name = some v) (absent : α) :
    Value.field? fields name read absent = some a := by
  obtain ⟨w, hw, hkept'⟩ := hkept.lookup_eq hkeys hlookup h.storable.ne_null
  rw [Value.field?, hw]
  exact h.reads w hkept'

theorem restores_table {α : Type} {k : ℕ} {read : Value → Option α}
    {entries : List (String × Value)} {a : α} (hkeys : (entries.map (·.1)).Nodup)
    (hentries : ∀ entry ∈ entries, Storable k entry.2)
    (hreads : ∀ fields, Kept (.table entries) (.table fields) → read (.table fields) = some a) :
    Restores (k + 1) read (.table entries) a := by
  refine ⟨.table (fun entry hentry _ => hentries entry hentry) hkeys, fun w hw => ?_⟩
  cases w with
  | table fields => exact hreads fields hw
  | _ => cases hw

namespace SequencerConfig

theorem lag_le {v : Value} {c : SequencerConfig} (hv : Bounded v) (h : ofValue? v = some c) :
    (c.lag : ℤ) ≤ maxInt64 := by
  obtain ⟨fields, hfields, h⟩ := Option.bind_eq_some_iff.mp h
  obtain ⟨ticks, -, h⟩ := Option.bind_eq_some_iff.mp h
  obtain ⟨lag, hlag, h⟩ := Option.bind_eq_some_iff.mp h
  obtain ⟨tempo, -, h⟩ := Option.bind_eq_some_iff.mp h
  cases h
  exact le_of_field? (bounded_fields? hv hfields) (by decide) hlag

theorem restores {c : SequencerConfig} (k : ℕ) (hticks : c.ticksPerSecond.isNaN = false)
    (hlag : (c.lag : ℤ) ≤ maxInt64) (htempo : c.defaultTempo.isNaN = false) :
    Restores (k + 1) ofValue? c.toValue c := by
  have ticks := restores_float k hticks
  have lag := restores_word64 k hlag
  have tempo := restores_float k htempo
  have hkeys : fieldNames.Nodup := by decide
  refine restores_table hkeys ?_ fun fields hkept => ?_
  · exact List.forall_mem_cons.mpr ⟨ticks.storable, List.forall_mem_cons.mpr
      ⟨lag.storable, List.forall_mem_singleton.mpr tempo.storable⟩⟩
  · have hfields : (Value.table fields).fields? fieldNames false = _ :=
      hkept.fields?_eq (List.Subset.refl _) false
    unfold ofValue?
    rw [hfields]
    dsimp only [Option.bind_eq_bind, Option.bind_some]
    rw [ticks.field? hkept hkeys "ticks_per_second" rfl, lag.field? hkept hkeys "seq_lag" rfl,
      tempo.field? hkept hkeys "default_tempo" rfl]
    rfl

end SequencerConfig

namespace RouterConfig

theorem tapTimeout_le {v : Value} {c : RouterConfig} (hv : Bounded v) (h : ofValue? v = some c) :
    (c.tapTimeout : ℤ) ≤ maxInt64 := by
  obtain ⟨fields, hfields, h⟩ := Option.bind_eq_some_iff.mp h
  obtain ⟨native, -, h⟩ := Option.bind_eq_some_iff.mp h
  obtain ⟨ratio, -, h⟩ := Option.bind_eq_some_iff.mp h
  obtain ⟨timeout, htimeout, h⟩ := Option.bind_eq_some_iff.mp h
  cases h
  exact le_of_field? (bounded_fields? hv hfields) (by decide) htimeout

theorem restores {c : RouterConfig} (k : ℕ) (hratio : c.tapRatio.isNaN = false)
    (htimeout : (c.tapTimeout : ℤ) ≤ maxInt64) : Restores (k + 1) ofValue? c.toValue c := by
  have native := restores_bool k c.nativeRouting
  have ratio := restores_float k hratio
  have timeout := restores_word64 k htimeout
  have hkeys : fieldNames.Nodup := by decide
  refine restores_table hkeys ?_ fun fields hkept => ?_
  · exact List.forall_mem_cons.mpr ⟨native.storable, List.forall_mem_cons.mpr
      ⟨ratio.storable, List.forall_mem_singleton.mpr timeout.storable⟩⟩
  · have hfields : (Value.table fields).fields? fieldNames false = _ :=
      hkept.fields?_eq (List.Subset.refl _) false
    unfold ofValue?
    rw [hfields]
    dsimp only [Option.bind_eq_bind, Option.bind_some]
    rw [native.field? hkept hkeys "native_routing" rfl, ratio.field? hkept hkeys "tap_ratio" rfl,
      timeout.field? hkept hkeys "tap_timeout_ticks" rfl]
    rfl

end RouterConfig

/-! ## Accepted configurations -/

namespace Config

/-- No rate of an accepted configuration fails to be a number. -/
theorem isNaN_of_problem? {c : Config} (h : c.problem? = none) :
    c.sequencer.ticksPerSecond.isNaN = false ∧ c.sequencer.defaultTempo.isNaN = false ∧
      c.router.tapRatio.isNaN = false := by
  have hrate : ∀ {x : Float}, ¬ (!Tempo.isRate x) = true → x.isNaN = false := by
    intro x hx
    obtain ⟨p, hp, -⟩ := Tempo.isRate_iff.mp (by simpa using hx)
    exact hp.isNaN
  unfold problem? at h
  split at h
  · cases h
  split at h
  · cases h
  split at h
  · cases h
  next hticks htempo hratio =>
  rw [Bool.not_eq_true', Bool.not_eq_false, Bool.and_eq_true, decide_eq_true_iff] at hratio
  exact ⟨hrate hticks, hrate htempo, (isNaN_of_le hratio.1).2⟩

theorem fields_le {v : Value} {c : Config} (hv : Bounded v) (h : ofValue? v = some c) :
    (c.sequencer.lag : ℤ) ≤ maxInt64 ∧ (c.router.tapTimeout : ℤ) ≤ maxInt64 := by
  obtain ⟨fields, hfields, h⟩ := Option.bind_eq_some_iff.mp h
  obtain ⟨sequencer, hsequencer, h⟩ := Option.bind_eq_some_iff.mp h
  obtain ⟨router, hrouter, h⟩ := Option.bind_eq_some_iff.mp h
  cases h
  have hbounded := bounded_fields? hv hfields
  constructor
  · exact field?_of_bounded (P := fun c => (c.lag : ℤ) ≤ maxInt64) SequencerConfig.lag_le
      (by decide) hbounded hsequencer
  · exact field?_of_bounded (P := fun c => (c.tapTimeout : ℤ) ≤ maxInt64)
      RouterConfig.tapTimeout_le (by decide) hbounded hrouter

theorem beq_self {c : Config} (h : c.problem? = none) : (c == c) = true := by
  obtain ⟨hticks, htempo, hratio⟩ := isNaN_of_problem? h
  have hsequencer : (c.sequencer == c.sequencer) = true := by
    show instBEqSequencerConfig.beq _ _ = true
    rw [instBEqSequencerConfig.beq, beq_self_iff.mpr hticks, beq_self_iff.mpr htempo,
      beq_self_eq_true]
    rfl
  have hrouter : (c.router == c.router) = true := by
    show instBEqRouterConfig.beq _ _ = true
    rw [instBEqRouterConfig.beq, beq_self_iff.mpr hratio, beq_self_eq_true, beq_self_eq_true]
    rfl
  show instBEqConfig.beq _ _ = true
  rw [instBEqConfig.beq, hsequencer, hrouter]
  rfl

theorem restores {c : Config} (k : ℕ) (hproblem : c.problem? = none)
    (hlag : (c.sequencer.lag : ℤ) ≤ maxInt64) (htimeout : (c.router.tapTimeout : ℤ) ≤ maxInt64) :
    Restores (k + 2) ofValue? c.toValue c := by
  obtain ⟨hticks, htempo, hratio⟩ := isNaN_of_problem? hproblem
  have sequencer := SequencerConfig.restores k hticks hlag htempo
  have router := RouterConfig.restores k hratio htimeout
  have hkeys : fieldNames.Nodup := by decide
  refine restores_table hkeys ?_ fun fields hkept => ?_
  · exact List.forall_mem_cons.mpr
      ⟨sequencer.storable, List.forall_mem_singleton.mpr router.storable⟩
  · have hfields : (Value.table fields).fields? fieldNames false = _ :=
      hkept.fields?_eq (List.Subset.refl _) false
    unfold ofValue?
    rw [hfields]
    dsimp only [Option.bind_eq_bind, Option.bind_some]
    rw [sequencer.field? hkept hkeys "sequencer" rfl, router.field? hkept hkeys "router" rfl]
    rfl

theorem load_eq_ok_iff {f : Format} {s : String} {c : Config} :
    load f s = .ok c ↔ ∃ v, f.read? s = some v ∧ ofValue? v = some c ∧ c.problem? = none := by
  unfold load
  constructor
  · intro h
    split at h
    · cases h
    · next hread =>
      obtain ⟨v, hv, hc⟩ := Option.bind_eq_some_iff.mp hread
      split at h
      · cases h
      · next hproblem =>
        cases h
        exact ⟨v, hv, hc, hproblem⟩
  · rintro ⟨v, hv, hc, hproblem⟩
    rw [hv, Option.bind_some, hc]
    dsimp only
    rw [hproblem]

/-- An accepted configuration is saved, and loaded as it was. -/
theorem exists_load {f : Format} (hf : f.Faithful 8) {s : String} {c : Config}
    (h : load f s = .ok c) : ∃ t, c.save? f = some t ∧ load f t = .ok c ∧ (c == c) = true := by
  obtain ⟨v, hv, hc, hproblem⟩ := load_eq_ok_iff.mp h
  obtain ⟨hlag, htimeout⟩ := fields_le (hf.bounded hv) hc
  have hrestores := restores 6 hproblem hlag htimeout
  obtain ⟨t, w, hsave, hw, hkept⟩ := hf.exists_read hrestores.storable
  have hload := load_eq_ok_iff.mpr ⟨w, hw, hrestores.reads w hkept, hproblem⟩
  exact ⟨t, hsave, hload, beq_self hproblem⟩

end Config

/-! ## Setups -/

/-- What was read survives saving, in every format that is faithful to documents nested at most
eight deep. A bank that came from any document, and none of whose doubles fails to be a number, is
saved, and an equal bank is loaded from its text; an accepted configuration is saved, and loaded
from its text as it was. -/
theorem saved_setups_load (f : Format) (hf : f.Faithful 8) :
    (∀ (v : Value) (b : Bank), Bank.ofValue? v = some b → (∀ x ∈ b.floats, x.isNaN = false) →
      ∃ s b', b.save? f = some s ∧ Bank.load f s = .ok b' ∧ (b' == b) = true) ∧
    ∀ (s : String) (c : Config), Config.load f s = .ok c →
      ∃ t, c.save? f = some t ∧ Config.load f t = .ok c ∧ (c == c) = true :=
  ⟨fun _ _ => Bank.exists_load hf, fun _ _ => Config.exists_load hf⟩

/-- A bank with ranges in all three forms, a patch without a name, and a sequence with a rest and
an event. -/
def chordBank : Value :=
  .table [("names", .table [("keys \"low\"", .text "36-59")]),
    ("rules", .list [.table [("type", .text "note=cc"), ("chan", .int 1), ("num", .float 64.5),
      ("val", .text "0-127"), ("inc", .int 2)]]),
    ("patches", .table [("", .table [("players", .table [("lead.1", .table [
      ("type", .text "sequence"),
      ("patterns", .list [.list [.list [.text ".", .text "note:1:60:0.75"]]])])])])])]

theorem chordBank_loads :
    (∃ b, Bank.ofValue? chordBank = some b ∧ (∀ x ∈ b.floats, x.isNaN = false) ∧
      ∃ s b', b.save? Toml.format = some s ∧ Bank.load Toml.format s = .ok b' ∧
        (b' == b) = true) ∧
    ∃ c, Config.load Toml.format "[router]\ntap_ratio = 0.25\n" = .ok c ∧
      ∃ t, c.save? Toml.format = some t ∧ Config.load Toml.format t = .ok c ∧
        (c == c) = true := by
  have hf : Toml.format.Faithful 8 := Toml.faithful_format.mono (by decide)
  have hread : (Bank.ofValue? chordBank).any (fun b => b.floats.all fun x => !x.isNaN) = true := by
    decide +kernel
  have haccepted : (Config.load Toml.format "[router]\ntap_ratio = 0.25\n").isOk = true := by
    decide +kernel
  constructor
  · cases hb : Bank.ofValue? chordBank with
    | none =>
      rw [hb] at hread
      exact absurd hread Bool.false_ne_true
    | some b =>
      rw [hb] at hread
      have hfloats : ∀ x ∈ b.floats, x.isNaN = false := fun x hx => by
        simpa using List.all_eq_true.mp hread x hx
      exact ⟨b, rfl, hfloats, (saved_setups_load Toml.format hf).1 chordBank b hb hfloats⟩
  · cases hc : Config.load Toml.format "[router]\ntap_ratio = 0.25\n" with
    | error e =>
      rw [hc] at haccepted
      exact absurd haccepted Bool.false_ne_true
    | ok c => exact ⟨c, rfl, (saved_setups_load Toml.format hf).2 _ c hc⟩

end MidiRig
