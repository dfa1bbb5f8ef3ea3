import MidiRig.Proofs.Setup.Definition

/-!
# Saved banks

Rules, patches and banks that were read survive saving (`Bank.exists_load`): ranges keep their
form, fields that were left out stay away, and patches and players come back under their names.
-/

namespace MidiRig

open Binary64

/-! ## Rules -/

namespace Entry

def floats : Entry → List Float
  | float x => [x]
  | _ => []

/-- A range is read again in the form in which it is kept. -/
theorem lasting (k : ℕ) : Lasting k ofValue? toValue floats := by
  intro v e hread hfloats
  have hfloat : ∀ x : Float, x.isNaN = false → Survives k ofValue? toValue (float x) := by
    refine fun x hx => ⟨.float k hx, fun w hw => ?_⟩
    cases hw
    exact ⟨float x, rfl, beq_self_iff.mpr hx⟩
  unfold ofValue? at hread
  split at hread
  · next n =>
    split at hread
    · next hfits =>
      cases hread
      have hbounds : minInt64 ≤ n ∧ n ≤ maxInt64 := by
        by_contra hout
        rw [Value.int64?, Value.intWithin?, if_neg hout] at hfits
        exact Bool.false_ne_true hfits
      refine ⟨.int k hbounds.1 hbounds.2, fun w hw => ?_⟩
      cases hw
      refine ⟨int n, ?_, beq_self_eq_true n⟩
      rw [ofValue?, if_pos hfits]
    · cases hread
      exact hfloat _ (hfloats _ List.mem_cons_self)
  · cases hread
    exact hfloat _ (hfloats _ List.mem_cons_self)
  · next s =>
    cases hread
    refine ⟨.text k s, fun w hw => ?_⟩
    cases hw
    exact ⟨text s, rfl, beq_self_eq_true s⟩
  · cases hread

end Entry

/-- An optional text is read exactly. -/
theorem optional?_text {entries fields : List (String × Value)}
    (hkept : Kept (.table entries) (.table fields)) (hkeys : (entries.map (·.1)).Nodup)
    {o : Option String} (name : String)
    (hlookup : entries.lookup name = some (Value.ofOption .text o)) :
    Value.optional? fields name Value.text? = some o := by
  obtain ⟨o', hread, heq⟩ :=
    survives_optional? hkept hkeys (fun s _ => survives_text 0 s) name hlookup
  rw [hread, beq_iff_eq.mp heq]

namespace RuleSpec

/-- The doubles of a rule. -/
def floats (s : RuleSpec) : List Float :=
  [s.channel, s.number, s.value].flatMap (fun o => o.toList.flatMap Entry.floats) ++
    (s.log.toList ++ s.increment.toList)

/-- All fields of a rule, those that are left out without a value. -/
def fields (s : RuleSpec) : List (String × Value) :=
  [("type", .text s.type), ("chan", .ofOption Entry.toValue s.channel),
    ("num", .ofOption Entry.toValue s.number), ("val", .ofOption Entry.toValue s.value),
    ("log", .ofOption .float s.log), ("lsb", .ofOption .int s.lowByte),
    ("counter", .ofOption .text s.counter), ("inc", .ofOption .float s.increment),
    ("fluidsetting", .ofOption .text s.setting), ("play", .ofOption .text s.play),
    ("tempo", .ofOption .text s.tempo), ("record", .ofOption .text s.record),
    ("swing", .ofOption .text s.swing), ("groove", .ofOption .text s.groove),
    ("tap", .ofOption .text s.tap), ("arpeggio", .ofOption .text s.arpeggio),
    ("loop", .ofOption .text s.loop), ("fx", .ofOption .text s.port)]

/-- The entries without some of those that have no value. -/
structure Omits (entries all : List (String × Value)) : Prop where
  sublist : entries.Sublist all
  kept : ∀ kept, KeptEntries entries kept → KeptEntries all kept

theorem Omits.refl (entries : List (String × Value)) : Omits entries entries :=
  ⟨.refl _, fun _ h => h⟩

theorem Omits.cons {entries all : List (String × Value)} (h : Omits entries all)
    (entry : String × Value) : Omits (entry :: entries) (entry :: all) := by
  refine ⟨h.sublist.cons_cons entry, fun kept hkept => ?_⟩
  cases hkept with
  | absent hentries => exact .absent (h.kept _ hentries)
  | cons hv hentries => exact .cons hv (h.kept _ hentries)

theorem Omits.entryOf {α : Type} {entries all : List (String × Value)} (h : Omits entries all)
    (name : String) (write : α → Value) (o : Option α) :
    Omits (entryOf name write o ++ entries) ((name, .ofOption write o) :: all) := by
  cases o with
  | none => exact ⟨h.sublist.cons _, fun kept hkept => .absent (h.kept kept hkept)⟩
  | some a => exact h.cons _

/-- A rule is written with its fields, less those that are left out. -/
theorem exists_toValue (s : RuleSpec) :
    ∃ entries, s.toValue = .table entries ∧ Omits entries s.fields := by
  refine ⟨_, rfl, ?_⟩
  have hlast : entryOf "fx" Value.text s.port = entryOf "fx" Value.text s.port ++ [] :=
    (List.append_nil _).symm
  simp only [List.append_assoc]
  rw [hlast]
  refine .cons ?_ _
  repeat' refine .entryOf ?_ _ _ _
  exact .refl []

theorem survives {k : ℕ} {s : RuleSpec}
    (hchannel : ∀ e ∈ s.channel, Survives k Entry.ofValue? Entry.toValue e)
    (hnumber : ∀ e ∈ s.number, Survives k Entry.ofValue? Entry.toValue e)
    (hvalue : ∀ e ∈ s.value, Survives k Entry.ofValue? Entry.toValue e)
    (hlog : ∀ x ∈ s.log, Survives k Value.float? .float x)
    (hlow : ∀ n ∈ s.lowByte, Survives k Value.int32? .int n)
    (hincrement : ∀ x ∈ s.increment, Survives k Value.float? .float x) :
    Survives (k + 1) ofValue? toValue s := by
  have hkeys : (s.fields.map (·.1)).Nodup := (by decide : fieldNames.Nodup)
  have htype := survives_text k s.type
  have htext : ∀ o : Option String, Value.ofOption .text o ≠ .null →
      Storable k (.ofOption .text o) := fun o => storable_ofOption fun t _ => survives_text k t
  have hall : ∀ entry ∈ s.fields, entry.2 ≠ .null → Storable k entry.2 := by
    simp only [RuleSpec.fields, List.forall_mem_cons]
    exact ⟨fun _ => htype.storable, storable_ofOption hchannel, storable_ofOption hnumber,
      storable_ofOption hvalue, storable_ofOption hlog, storable_ofOption hlow, htext _,
      storable_ofOption hincrement, htext _, htext _, htext _, htext _, htext _, htext _,
      htext _, htext _, htext _, htext _, List.forall_mem_nil _⟩
  obtain ⟨entries, hwrite, homits⟩ := s.exists_toValue
  refine survives_table hwrite (hkeys.sublist (homits.sublist.map _))
    (fun entry hentry => hall entry (homits.sublist.subset hentry)) fun fields hkept => ?_
  -- what is kept of the written fields is kept of all fields
  replace hkept : Kept (.table s.fields) (.table fields) := by
    cases hkept with
    | table hentries hperm => exact .table (homits.kept _ hentries) hperm
  have hfields : (Value.table fields).fields? fieldNames true = _ :=
    hkept.fields?_eq (List.Subset.refl _) true
  obtain ⟨type, readType, sameType⟩ := htype.required? hkept hkeys "type" rfl
  obtain ⟨channel, readChannel, sameChannel⟩ := survives_optional? hkept hkeys hchannel "chan" rfl
  obtain ⟨number, readNumber, sameNumber⟩ := survives_optional? hkept hkeys hnumber "num" rfl
  obtain ⟨value, readValue, sameValue⟩ := survives_optional? hkept hkeys hvalue "val" rfl
  obtain ⟨log, readLog, sameLog⟩ := survives_optional? hkept hkeys hlog "log" rfl
  obtain ⟨low, readLow, sameLow⟩ := survives_optional? hkept hkeys hlow "lsb" rfl
  obtain ⟨increment, readIncrement, sameIncrement⟩ :=
    survives_optional? hkept hkeys hincrement "inc" rfl
  have readText : ∀ (name : String) (o : Option String),
      s.fields.lookup name = some (Value.ofOption .text o) →
      Value.optional? fields name Value.text? = some o :=
    fun name _ => optional?_text hkept hkeys name
  refine ⟨{ s with type, channel, number, value, log, lowByte := low, increment }, ?_, ?_⟩
  · unfold ofValue?
    rw [hfields]
    dsimp only [Option.bind_eq_bind, Option.bind_some]
    rw [readType, readChannel, readNumber, readValue, readLog, readLow, readIncrement,
      readText "counter" s.counter rfl, readText "fluidsetting" s.setting rfl,
      readText "play" s.play rfl, readText "tempo" s.tempo rfl, readText "record" s.record rfl,
      readText "swing" s.swing rfl, readText "groove" s.groove rfl, readText "tap" s.tap rfl,
      readText "arpeggio" s.arpeggio rfl, readText "loop" s.loop rfl, readText "fx" s.port rfl]
    rfl
  · show instBEqRuleSpec.beq _ _ = true
    simp only [instBEqRuleSpec.beq, sameType, sameChannel, sameNumber, sameValue, sameLog, sameLow,
      sameIncrement, beq_self_eq_true, Bool.and_true]

theorem lasting (k : ℕ) : Lasting (k + 1) ofValue? toValue floats := by
  intro v s hread hfloats
  obtain ⟨fields, -, hread⟩ := Option.bind_eq_some_iff.mp hread
  dsimp only at hread
  obtain ⟨type, -, hread⟩ := Option.bind_eq_some_iff.mp hread
  obtain ⟨channel, hchannel, hread⟩ := Option.bind_eq_some_iff.mp hread
  obtain ⟨number, hnumber, hread⟩ := Option.bind_eq_some_iff.mp hread
  obtain ⟨value, hvalue, hread⟩ := Option.bind_eq_some_iff.mp hread
  obtain ⟨log, -, hread⟩ := Option.bind_eq_some_iff.mp hread
  obtain ⟨low, hlow, hread⟩ := Option.bind_eq_some_iff.mp hread
  obtain ⟨counter, -, hread⟩ := Option.bind_eq_some_iff.mp hread
  obtain ⟨increment, -, hread⟩ := Option.bind_eq_some_iff.mp hread
  obtain ⟨setting, -, hread⟩ := Option.bind_eq_some_iff.mp hread
  obtain ⟨play, -, hread⟩ := Option.bind_eq_some_iff.mp hread
  obtain ⟨tempo, -, hread⟩ := Option.bind_eq_some_iff.mp hread
  obtain ⟨record, -, hread⟩ := Option.bind_eq_some_iff.mp hread
  obtain ⟨swing, -, hread⟩ := Option.bind_eq_some_iff.mp hread
  obtain ⟨groove, -, hread⟩ := Option.bind_eq_some_iff.mp hread
  obtain ⟨tap, -, hread⟩ := Option.bind_eq_some_iff.mp hread
  obtain ⟨arpeggio, -, hread⟩ := Option.bind_eq_some_iff.mp hread
  obtain ⟨loop, -, hread⟩ := Option.bind_eq_some_iff.mp hread
  obtain ⟨port, -, hread⟩ := Option.bind_eq_some_iff.mp hread
  cases hread
  obtain ⟨hentries, hrest⟩ := List.forall_mem_append.mp hfloats
  obtain ⟨hlog, hincrement⟩ := List.forall_mem_append.mp hrest
  have hentry : ∀ o ∈ [channel, number, value], ∀ e ∈ o, ∀ x ∈ e.floats, x.isNaN = false :=
    fun o ho e he x hx => hentries x (List.mem_flatMap.mpr
      ⟨o, ho, List.mem_flatMap.mpr ⟨e, Option.mem_toList.mpr he, hx⟩⟩)
  exact survives ((Entry.lasting k).optional? hchannel (hentry channel (by simp)))
    ((Entry.lasting k).optional? hnumber (hentry number (by simp)))
    ((Entry.lasting k).optional? hvalue (hentry value (by simp))) (survives_floats k hlog)
    ((lasting_int32 k).optional? hlow fun _ _ => List.forall_mem_nil _)
    (survives_floats k hincrement)

end RuleSpec

/-! ## Patches -/

namespace Patch

/-- The doubles of a patch. -/
def floats (p : Patch) : List Float :=
  p.rules.flatMap RuleSpec.floats ++ p.players.floats PlayerDef.floats

/-- The fields of a patch as they are written. -/
def fields (p : Patch) : List (String × Value) :=
  [("rules", .list (p.rules.map RuleSpec.toValue)),
    ("players", p.players.toValue PlayerDef.toValue)]

theorem survives {k : ℕ} {p : Patch}
    (hrules : Survives k (Value.listOf? RuleSpec.ofValue?)
      (fun rules => .list (rules.map RuleSpec.toValue)) p.rules)
    (hplayers : Survives k (Dict.ofValue? PlayerDef.ofValue?) (Dict.toValue PlayerDef.toValue)
      p.players) : Survives (k + 1) ofValue? toValue p := by
  have hkeys : (p.fields.map (·.1)).Nodup := (by decide : fieldNames.Nodup)
  refine survives_table rfl hkeys ?_ fun fields hkept => ?_
  · exact List.forall_mem_cons.mpr
      ⟨fun _ => hrules.storable, List.forall_mem_singleton.mpr fun _ => hplayers.storable⟩
  · have hfields : (Value.table fields).fields? fieldNames true = _ :=
      hkept.fields?_eq (List.Subset.refl _) true
    obtain ⟨rules, readRules, sameRules⟩ := hrules.field? hkept hkeys "rules" rfl []
    obtain ⟨players, readPlayers, samePlayers⟩ :=
      hplayers.field? hkept hkeys "players" rfl .empty
    refine ⟨⟨rules, players⟩, ?_, ?_⟩
    · unfold ofValue?
      rw [hfields]
      dsimp only [Option.bind_eq_bind, Option.bind_some]
      rw [readRules, readPlayers]
      rfl
    · show instBEqPatch.beq _ _ = true
      rw [instBEqPatch.beq, sameRules, samePlayers]
      rfl

theorem lasting (k : ℕ) : Lasting (k + 6) ofValue? toValue floats := by
  intro v p hread hfloats
  obtain ⟨fields, -, hread⟩ := Option.bind_eq_some_iff.mp hread
  obtain ⟨rules, hrules, hread⟩ := Option.bind_eq_some_iff.mp hread
  obtain ⟨players, hplayers, hread⟩ := Option.bind_eq_some_iff.mp hread
  cases hread
  obtain ⟨hrule, hplayer⟩ := List.forall_mem_append.mp hfloats
  exact survives ((RuleSpec.lasting (k + 3)).list.field? hrules ⟨.list [], rfl⟩ hrule)
    ((PlayerDef.lasting k).dict.field? hplayers ⟨.table [], rfl⟩ hplayer)

end Patch

/-! ## Banks -/

namespace Bank

/-- The doubles of a bank. -/
def floats (b : Bank) : List Float :=
  b.rules.flatMap RuleSpec.floats ++ b.patches.floats Patch.floats

theorem survives {k : ℕ} {b : Bank}
    (hnames : Survives k (Dict.ofValue? Value.text?) (Dict.toValue .text) b.names)
    (hrules : Survives k (Value.listOf? RuleSpec.ofValue?)
      (fun rules => .list (rules.map RuleSpec.toValue)) b.rules)
    (hpatches : Survives k (Dict.ofValue? Patch.ofValue?) (Dict.toValue Patch.toValue) b.patches) :
    Survives (k + 1) ofValue? toValue b := by
  have hkeys : (b.entries.map (·.1)).Nodup := (by decide : fieldNames.Nodup)
  refine survives_table rfl hkeys ?_ fun fields hkept => ?_
  · exact List.forall_mem_cons.mpr ⟨fun _ => hnames.storable, List.forall_mem_cons.mpr
      ⟨fun _ => hrules.storable, List.forall_mem_singleton.mpr fun _ => hpatches.storable⟩⟩
  · have hfields : (Value.table fields).fields? fieldNames true = _ :=
      hkept.fields?_eq (List.Subset.refl _) true
    obtain ⟨names, readNames, sameNames⟩ := hnames.field? hkept hkeys "names" rfl .empty
    obtain ⟨rules, readRules, sameRules⟩ := hrules.field? hkept hkeys "rules" rfl []
    obtain ⟨patches, readPatches, samePatches⟩ :=
      hpatches.field? hkept hkeys "patches" rfl .empty
    refine ⟨⟨names, rules, patches⟩, ?_, ?_⟩
    · unfold ofValue?
      rw [hfields]
      dsimp only [Option.bind_eq_bind, Option.bind_some]
      rw [readNames, readRules, readPatches]
      rfl
    · show instBEqBank.beq _ _ = true
      rw [instBEqBank.beq, sameNames, sameRules, samePatches]
      rfl

theorem lasting (k : ℕ) : Lasting (k + 8) ofValue? toValue floats := by
  intro v b hread hfloats
  obtain ⟨fields, -, hread⟩ := Option.bind_eq_some_iff.mp hread
  obtain ⟨names, hnames, hread⟩ := Option.bind_eq_some_iff.mp hread
  obtain ⟨rules, hrules, hread⟩ := Option.bind_eq_some_iff.mp hread
  obtain ⟨patches, hpatches, hread⟩ := Option.bind_eq_some_iff.mp hread
  cases hread
  obtain ⟨hrule, hpatch⟩ := List.forall_mem_append.mp hfloats
  exact survives
    ((lasting_text (k + 6)).dict.field? hnames ⟨.table [], rfl⟩ (by simp [Dict.floats]))
    ((RuleSpec.lasting (k + 5)).list.field? hrules ⟨.list [], rfl⟩ hrule)
    ((Patch.lasting k).dict.field? hpatches ⟨.table [], rfl⟩ hpatch)

/-- Whatever bank was read from a document: it is saved, and loaded as an equal bank. -/
theorem exists_load {f : Format} (hf : f.Faithful 8) {v : Value} {b : Bank}
    (hread : ofValue? v = some b) (hfloats : ∀ x ∈ b.floats, x.isNaN = false) :
    ∃ s b', b.save? f = some s ∧ load f s = .ok b' ∧ (b' == b) = true := by
  have hsurvives := lasting 0 v b hread hfloats
  obtain ⟨s, w, hsave, hw, hkept⟩ := hf.exists_read hsurvives.storable
  obtain ⟨b', hb', heq⟩ := hsurvives.reads w hkept
  refine ⟨s, b', hsave, ?_, heq⟩
  rw [load, hw, Option.bind_some, hb']

end Bank

end MidiRig
