import MidiRig.Proofs.Event.Text
import MidiRig.Proofs.Setup.Saving

/-!
# Saved player definitions

Every player definition that was read survives saving (`PlayerDef.lasting`), whatever its type:
patterns with their rests and events, orders, meters and jumps, and fields that were left out.
-/

namespace MidiRig

open Binary64

/-! ## Parts of definitions -/

theorem Cell.lasting (k : ℕ) : Lasting k Cell.ofValue? Cell.toValue Cell.floats := by
  intro v c hread hfloats
  obtain ⟨s, -, hs⟩ := Option.bind_eq_some_iff.mp hread
  have hworded : c.Worded := by
    cases hcell : Cell.ofText s with
    | error e =>
      rw [hcell] at hs
      cases hs
    | ok d =>
      rw [hcell] at hs
      cases hs
      exact Cell.worded_of_ofText hcell
  obtain ⟨c', hc', heq⟩ := Cell.ofText_text hworded hfloats
  refine ⟨.text k c.text, fun w hw => ?_⟩
  cases hw
  refine ⟨c', ?_, heq⟩
  rw [Cell.ofValue?, Value.text?, Option.bind_some, hc']
  rfl

/-- The doubles of a pattern. -/
def Pattern.floats (p : Pattern) : List Float := p.flatMap fun voice => voice.flatMap Cell.floats

theorem Pattern.lasting (k : ℕ) :
    Lasting (k + 2) Pattern.ofValue? Pattern.toValue Pattern.floats := (Cell.lasting k).list.list

theorem ArpeggioStyle.lasting (k : ℕ) :
    Lasting k ArpeggioStyle.ofValue? (fun style => .text style.name) fun _ => [] := by
  intro v style _ _
  refine ⟨.text k _, fun w hw => ?_⟩
  cases hw
  refine ⟨style, ?_, beq_self_eq_true style⟩
  cases style <;> rfl

theorem Jump.lasting (k : ℕ) : Lasting (k + 1) Jump.ofValue? Jump.toValue fun _ => [] := by
  intro v j hread _
  unfold Jump.ofValue? at hread
  split at hread
  · next source target =>
    obtain ⟨n, hn, hread⟩ := Option.bind_eq_some_iff.mp hread
    obtain ⟨m, hm, hread⟩ := Option.bind_eq_some_iff.mp hread
    cases hread
    have hsource := lasting_word32 k _ n hn (List.forall_mem_nil _)
    have htarget := lasting_word32 k _ m hm (List.forall_mem_nil _)
    refine ⟨.list ?_, fun w hw => ?_⟩
    · exact List.forall_mem_cons.mpr
        ⟨hsource.storable, List.forall_mem_singleton.mpr htarget.storable⟩
    · rcases hw with ⟨⟩ | ⟨⟩ | ⟨⟩ | ⟨⟩ | hitems
      rcases hitems with _ | ⟨hfirst, _ | ⟨hsecond, ⟨⟩⟩⟩
      obtain ⟨n', readSource, sameSource⟩ := hsource.reads _ hfirst
      obtain ⟨m', readTarget, sameTarget⟩ := htarget.reads _ hsecond
      refine ⟨⟨n, m⟩, ?_, beq_self_eq_true _⟩
      rw [Jump.ofValue?, readSource, readTarget, beq_iff_eq.mp sameSource, beq_iff_eq.mp sameTarget]
      rfl
  · cases hread

theorem Meter.lasting (k : ℕ) : Lasting (k + 1) Meter.ofValue? Meter.toValue fun _ => [] := by
  intro v m hread _
  obtain ⟨fields, -, hread⟩ := Option.bind_eq_some_iff.mp hread
  obtain ⟨n, hn, hread⟩ := Option.bind_eq_some_iff.mp hread
  obtain ⟨d, hd, hread⟩ := Option.bind_eq_some_iff.mp hread
  cases hread
  obtain ⟨w, hw⟩ := exists_read_of_required? hn
  obtain ⟨u, hu⟩ := exists_read_of_required? hd
  have hnumerator := lasting_word32 k w n hw (List.forall_mem_nil _)
  have hdenominator := lasting_word32 k u d hu (List.forall_mem_nil _)
  have hkeys : Meter.fieldNames.Nodup := by decide
  refine survives_table rfl hkeys ?_ fun fields hkept => ?_
  · exact List.forall_mem_cons.mpr ⟨fun _ => hnumerator.storable,
      List.forall_mem_singleton.mpr fun _ => hdenominator.storable⟩
  · have hfields : (Value.table fields).fields? fieldNames false = _ :=
      hkept.fields?_eq (List.Subset.refl _) false
    obtain ⟨numerator, readNumerator, sameNumerator⟩ :=
      hnumerator.required? hkept hkeys "numerator" rfl
    obtain ⟨denominator, readDenominator, sameDenominator⟩ :=
      hdenominator.required? hkept hkeys "denominator" rfl
    refine ⟨⟨numerator, denominator⟩, ?_, ?_⟩
    · simp only [ofValue?, hfields, Option.bind_eq_bind, Option.bind_some, readNumerator,
        readDenominator]
      rfl
    · rw [beq_iff_eq.mp sameNumerator, beq_iff_eq.mp sameDenominator]
      exact beq_self_eq_true _

/-! ## Definitions -/

theorem survives_floats {o : Option Float} (k : ℕ) (h : ∀ x ∈ o.toList, x.isNaN = false) :
    ∀ x ∈ o, Survives k Value.float? .float x :=
  fun x hx => survives_float k (h x (Option.mem_toList.mpr hx))

theorem survives_groove {xs : List Float} (k : ℕ) (h : ∀ x ∈ xs, x.isNaN = false) :
    Survives (k + 1) (Value.listOf? Value.float?) Value.ofFloats xs :=
  survives_list fun x hx => survives_float k (h x hx)

theorem exists_word32? {n : ℕ} (h : n ≤ maxWord32) : ∃ w, Value.word32? w = some n :=
  ⟨.ofNat n, map_intWithin?_ofNat h⟩

namespace SequenceDef

/-- The doubles of a sequence. -/
def floats (d : SequenceDef) : List Float :=
  d.patterns.flatMap Pattern.floats ++ d.swing :: (d.groove ++ d.tempo.toList)

theorem survives {k : ℕ} {d : SequenceDef}
    (hpatterns : Survives (k + 3) (Value.listOf? Pattern.ofValue?)
      (fun ps => .list (ps.map Pattern.toValue)) d.patterns)
    (horder : Survives (k + 3) (Value.listOf? Value.int32?) (fun ns => .list (ns.map .int)) d.order)
    (hdivision : Survives (k + 3) Value.word32? Value.ofNat d.division)
    (hswing : Survives (k + 3) Value.float? .float d.swing)
    (hgroove : Survives (k + 3) (Value.listOf? Value.float?) Value.ofFloats d.groove)
    (htempo : ∀ x ∈ d.tempo, Survives (k + 3) Value.float? .float x) :
    Survives (k + 4) ofValue? (fun d => .table d.entries) d := by
  have hkeys : (d.entries.map (·.1)).Nodup := (by decide : fieldNames.Nodup)
  refine survives_table rfl hkeys ?_ fun fields hkept => ?_
  · simp only [entries, List.forall_mem_cons]
    exact ⟨fun _ => hpatterns.storable, fun _ => horder.storable, fun _ => hdivision.storable,
      fun _ => hswing.storable, fun _ => hgroove.storable, storable_ofOption htempo,
      List.forall_mem_nil _⟩
  · have hfields : (Value.table fields).fields? fieldNames true = _ :=
      hkept.fields?_eq (List.Subset.refl _) true
    obtain ⟨patterns, readPatterns, samePatterns⟩ :=
      hpatterns.field? hkept hkeys "patterns" rfl default.patterns
    obtain ⟨order, readOrder, sameOrder⟩ := horder.field? hkept hkeys "order" rfl default.order
    obtain ⟨division, readDivision, sameDivision⟩ :=
      hdivision.field? hkept hkeys "tdiv" rfl default.division
    obtain ⟨swing, readSwing, sameSwing⟩ := hswing.field? hkept hkeys "swing" rfl default.swing
    obtain ⟨groove, readGroove, sameGroove⟩ :=
      hgroove.field? hkept hkeys "groove" rfl default.groove
    obtain ⟨tempo, readTempo, sameTempo⟩ := survives_optional? hkept hkeys htempo "tempo" rfl
    refine ⟨⟨patterns, order, division, swing, groove, tempo⟩, ?_, ?_⟩
    · simp only [ofValue?, hfields, Option.bind_eq_bind, Option.bind_some, readPatterns, readOrder,
        readDivision, readSwing, readGroove, readTempo]
      rfl
    · show instBEqSequenceDef.beq _ _ = true
      simp only [instBEqSequenceDef.beq, samePatterns, sameOrder, sameDivision, sameSwing,
        sameGroove, sameTempo, Bool.and_true]

theorem lasting (k : ℕ) :
    Lasting (k + 4) ofValue? (fun d => .table d.entries) floats := by
  intro v d hread hfloats
  obtain ⟨fields, -, hread⟩ := Option.bind_eq_some_iff.mp hread
  obtain ⟨patterns, hpatterns, hread⟩ := Option.bind_eq_some_iff.mp hread
  obtain ⟨order, horder, hread⟩ := Option.bind_eq_some_iff.mp hread
  obtain ⟨division, hdivision, hread⟩ := Option.bind_eq_some_iff.mp hread
  obtain ⟨swing, -, hread⟩ := Option.bind_eq_some_iff.mp hread
  obtain ⟨groove, -, hread⟩ := Option.bind_eq_some_iff.mp hread
  obtain ⟨tempo, -, hread⟩ := Option.bind_eq_some_iff.mp hread
  cases hread
  obtain ⟨hcells, hrest⟩ := List.forall_mem_append.mp hfloats
  obtain ⟨hswing, hrest⟩ := List.forall_mem_cons.mp hrest
  obtain ⟨hgroove, htempo⟩ := List.forall_mem_append.mp hrest
  have hpatterns := (Pattern.lasting k).list.field? hpatterns ⟨.list [], rfl⟩ hcells
  have horder := (lasting_int32 (k + 2)).list.field? horder ⟨.list [], rfl⟩ (by simp)
  have hdivision := (lasting_word32 (k + 3)).field? hdivision (exists_word32? (by decide))
    (List.forall_mem_nil _)
  exact survives hpatterns horder hdivision (survives_float (k + 3) hswing)
    (survives_groove (k + 2) hgroove) (survives_floats (k + 3) htempo)

end SequenceDef

namespace ArpeggioDef

/-- The doubles of an arpeggio. -/
def floats (d : ArpeggioDef) : List Float := d.swing :: (d.groove ++ d.tempo.toList)

theorem survives {k : ℕ} {d : ArpeggioDef}
    (hstyle : Survives (k + 1) ArpeggioStyle.ofValue? (fun style => .text style.name) d.style)
    (hdivision : Survives (k + 1) Value.word32? Value.ofNat d.division)
    (hswing : Survives (k + 1) Value.float? .float d.swing)
    (hgroove : Survives (k + 1) (Value.listOf? Value.float?) Value.ofFloats d.groove)
    (htempo : ∀ x ∈ d.tempo, Survives (k + 1) Value.float? .float x) :
    Survives (k + 2) ofValue? (fun d => .table d.entries) d := by
  have hkeys : (d.entries.map (·.1)).Nodup := (by decide : fieldNames.Nodup)
  refine survives_table rfl hkeys ?_ fun fields hkept => ?_
  · simp only [entries, List.forall_mem_cons]
    exact ⟨fun _ => hstyle.storable, fun _ => hdivision.storable, fun _ => hswing.storable,
      fun _ => hgroove.storable, storable_ofOption htempo, List.forall_mem_nil _⟩
  · have hfields : (Value.table fields).fields? fieldNames true = _ :=
      hkept.fields?_eq (List.Subset.refl _) true
    obtain ⟨style, readStyle, sameStyle⟩ := hstyle.field? hkept hkeys "style" rfl default.style
    obtain ⟨division, readDivision, sameDivision⟩ :=
      hdivision.field? hkept hkeys "tdiv" rfl default.division
    obtain ⟨swing, readSwing, sameSwing⟩ := hswing.field? hkept hkeys "swing" rfl default.swing
    obtain ⟨groove, readGroove, sameGroove⟩ :=
      hgroove.field? hkept hkeys "groove" rfl default.groove
    obtain ⟨tempo, readTempo, sameTempo⟩ := survives_optional? hkept hkeys htempo "tempo" rfl
    refine ⟨⟨style, division, swing, groove, tempo⟩, ?_, ?_⟩
    · simp only [ofValue?, hfields, Option.bind_eq_bind, Option.bind_some, readStyle, readDivision,
        readSwing, readGroove, readTempo]
      rfl
    · show instBEqArpeggioDef.beq _ _ = true
      simp only [instBEqArpeggioDef.beq, sameStyle, sameDivision, sameSwing, sameGroove, sameTempo,
        Bool.and_true]

theorem lasting (k : ℕ) : Lasting (k + 2) ofValue? (fun d => .table d.entries) floats := by
  intro v d hread hfloats
  obtain ⟨fields, -, hread⟩ := Option.bind_eq_some_iff.mp hread
  obtain ⟨style, hstyle, hread⟩ := Option.bind_eq_some_iff.mp hread
  obtain ⟨division, hdivision, hread⟩ := Option.bind_eq_some_iff.mp hread
  obtain ⟨swing, -, hread⟩ := Option.bind_eq_some_iff.mp hread
  obtain ⟨groove, -, hread⟩ := Option.bind_eq_some_iff.mp hread
  obtain ⟨tempo, -, hread⟩ := Option.bind_eq_some_iff.mp hread
  cases hread
  obtain ⟨hswing, hrest⟩ := List.forall_mem_cons.mp hfloats
  obtain ⟨hgroove, htempo⟩ := List.forall_mem_append.mp hrest
  have hstyle := (ArpeggioStyle.lasting (k + 1)).field? hstyle ⟨.text "up", rfl⟩
    (List.forall_mem_nil _)
  have hdivision := (lasting_word32 (k + 1)).field? hdivision (exists_word32? (by decide))
    (List.forall_mem_nil _)
  exact survives hstyle hdivision (survives_float (k + 1) hswing) (survives_groove k hgroove)
    (survives_floats (k + 1) htempo)

end ArpeggioDef

namespace LoopDef

/-- The doubles of a loop. -/
def floats (d : LoopDef) : List Float := d.beats.toList ++ d.tempo.toList

theorem lasting (k : ℕ) :
    Lasting (k + 1) LoopDef.ofValue? (fun d => .table d.entries) LoopDef.floats := by
  intro v d hread hfloats
  obtain ⟨hbeats, htempo⟩ := List.forall_mem_append.mp hfloats
  have hkeys : (d.entries.map (·.1)).Nodup := (by decide : fieldNames.Nodup)
  have hbeats := survives_floats k hbeats
  have htempo := survives_floats k htempo
  refine survives_table rfl hkeys ?_ fun fields hkept => ?_
  · simp only [entries, List.forall_mem_cons]
    exact ⟨storable_ofOption hbeats, storable_ofOption htempo, List.forall_mem_nil _⟩
  · have hfields : (Value.table fields).fields? fieldNames true = _ :=
      hkept.fields?_eq (List.Subset.refl _) true
    obtain ⟨beats, readBeats, sameBeats⟩ := survives_optional? hkept hkeys hbeats "beats" rfl
    obtain ⟨tempo, readTempo, sameTempo⟩ := survives_optional? hkept hkeys htempo "tempo" rfl
    refine ⟨⟨beats, tempo⟩, ?_, ?_⟩
    · simp only [ofValue?, hfields, Option.bind_eq_bind, Option.bind_some, readBeats, readTempo]
      rfl
    · show instBEqLoopDef.beq _ _ = true
      simp only [instBEqLoopDef.beq, sameBeats, sameTempo, Bool.and_true]

end LoopDef

namespace TrackDef

/-- The doubles of a track. -/
def floats (d : TrackDef) : List Float := d.tempo.toList

theorem survives {k : ℕ} {d : TrackDef}
    (hjumps : Survives (k + 2) (Value.listOf? Jump.ofValue?)
      (fun js => .list (js.map Jump.toValue)) d.jumps)
    (hmeter : Survives (k + 2) Meter.ofValue? Meter.toValue d.meter)
    (htempo : ∀ x ∈ d.tempo, Survives (k + 2) Value.float? .float x) :
    Survives (k + 3) ofValue? (fun d => .table d.entries) d := by
  have hkeys : (d.entries.map (·.1)).Nodup := (by decide : fieldNames.Nodup)
  have hfile := survives_text (k + 2) d.file.text
  refine survives_table rfl hkeys ?_ fun fields hkept => ?_
  · simp only [entries, List.forall_mem_cons]
    exact ⟨fun _ => hfile.storable, fun _ => hjumps.storable, fun _ => hmeter.storable,
      storable_ofOption htempo, List.forall_mem_nil _⟩
  · have hfields : (Value.table fields).fields? fieldNames true = _ :=
      hkept.fields?_eq (List.Subset.refl _) true
    obtain ⟨file, readFile, sameFile⟩ := hfile.required? hkept hkeys "file" rfl
    obtain ⟨jumps, readJumps, sameJumps⟩ := hjumps.field? hkept hkeys "jumps" rfl []
    obtain ⟨meter, readMeter, sameMeter⟩ :=
      hmeter.field? hkept hkeys "time_signature" rfl .fourFour
    obtain ⟨tempo, readTempo, sameTempo⟩ := survives_optional? hkept hkeys htempo "tempo" rfl
    refine ⟨⟨⟨file⟩, jumps, meter, tempo⟩, ?_, ?_⟩
    · simp only [ofValue?, hfields, Option.bind_eq_bind, Option.bind_some, readFile, readJumps,
        readMeter, readTempo]
      rfl
    · have sameFile : (Path.mk file == d.file) = true := by
        rw [beq_iff_eq.mp sameFile]
        show (d.file.isAbsolute == d.file.isAbsolute &&
          d.file.components == d.file.components) = true
        rw [beq_self_eq_true, beq_self_eq_true]
        rfl
      show instBEqTrackDef.beq _ _ = true
      simp only [instBEqTrackDef.beq, sameFile, sameJumps, sameMeter, sameTempo, Bool.and_true]

theorem lasting (k : ℕ) : Lasting (k + 3) ofValue? (fun d => .table d.entries) floats := by
  intro v d hread hfloats
  obtain ⟨fields, -, hread⟩ := Option.bind_eq_some_iff.mp hread
  obtain ⟨file, -, hread⟩ := Option.bind_eq_some_iff.mp hread
  obtain ⟨jumps, hjumps, hread⟩ := Option.bind_eq_some_iff.mp hread
  obtain ⟨meter, hmeter, hread⟩ := Option.bind_eq_some_iff.mp hread
  obtain ⟨tempo, -, hread⟩ := Option.bind_eq_some_iff.mp hread
  cases hread
  have hjumps := (Jump.lasting k).list.field? hjumps ⟨.list [], rfl⟩ (by simp)
  have hmeter := (Meter.lasting (k + 1)).field? hmeter ⟨Meter.fourFour.toValue, rfl⟩
    (List.forall_mem_nil _)
  exact survives hjumps hmeter (survives_floats (k + 2) hfloats)

end TrackDef

/-! ## Definitions with their type -/

namespace PlayerDef

/-- The doubles of a definition. -/
def floats : PlayerDef → List Float
  | sequence d => d.floats
  | arpeggio d => d.floats
  | loop d => d.floats
  | track d => d.floats

/-- A definition is read from the other fields than its type. -/
theorem ofValue?_table {type : String} {fields : List (String × Value)}
    (h : fields.lookup "type" = some (.text type)) :
    ofValue? (.table fields) =
      ofType? type (.table (fields.filter fun field => field.1 != "type")) := by
  have hrequired : Value.required? fields "type" Value.text? = some type := by
    rw [Value.required?, h]
    rfl
  rw [ofValue?, hrequired]
  rfl

/-- A definition survives with its type if its fields do. -/
theorem survives_type {α : Type} [BEq α] {k : ℕ} {type : String}
    {read : Value → Option α} {entries : α → List (String × Value)} {make : α → PlayerDef} {d : α}
    (hread : ∀ v, ofType? type v = make <$> read v)
    (hwrite : (make d).toValue = .table (("type", .text type) :: entries d))
    (hnew : "type" ∉ (entries d).map (·.1)) (hsame : ∀ d', (make d' == make d) = (d' == d))
    (h : Survives (k + 1) read (fun d => .table (entries d)) d) :
    Survives (k + 1) ofValue? toValue (make d) := by
  obtain ⟨hstorable, hreads⟩ := h
  cases hstorable with
  | table hentries hkeys =>
    have hkeys' := List.nodup_cons.mpr ⟨hnew, hkeys⟩
    refine survives_table hwrite hkeys'
      (List.forall_mem_cons.mpr ⟨fun _ => .text k type, hentries⟩) fun fields hkept => ?_
    have htype : fields.lookup "type" = some (.text type) := by
      obtain ⟨w, hw, hkept'⟩ := hkept.lookup_eq hkeys' List.lookup_cons_self nofun
      cases hkept'
      exact hw
    cases hkept with
    | table hkept hperm =>
      cases hkept with
      | @cons _ _ w _ kept _ hkept =>
        -- the type may stand anywhere among the fields
        have hothers : kept.filter (fun field => field.1 != "type") = kept :=
          List.filter_eq_self.mpr fun field hfield => bne_iff_ne.mpr fun heq =>
            hnew (hkept.keys.subset (heq ▸ List.mem_map_of_mem hfield))
        have hperm' := hperm.filter fun field => field.1 != "type"
        rw [List.filter_cons_of_neg (by simp), hothers] at hperm'
        obtain ⟨d', hd', heq⟩ := hreads _ (.table hkept hperm')
        refine ⟨make d', ?_, (hsame d').trans heq⟩
        rw [ofValue?_table htype, hread, hd']
        rfl

theorem survives_of_ofType? {k : ℕ} {type : String} {v : Value} {p : PlayerDef}
    (h : ofType? type v = some p) (hfloats : ∀ x ∈ p.floats, x.isNaN = false) :
    Survives (k + 4) ofValue? toValue p := by
  unfold ofType? at h
  split at h
  · obtain ⟨d, hd, rfl⟩ := Option.map_eq_some_iff.mp h
    exact survives_type (fun _ => rfl) rfl (by decide : "type" ∉ SequenceDef.fieldNames)
      (fun _ => rfl) (SequenceDef.lasting k v d hd hfloats)
  · obtain ⟨d, hd, rfl⟩ := Option.map_eq_some_iff.mp h
    exact survives_type (fun _ => rfl) rfl (by decide : "type" ∉ ArpeggioDef.fieldNames)
      (fun _ => rfl) (ArpeggioDef.lasting (k + 2) v d hd hfloats)
  · obtain ⟨d, hd, rfl⟩ := Option.map_eq_some_iff.mp h
    exact survives_type (fun _ => rfl) rfl (by decide : "type" ∉ LoopDef.fieldNames)
      (fun _ => rfl) (LoopDef.lasting (k + 3) v d hd hfloats)
  · obtain ⟨d, hd, rfl⟩ := Option.map_eq_some_iff.mp h
    exact survives_type (fun _ => rfl) rfl (by decide : "type" ∉ TrackDef.fieldNames)
      (fun _ => rfl) (TrackDef.lasting (k + 1) v d hd hfloats)
  · cases h

/-- Every definition survives saving with its type. -/
theorem lasting (k : ℕ) : Lasting (k + 4) ofValue? toValue floats := by
  intro v p hread hfloats
  unfold ofValue? at hread
  split at hread
  · obtain ⟨type, -, hread⟩ := Option.bind_eq_some_iff.mp hread
    exact survives_of_ofType? hread hfloats
  · obtain ⟨type, -, hread⟩ := Option.bind_eq_some_iff.mp hread
    exact survives_of_ofType? hread hfloats
  · cases hread

end PlayerDef

end MidiRig
