import MidiRig.Player.Cell
import MidiRig.Proofs.Number.Text
import MidiRig.Proofs.Text.Words

/-!
# Events survive their text

An event that can be read from a text (`Event.Worded`) is read again from the text that it is
written as (`Event.ofText_text`), and so is a cell of a pattern (`Cell.ofText_text`). Zero has no
sign in such a text; all else is exact. So what is read again has the same text as before, and no
text of an event is that of a rest (`Cell.texts_reread`).
-/

namespace MidiRig

open Binary64

namespace Event

/-! ## Characters -/

/-- A character that can stand in a field. -/
def IsField (c : Char) : Prop := Text.isBlank c = false ∧ c ≠ ':'

theorem isField_of_toNat {c : Char} (hlo : 45 ≤ c.toNat) (hhi : c.toNat < 128)
    (hne : c.toNat ≠ 58) : IsField c := by
  refine ⟨?_, fun heq => hne (congrArg Char.toNat heq)⟩
  simp only [Text.isBlank, Bool.or_eq_false_iff, Bool.and_eq_false_iff, decide_eq_false_iff_not,
    beq_eq_false_iff_ne]
  omega

theorem isField_of_all {cs : List Char}
    (h : cs.all (fun c => 45 ≤ c.toNat && c.toNat < 128 && c.toNat != 58) = true) :
    ∀ c ∈ cs, IsField c := by
  intro c hc
  have hbounds := List.all_eq_true.mp h c hc
  simp only [Bool.and_eq_true, decide_eq_true_eq, bne_iff_ne] at hbounds
  exact isField_of_toNat hbounds.1.1 hbounds.1.2 hbounds.2

theorem isField_of_isNumeral {c : Char} (h : Shortest.isNumeral c = true) : IsField c := by
  rcases (Bool.or_eq_true _ _).mp h with hdigit | hother
  · have hbounds := Char.isDigit_iff_toNat.mp hdigit
    have hzero : '0'.toNat = 48 := rfl
    have hnine : '9'.toNat = 57 := rfl
    exact isField_of_toNat (by omega) (by omega) (by omega)
  · exact isField_of_all rfl c (List.contains_iff_mem.mp hother)

/-! ## Values -/

theorem has_integerLimit : Has integerLimit (10 ^ 15 : ℕ) := by
  have hvalue : decimal 10 false 14 = (10 ^ 15 : ℕ) := by norm_num [decimal]
  have hexact : nearest (decimal 10 false 14) = (10 ^ 15 : ℕ) := by
    rw [hvalue, nearest_natCast (by norm_num)]
  have h := has_ofScientific (m := 10) (s := false) (e := 14) (by norm_num)
    (hexact.symm ▸ natCast_lt_beyond (by norm_num))
  rwa [hexact] at h

/-- A value that is written as an integer is a whole number with few digits. -/
theorem has_of_integer {x : Float} (h : (isWhole x && x.abs < integerLimit) = true) :
    ∃ c : ℤ, Has x c ∧ |c| < 10 ^ 15 ∧ toInt64 x = c := by
  rw [Bool.and_eq_true, decide_eq_true_iff] at h
  obtain ⟨c, hc⟩ := isWhole_iff.mp h.1
  have hlt : |c| < 10 ^ 15 := by
    have := (hc.abs.lt_iff has_integerLimit).mp h.2
    exact_mod_cast this
  have hbounds := abs_lt.mp hlt
  have hmin : minInt64 = -2 ^ 63 := rfl
  have hmax : maxInt64 = 2 ^ 63 - 1 := rfl
  exact ⟨c, hc, hlt, hc.toInt64_eq (by omega) (by omega)⟩

theorem readFloat?_valueText {x : Float} (hx : x.isNaN = false) :
    ∃ y, Decimal.readFloat? (valueText x).toList = some y ∧ (y == x) = true := by
  unfold valueText
  split
  · next h =>
    obtain ⟨c, hc, hlt, htext⟩ := has_of_integer h
    obtain ⟨y, hread, hy⟩ := Shortest.readFloat?_toString (n := c) (hlt.trans (by norm_num))
    exact ⟨y, htext.symm ▸ hread, (hy.beq_iff hc).mpr rfl⟩
  · exact ⟨x, Shortest.readFloat?_text hx, beq_self_iff.mpr hx⟩

theorem isNumeral_valueText {x : Float} (hx : x.isNaN = false) {c : Char}
    (h : c ∈ (valueText x).toList) : Shortest.isNumeral c = true := by
  unfold valueText at h
  split at h
  · exact Shortest.isNumeral_toString h
  · exact Shortest.isNumeral_text hx h

theorem valueText_of_zero {x : Float} (h : Has x 0) : valueText x = "0" := by
  have hzero : Has x (0 : ℤ) := by rwa [Int.cast_zero]
  have hsmall : x.abs < integerLimit := (h.abs.lt_iff has_integerLimit).mpr (by norm_num)
  rw [valueText, isWhole_iff.mpr ⟨0, hzero⟩, decide_eq_true hsmall, Bool.and_self, if_pos rfl,
    hzero.toInt64_eq (by decide) (by decide)]
  rfl

/-- Values that equal each other have the same text, also the two zeros. -/
theorem valueText_eq_of_beq {x y : Float} (h : (x == y) = true) : valueText x = valueText y := by
  rcases eq_or_zero_of_beq h with rfl | ⟨hx, hy⟩
  · rfl
  · rw [valueText_of_zero hx, valueText_of_zero hy]

/-! ## Payloads -/

theorem hexDigit_spec : ∀ n < 16, hexValue? (hexDigit n) = some n ∧ hexDigit n ≠ '+' ∧
    48 ≤ (hexDigit n).toNat ∧ (hexDigit n).toNat ≤ 70 ∧ (hexDigit n).toNat ≠ 58 := by
  decide

theorem readByte?_byteText (b : UInt8) :
    readByte? (hexDigit (b.toNat / 16)) (hexDigit (b.toNat % 16)) = some b := by
  have hlt : b.toNat < 256 := b.toNat_lt
  obtain ⟨hhigh, hplus, -⟩ := hexDigit_spec (b.toNat / 16) (by omega)
  obtain ⟨hlow, -⟩ := hexDigit_spec (b.toNat % 16) (by omega)
  unfold readByte?
  rw [if_neg hplus, hhigh, hlow]
  show some (UInt8.ofNat (16 * (b.toNat / 16) + b.toNat % 16)) = some b
  rw [Nat.div_add_mod, UInt8.ofNat_toNat]

theorem readBytes?_byteText (bytes : List UInt8) :
    readBytes? (bytes.flatMap byteText) = some bytes := by
  induction bytes with
  | nil => rfl
  | cons b rest ih =>
    show readBytes? (hexDigit (b.toNat / 16) :: hexDigit (b.toNat % 16) ::
      rest.flatMap byteText) = _
    unfold readBytes?
    rw [readByte?_byteText, ih]
    rfl

theorem isField_payloadText {bytes : List UInt8} {c : Char}
    (h : c ∈ (payloadText bytes).toList) : IsField c ∧ c.toNat < 128 := by
  rw [payloadText, String.toList_ofList] at h
  obtain ⟨b, -, hc⟩ := List.mem_flatMap.mp h
  have hlt : b.toNat < 256 := b.toNat_lt
  have hdigit : ∃ n < 16, c = hexDigit n := by
    rcases List.mem_cons.mp hc with rfl | hc
    · exact ⟨_, by omega, rfl⟩
    · exact ⟨_, by omega, List.mem_singleton.mp hc⟩
  obtain ⟨n, hn, rfl⟩ := hdigit
  obtain ⟨-, -, hlo, hhi, hne⟩ := hexDigit_spec n hn
  exact ⟨isField_of_toNat (by omega) (by omega) hne, by omega⟩

/-- A payload is read from its digits. -/
theorem readPayload_payloadText (bytes : List UInt8) :
    readPayload (payloadText bytes).toList = .ok bytes := by
  have hsqueeze : Text.squeeze (payloadText bytes).toList = bytes.flatMap byteText := by
    have hunblank : Text.Unblank (payloadText bytes).toList := fun c hc =>
      (isField_payloadText hc).1.1
    rw [hunblank.squeeze_eq, payloadText, String.toList_ofList]
  have hascii : (bytes.flatMap byteText).any (fun c => 128 ≤ c.toNat) = false := by
    rw [List.any_eq_false]
    intro c hc
    have hlt : c.toNat < 128 := (@isField_payloadText bytes c
      (by rwa [payloadText, String.toList_ofList])).2
    simpa using hlt
  have heven : (bytes.flatMap byteText).length % 2 = 0 := by
    simp [List.length_flatMap, byteText]
  unfold readPayload
  simp only [hsqueeze, hascii, heven, readBytes?_byteText]
  rfl

/-! ## Fields -/

/-- What the fields of a text are made of. -/
def fieldTexts (kind : Kind) (c n : ℤ) (x : Float) : List String :=
  toString c :: ((if kind.hasNumber then [toString n] else []) ++ [valueText x])

theorem text_make {kind : Kind} (hkind : kind.hasChannel = true) (c n : ℤ) (x : Float) :
    (make kind (some c) (some n) x).text =
      ":".intercalate (kind.name :: fieldTexts kind c n x) := by
  have hexclusive : kind ≠ .exclusive := by
    rintro rfl
    cases hkind
  unfold text make fieldTexts
  simp only [if_neg hexclusive, hkind, keepIf, if_true]
  cases kind.hasNumber <;> simp [fieldText, String.append_assoc]

theorem text_exclusive (payload : List UInt8) :
    (exclusive payload).text = ":".intercalate [Kind.exclusive.name, payloadText payload] := by
  simp [text, exclusive, make]

theorem text_transport {kind : Kind} (hkind : kind.isTransport = true) :
    (transport kind).text = ":".intercalate [kind.name] := by
  cases kind with
  | clock | start | resume | stop =>
    simp [text, transport, make, keepIf, fieldText, Kind.hasChannel, Kind.hasNumber]
  | _ => cases hkind

theorem ofName?_name (kind : Kind) : Kind.ofName? kind.name = some kind := by
  cases kind <;> decide +kernel

theorem isField_name (kind : Kind) : ∀ c ∈ kind.name.toList, IsField c :=
  isField_of_all (by cases kind <;> rfl)

theorem unblank_intercalate {fields : List String}
    (hfields : ∀ field ∈ fields, ∀ c ∈ field.toList, IsField c) :
    Text.Unblank (":".intercalate fields).toList := by
  intro c hc
  rw [String.toList_intercalate] at hc
  rcases Text.mem_intercalate hc with hc | ⟨l, hl, hc⟩
  · rw [List.mem_singleton.mp hc]
    decide
  · obtain ⟨field, hfield, rfl⟩ := List.mem_map.mp hl
    exact (hfields field hfield c hc).1

/-- The first piece of a text names the kind, the others are its fields. -/
theorem ofText_eq_ok_iff {s : String} {e : Event} :
    ofText s = .ok e ↔ ∃ kind, Kind.ofName? ((Text.pieces ':' (Text.trim s)).headD "") = some kind ∧
      ofFields kind (Text.pieces ':' (Text.trim s)).tail = .ok e := by
  -- the equation of `ofText` would look for a name in the table of all kinds
  delta ofText
  dsimp only
  cases Kind.ofName? ((Text.pieces ':' (Text.trim s)).headD "") with
  | none => simp
  | some kind =>
    cases hfields : ofFields kind (Text.pieces ':' (Text.trim s)).tail <;> simp [hfields]

/-- A text is taken apart at the colons that join its fields. -/
theorem ofText_intercalate (kind : Kind) {fields : List String}
    (hfields : ∀ field ∈ fields, ∀ c ∈ field.toList, IsField c) {e : Event}
    (h : ofFields kind fields = .ok e) :
    ofText (":".intercalate (kind.name :: fields)) = .ok e := by
  have hall : ∀ field ∈ kind.name :: fields, ∀ c ∈ field.toList, IsField c :=
    List.forall_mem_cons.mpr ⟨isField_name kind, hfields⟩
  have hunblank := unblank_intercalate hall
  have hpieces : Text.pieces ':' (":".intercalate (kind.name :: fields)) = kind.name :: fields :=
    Text.pieces_intercalate (List.cons_ne_nil _ _) fun field hfield hmem =>
      (hall field hfield ':' hmem).2 rfl
  rw [ofText_eq_ok_iff, hunblank.trim_eq, hpieces]
  exact ⟨kind, ofName?_name kind, h⟩

/-! ## Reading again -/

/-- The events that texts can say. -/
inductive Worded : Event → Prop
  | exclusive (payload : List UInt8) : Worded (exclusive payload)
  | message {kind : Kind} (hkind : kind.hasChannel = true) {c n : ℤ} (hc : IsInt32 c)
    (hn : IsInt32 n) (x : Float) : Worded (make kind (some c) (some n) x)
  | transport {kind : Kind} (hkind : kind.isTransport = true) : Worded (transport kind)

theorem readInteger_toString {n : ℤ} (hn : IsInt32 n) : readInteger (toString n) = .ok n := by
  have hunblank : Text.Unblank (toString n).toList := fun c hc =>
    (isField_of_isNumeral (Shortest.isNumeral_toString hc)).1
  unfold readInteger Decimal.readInt32?
  rw [hunblank.trimChars_eq, Decimal.readInt?_toString hn.1 hn.2]

theorem readNumber_valueText {x : Float} (hx : x.isNaN = false) :
    ∃ y, readNumber (valueText x) = .ok y ∧ (y == x) = true := by
  have hunblank : Text.Unblank (valueText x).toList := fun c hc =>
    (isField_of_isNumeral (isNumeral_valueText hx hc)).1
  obtain ⟨y, hread, hy⟩ := readFloat?_valueText hx
  refine ⟨y, ?_, hy⟩
  unfold readNumber
  rw [hunblank.trimChars_eq, hread]

theorem isField_fieldTexts (kind : Kind) (c n : ℤ) {x : Float} (hx : x.isNaN = false) :
    ∀ field ∈ fieldTexts kind c n x, ∀ d ∈ field.toList, IsField d := by
  have hint : ∀ n : ℤ, ∀ d ∈ (toString n).toList, IsField d := fun _ _ hd =>
    isField_of_isNumeral (Shortest.isNumeral_toString hd)
  refine List.forall_mem_cons.mpr ⟨hint c, List.forall_mem_append.mpr ⟨?_, ?_⟩⟩
  · split
    · exact List.forall_mem_singleton.mpr (hint n)
    · exact List.forall_mem_nil _
  · exact List.forall_mem_singleton.mpr fun d hd =>
      isField_of_isNumeral (isNumeral_valueText hx hd)

theorem ofFields_fieldTexts {kind : Kind} (hkind : kind.hasChannel = true) {c n : ℤ}
    (hc : IsInt32 c) (hn : IsInt32 n) {x : Float} (hx : x.isNaN = false) :
    ∃ y, ofFields kind (fieldTexts kind c n x) = .ok (make kind (some c) (some n) y) ∧
      (y == x) = true := by
  obtain ⟨y, hread, hy⟩ := readNumber_valueText hx
  refine ⟨y, ?_, hy⟩
  have hexclusive : kind ≠ .exclusive := by
    rintro rfl
    cases hkind
  unfold ofFields fieldTexts fieldCount
  rw [if_neg hexclusive, if_pos hkind]
  cases hnumber : kind.hasNumber with
  | true =>
    rw [if_pos rfl, if_pos rfl, if_neg (by simp)]
    simp only [List.cons_append, List.nil_append, readInteger_toString hc,
      readInteger_toString hn, hread]
    rfl
  | false =>
    rw [if_neg Bool.false_ne_true, if_neg Bool.false_ne_true, if_neg (by simp)]
    simp only [List.nil_append, readInteger_toString hc, hread, make, hnumber]
    rfl

theorem beq_withValue (e : Event) {y : Float} (h : (y == e.value) = true) :
    (e.withValue y == e) = true := by
  obtain ⟨kind, channel, number, x, payload⟩ := e
  show (kind == kind && (channel == channel && (number == number && (y == x &&
    payload == payload)))) = true
  simpa using h

theorem text_eq_of_beq {e e' : Event} (h : (e == e') = true) : e.text = e'.text := by
  obtain ⟨kind, channel, number, x, payload⟩ := e
  obtain ⟨kind', channel', number', x', payload'⟩ := e'
  change (kind == kind' && (channel == channel' && (number == number' && (x == x' &&
    payload == payload')))) = true at h
  simp only [Bool.and_eq_true] at h
  obtain ⟨hkind, hchannel, hnumber, hvalue, hpayload⟩ := h
  obtain rfl := beq_iff_eq.mp hkind
  obtain rfl := beq_iff_eq.mp hchannel
  obtain rfl := beq_iff_eq.mp hnumber
  obtain rfl := beq_iff_eq.mp hpayload
  unfold text
  rw [valueText_eq_of_beq hvalue]

/-- The text of an event is the name of its kind and fields, and reading these gives the event. -/
theorem fields_of_worded {e : Event} (h : e.Worded) (hvalue : e.value.isNaN = false) :
    ∃ fields e', e.text = ":".intercalate (e.kind.name :: fields) ∧
      (∀ field ∈ fields, ∀ c ∈ field.toList, IsField c) ∧
      ofFields e.kind fields = .ok e' ∧ (e' == e) = true := by
  have hself : (e == e) = true := beq_withValue e (beq_self_iff.mpr hvalue)
  cases h with
  | exclusive payload =>
    refine ⟨[payloadText payload], _, text_exclusive payload, ?_, ?_, hself⟩
    · exact List.forall_mem_singleton.mpr fun c hc => (isField_payloadText hc).1
    · show exclusive <$> readPayload (String.join [payloadText payload]).toList = _
      have hjoin : String.join [payloadText payload] = payloadText payload := by
        simp [String.join]
      rw [hjoin, readPayload_payloadText]
      rfl
  | @message kind hkind c n hc hn x =>
    obtain ⟨y, hfields, hy⟩ := ofFields_fieldTexts hkind hc hn hvalue
    exact ⟨_, _, text_make hkind c n x, isField_fieldTexts kind c n hvalue, hfields,
      beq_withValue (make kind (some c) (some n) x) hy⟩
  | @transport kind hkind =>
    refine ⟨[], _, text_transport hkind, List.forall_mem_nil _, ?_, hself⟩
    cases kind <;> first | rfl | cases hkind

/-- An event is read again from its text. -/
theorem ofText_text {e : Event} (h : e.Worded) (hvalue : e.value.isNaN = false) :
    ∃ e', ofText e.text = .ok e' ∧ (e' == e) = true := by
  obtain ⟨fields, e', htext, hfields, hread, hbeq⟩ := fields_of_worded h hvalue
  exact ⟨e', htext ▸ ofText_intercalate e.kind hfields hread, hbeq⟩

/-! ## What texts can say -/

theorem isInt32_of_readInteger {field : String} {n : ℤ} (h : readInteger field = .ok n) :
    IsInt32 n := by
  unfold readInteger at h
  split at h
  · next m hread =>
    cases h
    exact Decimal.bounds_of_readInt? hread
  · cases h

/-- Three fields make a message with a number, two one without. -/
theorem fieldCount_eq (kind : Kind) :
    fieldCount kind = 3 ∧ kind.hasChannel = true ∨
    fieldCount kind = 2 ∧ kind.hasChannel = true ∧ kind.hasNumber = false ∨
    fieldCount kind = 0 ∧ (kind = .exclusive ∨ kind.isTransport = true) := by
  cases kind <;> decide

theorem exists_of_bind_eq_ok {ε α β : Type} {x : Except ε α} {f : α → Except ε β} {b : β}
    (h : x.bind f = .ok b) : ∃ a, x = .ok a ∧ f a = .ok b := by
  cases x with
  | error e => cases h
  | ok a => exact ⟨a, rfl, h⟩

/-- A kind without numbers drops any that it is given. -/
theorem make_none {kind : Kind} (hnumber : kind.hasNumber = false) (c : ℤ) (x : Float) :
    make kind (some c) none x = make kind (some c) (some 0) x := by
  unfold make
  rw [hnumber]
  rfl

theorem worded_of_ofFields {kind : Kind} {fields : List String} {e : Event}
    (h : ofFields kind fields = .ok e) : e.Worded := by
  unfold ofFields at h
  split at h
  · rw [map_eq_pure_bind] at h
    obtain ⟨payload, -, h⟩ := exists_of_bind_eq_ok h
    cases h
    exact .exclusive payload
  next hexclusive =>
  split at h
  · cases h
  next hcount =>
  rw [not_not] at hcount
  have hkinds := fieldCount_eq kind
  split at h
  · next channel number value =>
    rw [← hcount] at hkinds
    have hkind : kind.hasChannel = true := by simpa using hkinds
    obtain ⟨c, hchannel, h⟩ := exists_of_bind_eq_ok h
    obtain ⟨n, hnumber, h⟩ := exists_of_bind_eq_ok h
    obtain ⟨x, -, h⟩ := exists_of_bind_eq_ok h
    cases h
    exact .message hkind (isInt32_of_readInteger hchannel) (isInt32_of_readInteger hnumber) x
  · next channel value =>
    rw [← hcount] at hkinds
    obtain ⟨hkind, hnumber⟩ : kind.hasChannel = true ∧ kind.hasNumber = false := by
      simpa using hkinds
    obtain ⟨c, hchannel, h⟩ := exists_of_bind_eq_ok h
    obtain ⟨x, -, h⟩ := exists_of_bind_eq_ok h
    cases h
    show Worded (make kind (some c) none x)
    rw [make_none hnumber]
    exact .message hkind (isInt32_of_readInteger hchannel) ⟨by decide, by decide⟩ x
  · next hthree htwo =>
    cases h
    obtain ⟨hlength, -⟩ | ⟨hlength, -⟩ | ⟨-, hkind⟩ := hkinds
    · rw [hlength] at hcount
      obtain ⟨a, b, c, rfl⟩ := List.length_eq_three.mp hcount
      exact absurd rfl (hthree a b c)
    · rw [hlength] at hcount
      obtain ⟨a, b, rfl⟩ := List.length_eq_two.mp hcount
      exact absurd rfl (htwo a b)
    · exact .transport (hkind.resolve_left hexclusive)

/-- Blanks around a text do not count. -/
theorem ofText_trim {s : String} {e : Event} :
    ofText (Text.trim s) = .ok e ↔ ofText s = .ok e := by
  rw [ofText_eq_ok_iff, ofText_eq_ok_iff, Text.trim_trim]

/-- What is read from a text can be said in a text. -/
theorem worded_of_ofText {s : String} {e : Event} (h : ofText s = .ok e) : e.Worded := by
  obtain ⟨kind, -, hfields⟩ := ofText_eq_ok_iff.mp h
  exact worded_of_ofFields hfields

end Event

/-! ## Cells -/

namespace Cell

def Worded : Cell → Prop
  | rest => True
  | event e => e.Worded

/-- The numbers in a cell that are doubles. -/
def floats : Cell → List Float
  | rest => []
  | event e => [e.value]

/-- A mark for a rest names no kind. -/
theorem ofText_mark {s : String} {e : Event} (h : s ∈ restMarks) : Event.ofText s ≠ .ok e := by
  have hall : restMarks.all (fun s =>
      (Kind.ofName? ((Text.pieces ':' (Text.trim s)).headD "")).isNone) = true := by
    decide +kernel
  intro hread
  obtain ⟨kind, hkind, -⟩ := Event.ofText_eq_ok_iff.mp hread
  have hnone := List.all_eq_true.mp hall s h
  rw [hkind] at hnone
  cases hnone

/-- A cell is a rest by one of the marks, or what its text is as an event. -/
theorem ofText_eq_ok_iff {s : String} {c : Cell} :
    ofText s = .ok c ↔ Text.trim s ∈ restMarks ∧ c = rest ∨
      Text.trim s ∉ restMarks ∧ ∃ e, Event.ofText s = .ok e ∧ c = event e := by
  have htrim : ∀ e, Event.ofText s = .ok e ↔ Event.ofText (Text.trim s) = .ok e := fun e =>
    Event.ofText_trim.symm
  simp only [htrim]
  unfold ofText
  by_cases hmark : Text.trim s ∈ restMarks
  · simp [hmark, eq_comm]
  · cases hread : Event.ofText (Text.trim s) with
    | error fault => simp [hmark, hread, Functor.map, Except.map]
    | ok e => simp [hmark, hread, Functor.map, Except.map, eq_comm]

/-- What is read as an event by itself is read as the same event in a pattern. -/
theorem ofText_of_event {s : String} {e : Event} (h : Event.ofText s = .ok e) :
    ofText s = .ok (event e) :=
  ofText_eq_ok_iff.mpr (.inr ⟨fun hmark => ofText_mark hmark (Event.ofText_trim.mpr h), e, h, rfl⟩)

/-- The name of its kind tells the text of any event from a rest. -/
theorem trim_text_not_mem_restMarks (e : Event) : Text.trim e.text ∉ restMarks := by
  obtain ⟨c, hc, hletter⟩ : ∃ c ∈ e.kind.name.toList, Text.isBlank c = false ∧
      ∀ s ∈ restMarks, c ∉ s.toList := by
    cases e.kind <;> exact ⟨_, List.mem_cons_self, by decide, by decide⟩
  have htext : c ∈ e.text.toList := by
    unfold Event.text
    split <;> simp only [String.toList_append, List.mem_append, hc, true_or]
  have htrimmed : c ∈ (Text.trim e.text).toList := by
    rw [Text.trim, String.toList_ofList]
    exact Text.mem_trimChars htext hletter.1
  exact fun hmem => hletter.2 _ hmem htrimmed

/-- A cell is read again from its text. -/
theorem ofText_text {c : Cell} (h : c.Worded) (hfloats : ∀ x ∈ c.floats, x.isNaN = false) :
    ∃ c', ofText c.text = .ok c' ∧ (c' == c) = true := by
  cases c with
  | rest => exact ⟨rest, rfl, rfl⟩
  | event e =>
    obtain ⟨e', hread, hbeq⟩ := Event.ofText_text h (hfloats e.value List.mem_cons_self)
    exact ⟨event e', ofText_of_event hread, hbeq⟩

theorem text_eq_of_beq {c c' : Cell} (h : (c == c') = true) : c.text = c'.text := by
  cases c with
  | rest => cases c' with
    | rest => rfl
    | event e' => cases h
  | event e => cases c' with
    | rest => cases h
    | event e' => exact Event.text_eq_of_beq h

theorem worded_of_ofText {s : String} {c : Cell} (h : ofText s = .ok c) : c.Worded := by
  obtain ⟨-, rfl⟩ | ⟨-, e, hread, rfl⟩ := ofText_eq_ok_iff.mp h
  · exact trivial
  · exact Event.worded_of_ofText hread

/-- Whatever was read from a text, event or cell: its own text is read as something equal, which
has this text again. In a pattern an event is never taken for a rest, neither by the text that it
was read from nor by its own. -/
theorem texts_reread (s : String) :
    (∀ e, Event.ofText s = .ok e → e.value.isNaN = false →
      ∃ e', Event.ofText e.text = .ok e' ∧ (e' == e) = true ∧ e'.text = e.text) ∧
    (∀ c, ofText s = .ok c → (∀ x ∈ c.floats, x.isNaN = false) →
      ∃ c', ofText c.text = .ok c' ∧ (c' == c) = true ∧ c'.text = c.text) ∧
    (∀ e, Event.ofText s = .ok e → ofText s = .ok (event e)) ∧
    ∀ e : Event, ofText e.text ≠ .ok rest := by
  refine ⟨fun e h hvalue => ?_, fun c h hfloats => ?_, fun e => ofText_of_event, fun e h => ?_⟩
  · obtain ⟨e', hread, hbeq⟩ := Event.ofText_text (Event.worded_of_ofText h) hvalue
    exact ⟨e', hread, hbeq, Event.text_eq_of_beq hbeq⟩
  · obtain ⟨c', hread, hbeq⟩ := ofText_text (worded_of_ofText h) hfloats
    exact ⟨c', hread, hbeq, text_eq_of_beq hbeq⟩
  · obtain ⟨hmark, -⟩ | ⟨-, e', -, hrest⟩ := ofText_eq_ok_iff.mp h
    · exact trim_text_not_mem_restMarks e hmark
    · cases hrest

/-- With the largest number there is, and the least value that is not written as an integer. -/
theorem texts_reread_large :
    ∃ e, Event.ofText " cc:-3:2147483647:1e15" = .ok e ∧ e.value.isNaN = false ∧
      e.text = "cc:-3:2147483647:1000000000000000" ∧
      (∃ e', Event.ofText e.text = .ok e' ∧ (e' == e) = true ∧ e'.text = e.text) ∧
      ofText " cc:-3:2147483647:1e15" = .ok (event e) ∧
      ∃ c', ofText (event e).text = .ok c' ∧ (c' == event e) = true ∧
        c'.text = (event e).text := by
  have hfound : (Event.ofText " cc:-3:2147483647:1e15").toOption.any (fun e =>
      !e.value.isNaN && e.text == "cc:-3:2147483647:1000000000000000") = true := by
    decide +kernel
  cases hread : Event.ofText " cc:-3:2147483647:1e15" with
  | error fault =>
    rw [hread] at hfound
    cases hfound
  | ok e =>
    rw [hread] at hfound
    simp only [Except.toOption, Option.any_some, Bool.and_eq_true, Bool.not_eq_true',
      beq_iff_eq] at hfound
    obtain ⟨hevent, hcell, hsame, -⟩ := texts_reread " cc:-3:2147483647:1e15"
    have hstep := hsame e hread
    exact ⟨e, rfl, hfound.1, hfound.2, hevent e hread hfound.1, hstep,
      hcell (event e) hstep (List.forall_mem_singleton.mpr hfound.1)⟩

end Cell

end MidiRig
