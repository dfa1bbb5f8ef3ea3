import MidiRig.Proofs.Event.Text

/-!
# The language of payloads

The payload of an exclusive message is written in pairs of hexadecimal digits, with blanks and
colons anywhere. A text without a plus sign is read just when it consists of such pairs, and then
as the bytes that they stand for (`payload_grammar`). A plus sign, however, is also taken for the
first character of a pair, where it adds nothing (`plus_sign_is_read`).
-/

namespace MidiRig.Event

/-! ## Digits -/

def smallDigits : List Char := "0123456789abcdef".toList

def largeDigits : List Char := "0123456789ABCDEF".toList

/-- `c` is the hexadecimal digit for `n`, in either case. -/
def IsHex (c : Char) (n : ℕ) : Prop := smallDigits[n]? = some c ∨ largeDigits[n]? = some c

theorem hexValue?_of_isHex {c : Char} {n : ℕ} (h : IsHex c n) : hexValue? c = some n := by
  have hsmall : ∀ n : Fin 16, hexValue? (smallDigits.get n) = some n.1 := by decide
  have hlarge : ∀ n : Fin 16, hexValue? (largeDigits.get n) = some n.1 := by decide
  rcases h with h | h
  · obtain ⟨hn, rfl⟩ := List.getElem?_eq_some_iff.mp h
    exact hsmall ⟨n, hn⟩
  · obtain ⟨hn, rfl⟩ := List.getElem?_eq_some_iff.mp h
    exact hlarge ⟨n, hn⟩

theorem isHex_of_hexValue? {c : Char} {n : ℕ} (h : hexValue? c = some n) : IsHex c n := by
  have hdecimal : ∀ n < 10, smallDigits[n]? = some (Char.ofNat (48 + n)) := by decide
  have hsmall : ∀ n < 6, smallDigits[n + 10]? = some (Char.ofNat (97 + n)) := by decide
  have hlarge : ∀ n < 6, largeDigits[n + 10]? = some (Char.ofNat (65 + n)) := by decide
  have hchar : ∀ k ≤ c.toNat, Char.ofNat (k + (c.toNat - k)) = c := by
    intro k hk
    rw [Nat.add_sub_cancel' hk, Char.ofNat_toNat]
  unfold hexValue? at h
  split_ifs at h with hdigit hlower hupper
  · obtain ⟨hlo, hhi⟩ : 48 ≤ c.toNat ∧ c.toNat ≤ 57 := Char.isDigit_iff_toNat.mp hdigit
    obtain rfl : c.toNat - 48 = n := Option.some.inj h
    left
    rw [hdecimal _ (by omega), hchar 48 hlo]
  · obtain ⟨hlo, hhi⟩ : 97 ≤ c.toNat ∧ c.toNat ≤ 102 := hlower
    obtain rfl : c.toNat - 97 + 10 = n := Option.some.inj h
    left
    rw [hsmall _ (by omega), hchar 97 hlo]
  · obtain ⟨hlo, hhi⟩ : 65 ≤ c.toNat ∧ c.toNat ≤ 70 := hupper
    obtain rfl : c.toNat - 65 + 10 = n := Option.some.inj h
    right
    rw [hlarge _ (by omega), hchar 65 hlo]

theorem hexValue?_eq_some_iff {c : Char} {n : ℕ} : hexValue? c = some n ↔ IsHex c n :=
  ⟨isHex_of_hexValue?, hexValue?_of_isHex⟩

theorem IsHex.ascii {c : Char} {n : ℕ} (h : IsHex c n) : c.toNat < 128 := by
  have hall : (smallDigits ++ largeDigits).all (fun c => c.toNat < 128) = true := by decide
  have hmem : c ∈ smallDigits ++ largeDigits := by
    rcases h with h | h
    · exact List.mem_append_left _ (List.mem_of_getElem? h)
    · exact List.mem_append_right _ (List.mem_of_getElem? h)
  exact of_decide_eq_true (List.all_eq_true.mp hall c hmem)

theorem not_isHex_plus (n : ℕ) : ¬ IsHex '+' n := fun h => by
  have hread := hexValue?_of_isHex h
  cases hread

/-! ## Pairs -/

/-- What is read as the first of a pair: a digit, or a plus sign, which counts nothing. -/
def IsTens (c : Char) (n : ℕ) : Prop := IsHex c n ∨ c = '+' ∧ n = 0

/-- Bytes by pairs of characters, the second one a digit and the first one as said. -/
inductive Pairs (Tens : Char → ℕ → Prop) : List Char → List UInt8 → Prop
  | nil : Pairs Tens [] []
  | pair {high low : Char} {tens units : ℕ} {cs : List Char} {bytes : List UInt8}
    (hhigh : Tens high tens) (hlow : IsHex low units) (h : Pairs Tens cs bytes) :
    Pairs Tens (high :: low :: cs) (UInt8.ofNat (16 * tens + units) :: bytes)

theorem readByte?_eq_some_iff {high low : Char} {b : UInt8} :
    readByte? high low = some b ↔ ∃ tens, IsTens high tens ∧ ∃ units, IsHex low units ∧
      UInt8.ofNat (16 * tens + units) = b := by
  have htens : ∀ tens, (if high = '+' then some 0 else hexValue? high) = some tens ↔
      IsTens high tens := by
    intro tens
    unfold IsTens
    split
    · next hplus => simp [hplus, not_isHex_plus, eq_comm]
    · next hplus => simp [hplus, hexValue?_eq_some_iff]
  have hbyte : readByte? high low = (if high = '+' then some 0 else hexValue? high).bind fun tens =>
      (hexValue? low).bind fun units => some (UInt8.ofNat (16 * tens + units)) := by
    unfold readByte?
    split <;> rfl
  simp only [hbyte, Option.bind_eq_some_iff, htens, hexValue?_eq_some_iff, Option.some_inj]

theorem readBytes?_eq_some_iff {cs : List Char} {bytes : List UInt8} :
    readBytes? cs = some bytes ↔ Pairs IsTens cs bytes := by
  induction cs using readBytes?.induct generalizing bytes with
  | case1 =>
    constructor
    · rintro ⟨⟩
      exact .nil
    · rintro ⟨⟩
      rfl
  | case2 high low rest ih =>
    rw [readBytes?]
    simp only [Option.bind_eq_bind, Option.bind_eq_some_iff, readByte?_eq_some_iff, ih,
      Option.pure_def, Option.some_inj]
    constructor
    · rintro ⟨b, ⟨tens, hhigh, units, hlow, rfl⟩, bytes, hrest, rfl⟩
      exact .pair hhigh hlow hrest
    · rintro (_ | ⟨hhigh, hlow, hrest⟩)
      exact ⟨_, ⟨_, hhigh, _, hlow, rfl⟩, _, hrest, rfl⟩
  | case3 c =>
    constructor
    · intro h
      cases h
    · intro h
      cases h

section

variable {Tens : Char → ℕ → Prop} {cs : List Char} {bytes : List UInt8}

theorem Pairs.mono {Tens' : Char → ℕ → Prop} (h : Pairs Tens cs bytes)
    (htens : ∀ c ∈ cs, ∀ n, Tens c n → Tens' c n) : Pairs Tens' cs bytes := by
  induction h with
  | nil => exact .nil
  | pair hhigh hlow _ ih =>
    obtain ⟨hfirst, -, hrest⟩ : _ ∧ _ ∧ _ := by
      simpa only [List.forall_mem_cons] using htens
    exact .pair (hfirst _ hhigh) hlow (ih hrest)

theorem Pairs.even (h : Pairs Tens cs bytes) : Even cs.length := by
  induction h with
  | nil => exact Even.zero
  | pair _ _ _ ih => exact ih.add even_two

/-- Each character belongs to a pair. -/
theorem Pairs.of_mem (h : Pairs Tens cs bytes) :
    ∀ c ∈ cs, ∃ n, Tens c n ∨ IsHex c n := by
  induction h with
  | nil => exact List.forall_mem_nil _
  | pair hhigh hlow _ ih =>
    exact List.forall_mem_cons.mpr ⟨⟨_, .inl hhigh⟩,
      List.forall_mem_cons.mpr ⟨⟨_, .inr hlow⟩, ih⟩⟩

/-- Digits make pairs just when their number is even. -/
theorem exists_pairs_iff :
    (∃ bytes, Pairs IsHex cs bytes) ↔ Even cs.length ∧ ∀ c ∈ cs, ∃ n, IsHex c n := by
  constructor
  · rintro ⟨bytes, h⟩
    exact ⟨h.even, fun c hc => (h.of_mem c hc).imp fun _ => or_self_iff.mp⟩
  · rintro ⟨heven, hdigits⟩
    induction cs using readBytes?.induct with
    | case1 => exact ⟨[], .nil⟩
    | case2 high low rest ih =>
      obtain ⟨⟨tens, hhigh⟩, ⟨units, hlow⟩, hrest⟩ : _ ∧ _ ∧ _ := by
        simpa only [List.forall_mem_cons] using hdigits
      obtain ⟨bytes, h⟩ := ih (by simpa [Nat.even_add_one] using heven) hrest
      exact ⟨_, .pair hhigh hlow h⟩
    | case3 c => cases heven with | intro n hn => simp at hn; omega

end

/-! ## Payloads -/

/-- A payload is read just when, without its blanks, it consists of pairs. -/
theorem readPayload_eq_ok_iff {cs : List Char} {bytes : List UInt8} :
    readPayload cs = .ok bytes ↔ Pairs IsTens (Text.squeeze cs) bytes := by
  rw [← readBytes?_eq_some_iff]
  constructor
  · intro h
    simp only [readPayload] at h
    split_ifs at h
    split at h
    · next found hfound =>
      cases h
      exact hfound
    · cases h
  · intro h
    have hpairs := readBytes?_eq_some_iff.mp h
    have hascii : (Text.squeeze cs).any (fun c => 128 ≤ c.toNat) = false := by
      rw [List.any_eq_false]
      intro c hc
      have hlt : c.toNat < 128 := by
        obtain ⟨n, (hhex | ⟨rfl, -⟩) | hhex⟩ := hpairs.of_mem c hc
        · exact hhex.ascii
        · decide
        · exact hhex.ascii
      simpa using hlt
    have heven : (Text.squeeze cs).length % 2 = 0 := Nat.even_iff.mp hpairs.even
    simp [readPayload, hascii, heven, h]

/-- What a payload consists of, without colons and blanks. -/
def payloadDigits (p : String) : List Char := Text.squeeze (p.toList.filter (· != ':'))

/-- The colons of a text stand between its pieces, and the blanks at its end do not count. -/
theorem squeeze_pieces (p : String) :
    Text.squeeze (String.join (Text.pieces ':'
      (String.ofList (p.toList.rdropWhile Text.isBlank)))).toList = payloadDigits p := by
  have hswap (cs : List Char) : Text.squeeze (cs.filter (· != ':')) =
      (Text.squeeze cs).filter (· != ':') := List.filter_comm _ _ _
  rw [Text.join_pieces, String.toList_ofList, hswap, Text.squeeze_rdropWhile, ← hswap]
  rfl

theorem ofText_exclusive {p : String} {e : Event} :
    ofText ("sysex:" ++ p) = .ok e ↔
      ∃ bytes, Pairs IsTens (payloadDigits p) bytes ∧ e = exclusive bytes := by
  have hname : Text.Unblank "sysex:".toList := by decide
  have htrim : Text.trim ("sysex:" ++ p) =
      "sysex" ++ String.singleton ':' ++ String.ofList (p.toList.rdropWhile Text.isBlank) := by
    rw [Text.trim, String.toList_append, hname.trimChars_append (by decide), String.ofList_append]
    rfl
  have hfields : ∀ fields, ofFields .exclusive fields =
      exclusive <$> readPayload (String.join fields).toList := fun _ => rfl
  rw [ofText_eq_ok_iff, htrim, Text.pieces_append (by decide), List.headD_cons, List.tail_cons]
  constructor
  · rintro ⟨kind, hkind, hread⟩
    obtain rfl : .exclusive = kind := Option.some.inj ((ofName?_name .exclusive).symm.trans hkind)
    rw [hfields, map_eq_pure_bind] at hread
    obtain ⟨bytes, hbytes, hread⟩ := exists_of_bind_eq_ok hread
    cases hread
    exact ⟨bytes, squeeze_pieces p ▸ readPayload_eq_ok_iff.mp hbytes, rfl⟩
  · rintro ⟨bytes, hbytes, rfl⟩
    refine ⟨.exclusive, ofName?_name .exclusive, ?_⟩
    rw [hfields, readPayload_eq_ok_iff.mpr ((squeeze_pieces p).symm ▸ hbytes)]
    rfl

/-- A payload is read just when, without colons and blanks, it consists of pairs, and its bytes are
those of the pairs. If there is no plus sign in it, these are pairs of hexadecimal digits: it is
read just when there are only digits left, an even number of them. -/
theorem payload_grammar (p : String) :
    (∀ e, ofText ("sysex:" ++ p) = .ok e ↔
      ∃ bytes, Pairs IsTens (payloadDigits p) bytes ∧ e = exclusive bytes) ∧
    ('+' ∉ p.toList →
      ((∃ e, ofText ("sysex:" ++ p) = .ok e) ↔
        Even (payloadDigits p).length ∧ ∀ c ∈ payloadDigits p, ∃ n, IsHex c n) ∧
      ∀ e, ofText ("sysex:" ++ p) = .ok e →
        ∃ bytes, Pairs IsHex (payloadDigits p) bytes ∧ e = exclusive bytes) := by
  refine ⟨fun e => ofText_exclusive, fun hplus => ?_⟩
  have hdigit : ∀ c ∈ payloadDigits p, ∀ n, IsTens c n → IsHex c n := by
    rintro c hc n (hhex | ⟨rfl, -⟩)
    · exact hhex
    · exact absurd (List.mem_of_mem_filter (List.mem_of_mem_filter hc)) hplus
  have hpairs : ∀ {bytes}, Pairs IsTens (payloadDigits p) bytes ↔
      Pairs IsHex (payloadDigits p) bytes :=
    ⟨fun h => h.mono hdigit, fun h => h.mono fun _ _ _ => .inl⟩
  simp only [ofText_exclusive, hpairs, ← exists_pairs_iff]
  refine ⟨⟨?_, ?_⟩, fun e h => h⟩
  · rintro ⟨e, bytes, h, -⟩
    exact ⟨bytes, h⟩
  · rintro ⟨bytes, h⟩
    exact ⟨exclusive bytes, bytes, h, rfl⟩

theorem payload_grammar_spaced :
    '+' ∉ " f0:7E 0a".toList ∧
      (ofText ("sysex:" ++ " f0:7E 0a") = .ok (exclusive [0xF0, 0x7E, 0x0A]) ∧
        Even (payloadDigits " f0:7E 0a").length) ∧
      ∃ bytes, Pairs IsHex (payloadDigits " f0:7E 0a") bytes ∧
        exclusive [0xF0, 0x7E, 0x0A] = exclusive bytes := by
  have hplus : '+' ∉ " f0:7E 0a".toList := by decide
  have hpairs : readBytes? (payloadDigits " f0:7E 0a") = some [0xF0, 0x7E, 0x0A] := by decide
  obtain ⟨hall, hstrict⟩ := payload_grammar " f0:7E 0a"
  have hread : ofText ("sysex:" ++ " f0:7E 0a") = .ok (exclusive [0xF0, 0x7E, 0x0A]) :=
    (hall _).mpr ⟨_, readBytes?_eq_some_iff.mp hpairs, rfl⟩
  obtain ⟨hdigits, hbytes⟩ := hstrict hplus
  exact ⟨hplus, ⟨hread, (hdigits.mp ⟨_, hread⟩).1⟩, hbytes _ hread⟩

/-- A plus sign is no digit, and yet it is read in place of one. -/
theorem plus_sign_is_read :
    payloadDigits "+F" = ['+', 'F'] ∧ (¬ ∃ n, IsHex '+' n) ∧
      ofText ("sysex:" ++ "+F") = .ok (exclusive [0x0F]) := by
  have hpairs : readBytes? (payloadDigits "+F") = some [0x0F] := by decide
  exact ⟨by decide, fun ⟨n, h⟩ => not_isHex_plus n h,
    ofText_exclusive.mpr ⟨_, readBytes?_eq_some_iff.mp hpairs, rfl⟩⟩

end MidiRig.Event
