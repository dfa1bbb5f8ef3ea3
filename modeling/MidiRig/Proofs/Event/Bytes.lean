import MidiRig.Event.Bytes
import MidiRig.Proofs.Event.Text
import MidiRig.Proofs.Number.Ticks

/-!
# Events and their messages

Each well-formed message (`Message`) is read as an event that is sent as the same bytes, and each
event whose fields fit into a message (`Sendable`) is sent as bytes that are read as the same event
(`bytes_correspond`). In both directions a note without velocity turns into the note-off that it
means. The two follow from what the bytes of an event with given fields are, and what such bytes
are read as, for each of the forms that a message can have.
-/

namespace MidiRig.Event

open Binary64

/-! ## Messages -/

/-- The bytes of a message, by the form that its status byte asks for. -/
inductive Message : List UInt8 → Prop
  /-- Note-offs, notes, key pressures, controllers and bends have two data bytes. -/
  | long {status a b : UInt8}
    (hstatus : 0x80 ≤ status ∧ status < 0xC0 ∨ 0xE0 ≤ status ∧ status < 0xF0)
    (ha : a < 0x80) (hb : b < 0x80) : Message [status, a, b]
  /-- Programs and channel pressures have one. -/
  | short {status a : UInt8} (hstatus : 0xC0 ≤ status ∧ status < 0xE0) (ha : a < 0x80) :
    Message [status, a]
  | transport {status : UInt8} (hstatus : status ∈ [0xF8, 0xFA, 0xFB, 0xFC]) : Message [status]
  | exclusive {payload : List UInt8} (hpayload : 0xF7 ∉ payload) :
    Message (0xF0 :: (payload ++ [0xF7]))

/-- A note without velocity as the note-off that it means. -/
def settledBytes : List UInt8 → List UInt8
  | [status, key, velocity] =>
    if 0x90 ≤ status ∧ status < 0xA0 ∧ velocity = 0 then [status - 0x10, key, 0]
    else [status, key, velocity]
  | bytes => bytes

/-- Events whose fields fit into a message: those that the kind carries, and no others. -/
inductive Sendable : Event → Prop
  | numbered {kind : Kind} (hkind : kind.hasNumber = true) {c n : ℤ} (hc : 1 ≤ c ∧ c ≤ 16)
    (hn : 0 ≤ n ∧ n ≤ 127) {x : Float} (hwhole : isWhole x = true) (hlo : 0.0 ≤ x)
    (hhi : x ≤ kind.maxValue) : Sendable ⟨kind, some c, some n, x, []⟩
  | plain {kind : Kind} (hkind : kind.hasChannel = true) (hnumber : kind.hasNumber = false) {c : ℤ}
    (hc : 1 ≤ c ∧ c ≤ 16) {x : Float} (hwhole : isWhole x = true) (hlo : 0.0 ≤ x)
    (hhi : x ≤ kind.maxValue) : Sendable ⟨kind, some c, none, x, []⟩
  | transport {kind : Kind} (hkind : kind.isTransport = true) {x : Float}
    (hx : (x == 0.0) = true) : Sendable ⟨kind, none, none, x, []⟩
  | exclusive {payload : List UInt8} (hpayload : 0xF7 ∉ payload) {x : Float}
    (hx : (x == 0.0) = true) : Sendable ⟨.exclusive, none, none, x, payload⟩

/-- A note without velocity as the note-off that it means. -/
def settled (e : Event) : Event :=
  if e.kind = .note ∧ (e.value == 0.0) = true then e.release else e

/-! ## Values -/

theorem zero_beq : ((0.0 : Float) == 0.0) = true := (has_zero.beq_iff has_zero).mpr rfl

theorem heldValue_eq (top : ℕ) {x : Float} {v : ℕ} (h : Has x v) (hv : v ≤ top)
    (htop : top < 2 ^ 31) : heldValue top x = v := by
  have hround : Has (round x) (v : ℤ) := by
    have hround := h.round_eq (Nat.cast_nonneg v)
    rwa [floor_natCast_add_half, ← Int.cast_natCast] at hround
  have hmin : minInt32 = -2 ^ 31 := rfl
  have hmax : maxInt32 = 2 ^ 31 - 1 := rfl
  rw [heldValue, hround.toInt32_eq (by omega) (by omega), held, Int.toNat_natCast,
    Nat.min_eq_right hv]

/-- A whole number from zero up to a natural number is one itself. -/
theorem has_of_whole {x y : Float} {top : ℕ} (hwhole : isWhole x = true) (hlo : 0.0 ≤ x)
    (hy : Has y top) (hhi : x ≤ y) : ∃ v : ℕ, Has x v ∧ v ≤ top := by
  obtain ⟨c, hc⟩ := isWhole_iff.mp hwhole
  have hpos : 0 ≤ c := by exact_mod_cast (has_zero.le_iff hc).mp hlo
  obtain ⟨v, rfl⟩ := Int.eq_ofNat_of_zero_le hpos
  refine ⟨v, hc, ?_⟩
  exact_mod_cast (hc.le_iff hy).mp hhi

theorem has_maxValue (kind : Kind) :
    Has kind.maxValue (if kind = .bend then 16383 else 127 : ℕ) := by
  cases kind with
  | bend => exact has_literal 16383 (by norm_num)
  | _ => exact has_literal 127 (by norm_num)

/-! ## Channel messages -/

theorem held_channel {k : ℕ} (hk : k < 16) : held 15 ((k + 1 : ℤ) - 1) = k := by
  rw [held, add_sub_cancel_right, Int.toNat_natCast]
  omega

theorem held_number {n : ℕ} (hn : n < 128) : held 127 n = n := by
  rw [held, Int.toNat_natCast]
  omega

section

variable {kind : Kind} {k n v : ℕ} {x : Float}

theorem hasChannel_of_hasNumber (hkind : kind.hasNumber = true) : kind.hasChannel = true := by
  cases kind <;> first | rfl | cases hkind

theorem toBytes_numbered (hkind : kind.hasNumber = true) (hk : k < 16) (hn : n < 128)
    (hv : v < 128) (hx : Has x v) :
    toBytes ⟨kind, some (k + 1), some n, x, []⟩ =
      [UInt8.ofNat (statusOf kind + k), UInt8.ofNat n, UInt8.ofNat v] := by
  have hvalue := heldValue_eq 127 hx (by omega) (by norm_num)
  unfold toBytes
  simp only [Option.getD_some, held_channel hk, held_number hn, hvalue]
  cases kind <;> first | rfl | cases hkind

theorem toBytes_single (hkind : kind = .program ∨ kind = .channelPressure) (hk : k < 16)
    (hv : v < 128) (hx : Has x v) :
    toBytes ⟨kind, some (k + 1), none, x, []⟩ =
      [UInt8.ofNat (statusOf kind + k), UInt8.ofNat v] := by
  have hvalue := heldValue_eq 127 hx (by omega) (by norm_num)
  unfold toBytes
  simp only [Option.getD_some, held_channel hk, hvalue]
  rcases hkind with rfl | rfl <;> rfl

theorem toBytes_bend (hk : k < 16) (hv : v < 16384) (hx : Has x v) :
    toBytes ⟨.bend, some (k + 1), none, x, []⟩ =
      [UInt8.ofNat (statusOf .bend + k), UInt8.ofNat (v % 128), UInt8.ofNat (v / 128)] := by
  have hvalue := heldValue_eq 16383 hx (by omega) (by norm_num)
  unfold toBytes
  simp only [Option.getD_some, held_channel hk, hvalue]
  rfl

theorem toNat_ofNat_data (hv : v < 128) : (UInt8.ofNat v).toNat = v := by
  have hsize : UInt8.size = 256 := rfl
  exact UInt8.toNat_ofNat_of_lt' (by omega)

/-- The status byte of a channel message, taken apart. -/
theorem statusOf_add (hkind : kind.hasChannel = true) (hk : k < 16) :
    statusOf kind + k < 0xF0 ∧ (statusOf kind + k) / 16 = statusOf kind / 16 ∧
      ((statusOf kind + k : ℕ) : ℤ) % 16 = k := by
  have haligned : statusOf kind ≤ 0xE0 ∧ statusOf kind % 16 = 0 := by
    cases kind <;> first | decide | cases hkind
  omega

theorem toNat_status (hkind : kind.hasChannel = true) (hk : k < 16) :
    (UInt8.ofNat (statusOf kind + k)).toNat = statusOf kind + k := by
  have hsize : UInt8.size = 256 := rfl
  obtain ⟨hlt, -, -⟩ := statusOf_add hkind hk
  exact UInt8.toNat_ofNat_of_lt' (by omega)

theorem ofBytes?_channel (hkind : kind.hasChannel = true) (hk : k < 16) (data : List UInt8) :
    ofBytes? (UInt8.ofNat (statusOf kind + k) :: data) =
      ofChannelBytes? (statusOf kind + k) data := by
  obtain ⟨hlt, -, -⟩ := statusOf_add hkind hk
  unfold ofBytes?
  simp only [toNat_status hkind hk]
  split <;> first | rfl | omega

theorem ofNat_eq_zero (hv : v < 128) : UInt8.ofNat v = 0 ↔ v = 0 := by
  rw [← UInt8.toNat_inj, toNat_ofNat_data hv]
  rfl

theorem ofBytes?_numbered (hkind : kind.hasNumber = true) (hk : k < 16) (hn : n < 128)
    (hv : v < 128) :
    ofBytes? [UInt8.ofNat (statusOf kind + k), UInt8.ofNat n, UInt8.ofNat v] =
      some (if kind = .note ∧ v = 0 then make .noteOff (some (k + 1)) (some n) 0.0
        else make kind (some (k + 1)) (some n) (Float.ofNat v)) := by
  have hchannel := hasChannel_of_hasNumber hkind
  obtain ⟨-, hdiv, hmod⟩ := statusOf_add hchannel hk
  rw [ofBytes?_channel hchannel hk]
  unfold ofChannelBytes?
  simp only [hdiv, hmod]
  cases kind with
  | note =>
    simp only [statusOf, Nat.reduceDiv, toNat_ofNat_data hn, toNat_ofNat_data hv,
      ofNat_eq_zero hv, true_and]
    split <;> rfl
  | noteOff | control | keyPressure =>
    simp only [statusOf, Nat.reduceDiv, toNat_ofNat_data hn, toNat_ofNat_data hv, reduceCtorEq,
      false_and, if_false]
  | _ => cases hkind

theorem ofBytes?_single (hkind : kind = .program ∨ kind = .channelPressure) (hk : k < 16)
    (hv : v < 128) :
    ofBytes? [UInt8.ofNat (statusOf kind + k), UInt8.ofNat v] =
      some (make kind (some (k + 1)) none (Float.ofNat v)) := by
  have hchannel : kind.hasChannel = true := by rcases hkind with rfl | rfl <;> rfl
  obtain ⟨-, hdiv, hmod⟩ := statusOf_add hchannel hk
  rw [ofBytes?_channel hchannel hk]
  unfold ofChannelBytes?
  simp only [hdiv, hmod]
  rcases hkind with rfl | rfl <;> simp only [statusOf, Nat.reduceDiv, toNat_ofNat_data hv]

theorem ofBytes?_bend {low high : ℕ} (hk : k < 16) (hlow : low < 128) (hhigh : high < 128) :
    ofBytes? [UInt8.ofNat (statusOf .bend + k), UInt8.ofNat low, UInt8.ofNat high] =
      some (make .bend (some (k + 1)) none (Float.ofNat (128 * high + low))) := by
  obtain ⟨-, hdiv, hmod⟩ := statusOf_add (show Kind.bend.hasChannel = true from rfl) hk
  -- the low byte fills the seven bits that the shift leaves clear
  have hwide : high * 128 ||| low = 128 * high + low := by
    rw [Nat.mul_comm, ← Nat.two_pow_add_eq_or_of_lt (i := 7) (by omega)]
  rw [ofBytes?_channel rfl hk]
  unfold ofChannelBytes?
  simp only [hdiv, hmod]
  simp only [statusOf, Nat.reduceDiv, toNat_ofNat_data hlow, toNat_ofNat_data hhigh, hwide]

end

/-! ## Exclusive and transport messages -/

theorem takeWhile_exclusive {payload : List UInt8} (h : 0xF7 ∉ payload) :
    (payload ++ [0xF7]).takeWhile (· != 0xF7) = payload := by
  have hall : ∀ b ∈ payload, (b != 0xF7) = true :=
    fun b hb => bne_iff_ne.mpr fun heq => h (heq ▸ hb)
  rw [List.takeWhile_append_of_pos hall]
  simp

theorem toBytes_exclusive (x : Float) (payload : List UInt8) :
    toBytes ⟨.exclusive, none, none, x, payload⟩ = 0xF0 :: (payload ++ [0xF7]) := by
  have hbytes : payload.map (UInt8.ofNat ∘ UInt8.toNat) = payload := by
    simp [Function.comp_def]
  simp [toBytes, statusOf, hbytes]

theorem ofBytes?_exclusive {payload : List UInt8} (h : 0xF7 ∉ payload) :
    ofBytes? (0xF0 :: (payload ++ [0xF7])) = some (exclusive payload) := by
  rw [ofBytes?]
  simp [takeWhile_exclusive h]

theorem toBytes_transport {kind : Kind} (hkind : kind.isTransport = true) (x : Float) :
    toBytes ⟨kind, none, none, x, []⟩ = [UInt8.ofNat (statusOf kind)] := by
  cases kind <;> first | rfl | cases hkind

theorem ofBytes?_transport {kind : Kind} (hkind : kind.isTransport = true) :
    ofBytes? [UInt8.ofNat (statusOf kind)] = some (transport kind) := by
  cases kind <;> first | rfl | cases hkind

/-! ## From bytes -/

theorem make_numbered {kind : Kind} (hkind : kind.hasNumber = true) (c n : ℤ) (x : Float) :
    make kind (some c) (some n) x = ⟨kind, some c, some n, x, []⟩ := by
  cases kind <;> first | rfl | cases hkind

theorem make_plain {kind : Kind} (hchannel : kind.hasChannel = true)
    (hnumber : kind.hasNumber = false) (c : ℤ) (n : Option ℤ) (x : Float) :
    make kind (some c) n x = ⟨kind, some c, none, x, []⟩ := by
  rw [make, hchannel, hnumber]
  rfl

theorem transport_eq (kind : Kind) : transport kind = ⟨kind, none, none, 0.0, []⟩ := by
  cases kind <;> rfl

/-- A status byte from its high and low four bits. -/
theorem status_eq {status : UInt8} {kind : Kind} (h : status.toNat / 16 * 16 = statusOf kind) :
    status = UInt8.ofNat (statusOf kind + status.toNat % 16) := by
  rw [← h, Nat.div_add_mod', UInt8.ofNat_toNat]

theorem exists_of_long {status : UInt8}
    (h : 0x80 ≤ status ∧ status < 0xC0 ∨ 0xE0 ≤ status ∧ status < 0xF0) :
    ∃ kind k, k < 16 ∧ status = UInt8.ofNat (statusOf kind + k) ∧
      (kind.hasNumber = true ∨ kind = .bend) := by
  have hnat : 0x80 ≤ status.toNat ∧ status.toNat < 0xC0 ∨
      0xE0 ≤ status.toNat ∧ status.toNat < 0xF0 := h
  have hlow : status.toNat % 16 < 16 := Nat.mod_lt _ (by omega)
  have hhigh : status.toNat / 16 = 0x8 ∨ status.toNat / 16 = 0x9 ∨ status.toNat / 16 = 0xA ∨
      status.toNat / 16 = 0xB ∨ status.toNat / 16 = 0xE := by omega
  rcases hhigh with hhigh | hhigh | hhigh | hhigh | hhigh
  · exact ⟨.noteOff, _, hlow, status_eq (by rw [hhigh]; rfl), .inl rfl⟩
  · exact ⟨.note, _, hlow, status_eq (by rw [hhigh]; rfl), .inl rfl⟩
  · exact ⟨.keyPressure, _, hlow, status_eq (by rw [hhigh]; rfl), .inl rfl⟩
  · exact ⟨.control, _, hlow, status_eq (by rw [hhigh]; rfl), .inl rfl⟩
  · exact ⟨.bend, _, hlow, status_eq (by rw [hhigh]; rfl), .inr rfl⟩

theorem exists_of_short {status : UInt8} (h : 0xC0 ≤ status ∧ status < 0xE0) :
    ∃ kind k, k < 16 ∧ status = UInt8.ofNat (statusOf kind + k) ∧
      (kind = .program ∨ kind = .channelPressure) := by
  have hnat : 0xC0 ≤ status.toNat ∧ status.toNat < 0xE0 := h
  have hlow : status.toNat % 16 < 16 := Nat.mod_lt _ (by omega)
  have hhigh : status.toNat / 16 = 0xC ∨ status.toNat / 16 = 0xD := by omega
  rcases hhigh with hhigh | hhigh
  · exact ⟨.program, _, hlow, status_eq (by rw [hhigh]; rfl), .inl rfl⟩
  · exact ⟨.channelPressure, _, hlow, status_eq (by rw [hhigh]; rfl), .inr rfl⟩

theorem exists_of_data {a : UInt8} (h : a < 0x80) : ∃ n < 128, a = UInt8.ofNat n :=
  ⟨a.toNat, h, UInt8.ofNat_toNat.symm⟩

theorem exists_of_transport {status : UInt8} (h : status ∈ [0xF8, 0xFA, 0xFB, 0xFC]) :
    ∃ kind : Kind, kind.isTransport = true ∧ status = UInt8.ofNat (statusOf kind) := by
  simp only [List.mem_cons, List.not_mem_nil, or_false] at h
  obtain rfl | rfl | rfl | rfl := h
  exacts [⟨.clock, rfl, rfl⟩, ⟨.start, rfl, rfl⟩, ⟨.resume, rfl, rfl⟩, ⟨.stop, rfl, rfl⟩]

/-- The status bytes of notes are those from `90` up to `9F`. -/
theorem isNote_status {kind : Kind} (hkind : kind.hasChannel = true) {k : ℕ} (hk : k < 16) :
    0x90 ≤ UInt8.ofNat (statusOf kind + k) ∧ UInt8.ofNat (statusOf kind + k) < 0xA0 ↔
      kind = .note := by
  rw [UInt8.le_iff_toNat_le, UInt8.lt_iff_toNat_lt, toNat_status hkind hk]
  show 0x90 ≤ statusOf kind + k ∧ statusOf kind + k < 0xA0 ↔ _
  cases kind <;> cases hkind <;> simp only [statusOf, reduceCtorEq, iff_false, iff_true] <;> omega

/-- Of the messages with two data bytes only a note without velocity means another one. -/
theorem settledBytes_long {kind : Kind} (hkind : kind.hasChannel = true) {k n v : ℕ} (hk : k < 16)
    (hv : v < 128) :
    settledBytes [UInt8.ofNat (statusOf kind + k), UInt8.ofNat n, UInt8.ofNat v] =
      if kind = .note ∧ v = 0 then
        [UInt8.ofNat (statusOf .noteOff + k), UInt8.ofNat n, UInt8.ofNat 0]
      else [UInt8.ofNat (statusOf kind + k), UInt8.ofNat n, UInt8.ofNat v] := by
  simp only [settledBytes, ← and_assoc, isNote_status hkind hk, ofNat_eq_zero hv]
  split
  case isTrue h =>
    have hle : 0x10 ≤ UInt8.ofNat (statusOf .note + k) :=
      UInt8.le_trans (by decide) ((isNote_status rfl hk).mpr rfl).1
    have hstatus : UInt8.ofNat (statusOf .note + k) - 0x10 =
        UInt8.ofNat (statusOf .noteOff + k) := by
      rw [← UInt8.toNat_inj, UInt8.toNat_sub_of_le _ _ hle, toNat_status rfl hk,
        toNat_status rfl hk]
      show 0x90 + k - 0x10 = 0x80 + k
      omega
    rw [h.1, hstatus]
    rfl
  case isFalse => rfl

theorem settledBytes_exclusive (payload : List UInt8) :
    settledBytes (0xF0 :: (payload ++ [0xF7])) = 0xF0 :: (payload ++ [0xF7]) := by
  unfold settledBytes
  split
  case h_1 status key velocity heq =>
    obtain ⟨rfl, -⟩ := List.cons_eq_cons.mp heq
    rw [if_neg fun h => absurd h.2.1 (by decide)]
    exact heq.symm
  case h_2 => rfl

theorem toBytes_ofBytes?_long {status a b : UInt8}
    (hstatus : 0x80 ≤ status ∧ status < 0xC0 ∨ 0xE0 ≤ status ∧ status < 0xF0) (ha : a < 0x80)
    (hb : b < 0x80) :
    ∃ e, ofBytes? [status, a, b] = some e ∧ e.toBytes = settledBytes [status, a, b] := by
  obtain ⟨kind, k, hk, rfl, hkind⟩ := exists_of_long hstatus
  obtain ⟨n, hn, rfl⟩ := exists_of_data ha
  obtain ⟨v, hv, rfl⟩ := exists_of_data hb
  rcases hkind with hkind | rfl
  · refine ⟨_, ofBytes?_numbered hkind hk hn hv, ?_⟩
    rw [settledBytes_long (hasChannel_of_hasNumber hkind) hk hv]
    split
    · rw [make_numbered rfl]
      exact toBytes_numbered rfl hk hn (by norm_num) has_zero
    · rw [make_numbered hkind]
      exact toBytes_numbered hkind hk hn hv (has_natCast (by omega))
  · refine ⟨_, ofBytes?_bend hk hn hv, ?_⟩
    rw [settledBytes_long rfl hk hv, if_neg (by simp), make_plain rfl rfl,
      toBytes_bend hk (by omega) (has_natCast (by omega)),
      show (128 * v + n) % 128 = n by omega, show (128 * v + n) / 128 = v by omega]

theorem toBytes_ofBytes? {bytes : List UInt8} (h : Message bytes) :
    ∃ e, ofBytes? bytes = some e ∧ e.toBytes = settledBytes bytes := by
  cases h with
  | long hstatus ha hb => exact toBytes_ofBytes?_long hstatus ha hb
  | short hstatus ha =>
    obtain ⟨kind, k, hk, rfl, hkind⟩ := exists_of_short hstatus
    obtain ⟨v, hv, rfl⟩ := exists_of_data ha
    refine ⟨_, ofBytes?_single hkind hk hv, ?_⟩
    have hplain : kind.hasChannel = true ∧ kind.hasNumber = false := by
      rcases hkind with rfl | rfl <;> exact ⟨rfl, rfl⟩
    rw [make_plain hplain.1 hplain.2]
    exact toBytes_single hkind hk hv (has_natCast (by omega))
  | transport hstatus =>
    obtain ⟨kind, hkind, rfl⟩ := exists_of_transport hstatus
    exact ⟨_, ofBytes?_transport hkind, transport_eq kind ▸ toBytes_transport hkind 0.0⟩
  | exclusive hpayload =>
    exact ⟨_, ofBytes?_exclusive hpayload,
      (toBytes_exclusive 0.0 _).trans (settledBytes_exclusive _).symm⟩

/-! ## From events -/

theorem exists_of_channel {c : ℤ} (hc : 1 ≤ c ∧ c ≤ 16) : ∃ k < 16, c = (k : ℕ) + 1 :=
  ⟨(c - 1).toNat, by omega, by omega⟩

theorem ofBytes?_toBytes_numbered {kind : Kind} (hkind : kind.hasNumber = true) {c n : ℤ}
    (hc : 1 ≤ c ∧ c ≤ 16) (hn : 0 ≤ n ∧ n ≤ 127) {x : Float} (hwhole : isWhole x = true)
    (hlo : 0.0 ≤ x) (hhi : x ≤ kind.maxValue) :
    ∃ e', ofBytes? (toBytes ⟨kind, some c, some n, x, []⟩) = some e' ∧
      (e' == settled ⟨kind, some c, some n, x, []⟩) = true := by
  obtain ⟨k, hk, rfl⟩ := exists_of_channel hc
  obtain ⟨n, rfl⟩ := Int.eq_ofNat_of_zero_le hn.1
  obtain ⟨v, hx, hv⟩ := has_of_whole hwhole hlo (has_maxValue kind) hhi
  rw [if_neg (by rintro rfl; cases hkind)] at hv
  rw [toBytes_numbered hkind hk (by omega) (by omega) hx,
    ofBytes?_numbered hkind hk (by omega) (by omega)]
  refine ⟨_, rfl, ?_⟩
  have hzero : (x == 0.0) = true ↔ v = 0 := by
    rw [hx.beq_iff has_zero]
    exact Nat.cast_eq_zero
  simp only [settled, hzero]
  split
  · exact beq_withValue (make .noteOff (some (k + 1)) (some n) 0.0) zero_beq
  · rw [make_numbered hkind]
    exact beq_withValue ⟨kind, some (k + 1), some n, x, []⟩
      (((has_natCast (by omega)).beq_iff hx).mpr rfl)

theorem ofBytes?_toBytes_plain {kind : Kind} (hkind : kind.hasChannel = true)
    (hnumber : kind.hasNumber = false) {c : ℤ} (hc : 1 ≤ c ∧ c ≤ 16) {x : Float}
    (hwhole : isWhole x = true) (hlo : 0.0 ≤ x) (hhi : x ≤ kind.maxValue) :
    ∃ e', ofBytes? (toBytes ⟨kind, some c, none, x, []⟩) = some e' ∧
      (e' == settled ⟨kind, some c, none, x, []⟩) = true := by
  obtain ⟨k, hk, rfl⟩ := exists_of_channel hc
  obtain ⟨v, hx, hv⟩ := has_of_whole hwhole hlo (has_maxValue kind) hhi
  have hread : ofBytes? (toBytes ⟨kind, some (k + 1), none, x, []⟩) =
      some (make kind (some (k + 1)) none (Float.ofNat v)) := by
    cases kind <;> cases hkind <;> cases hnumber
    case program | channelPressure =>
      have hsmall : v ≤ 127 := by simpa using hv
      rw [toBytes_single (by simp) hk (by omega) hx, ofBytes?_single (by simp) hk (by omega)]
    case bend =>
      have hwide : v ≤ 16383 := hv
      rw [toBytes_bend hk (by omega) hx, ofBytes?_bend hk (by omega) (by omega), Nat.div_add_mod]
  have hexact : v < 2 ^ 53 := by split at hv <;> omega
  refine ⟨_, hread, ?_⟩
  rw [settled, if_neg (by rintro ⟨rfl, -⟩; cases hnumber), make_plain hkind hnumber]
  exact beq_withValue ⟨kind, some (k + 1), none, x, []⟩ (((has_natCast hexact).beq_iff hx).mpr rfl)

theorem ofBytes?_toBytes {e : Event} (h : Sendable e) :
    ∃ e', ofBytes? e.toBytes = some e' ∧ (e' == e.settled) = true := by
  cases h with
  | numbered hkind hc hn hwhole hlo hhi =>
    exact ofBytes?_toBytes_numbered hkind hc hn hwhole hlo hhi
  | plain hkind hnumber hc hwhole hlo hhi =>
    exact ofBytes?_toBytes_plain hkind hnumber hc hwhole hlo hhi
  | @transport kind hkind x hx =>
    rw [toBytes_transport hkind, ofBytes?_transport hkind]
    refine ⟨_, rfl, ?_⟩
    rw [settled, if_neg (by rintro ⟨rfl, -⟩; cases hkind), transport_eq]
    exact beq_withValue ⟨kind, none, none, x, []⟩ (beq_symm hx)
  | @exclusive payload hpayload x hx =>
    rw [toBytes_exclusive, ofBytes?_exclusive hpayload]
    refine ⟨_, rfl, ?_⟩
    rw [settled, if_neg (by simp)]
    exact beq_withValue ⟨.exclusive, none, none, x, payload⟩ (beq_symm hx)

/-! ## Both ways -/

/-- A message is read as an event that is sent as the same bytes, and an event that fits into a
message is sent as bytes that are read as an equal one. Only a note without velocity comes back as
something else, which is the note-off of its key. -/
theorem bytes_correspond :
    (∀ bytes, Message bytes → ∃ e, ofBytes? bytes = some e ∧ e.toBytes = settledBytes bytes) ∧
      ∀ e, Sendable e → ∃ e', ofBytes? e.toBytes = some e' ∧ (e' == e.settled) = true :=
  ⟨fun _ => toBytes_ofBytes?, fun _ => ofBytes?_toBytes⟩

/-- A silent note on the fourth channel, and the highest bend on the last one. -/
theorem bytes_correspond_bounds :
    (Message [0x93, 0x3C, 0x00] ∧
      ∃ e, ofBytes? [0x93, 0x3C, 0x00] = some e ∧ e.toBytes = [0x83, 0x3C, 0x00]) ∧
    (Sendable ⟨.bend, some 16, none, 16383.0, []⟩ ∧
      ∃ e, ofBytes? (toBytes ⟨.bend, some 16, none, 16383.0, []⟩) = some e ∧
        (e == ⟨.bend, some 16, none, 16383.0, []⟩) = true) := by
  have hnote : Message [0x93, 0x3C, 0x00] := .long (.inl (by decide)) (by decide) (by decide)
  have hbend : Sendable ⟨.bend, some 16, none, 16383.0, []⟩ :=
    .plain rfl rfl (by decide) (by decide +kernel) (by decide +kernel) (by decide +kernel)
  exact ⟨⟨hnote, bytes_correspond.1 _ hnote⟩, hbend, bytes_correspond.2 _ hbend⟩

end MidiRig.Event
