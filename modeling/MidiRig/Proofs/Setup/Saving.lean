import MidiRig.Proofs.Document.Kept
import MidiRig.Proofs.Number.Equal
import MidiRig.Setup.Bank
import MidiRig.Setup.ConfigFile

/-!
# What survives saving

A kind of value is lasting if each value of it that was read, and that holds no double that is not
a number, is equal to what is read from whatever is kept of its saved form (`Lasting`). Lists and
dictionaries of lasting values are lasting, and so are structures: a field is found again under its
name, whether it was written or left out, and in whatever order the fields come.
-/

namespace MidiRig

open Binary64

variable {α β : Type}

/-- The value can be stored, and an equal one is read from what is kept of it. -/
structure Survives [BEq α] (k : ℕ) (read : Value → Option α) (write : α → Value) (a : α) :
    Prop where
  storable : Storable k (write a)
  reads : ∀ w, Kept (write a) w → ∃ a', read w = some a' ∧ (a' == a) = true

/-- Whatever is read survives, unless one of its doubles is not a number. -/
def Lasting [BEq α] (k : ℕ) (read : Value → Option α) (write : α → Value)
    (floats : α → List Float) : Prop :=
  ∀ v a, read v = some a → (∀ x ∈ floats a, x.isNaN = false) → Survives k read write a

/-! ## Lists -/

theorem exists_read_of_mapM {read : β → Option α} {xs : List β} {as : List α}
    (h : xs.mapM read = some as) : ∀ a ∈ as, ∃ x ∈ xs, read x = some a := by
  induction xs generalizing as with
  | nil =>
    cases h
    exact List.forall_mem_nil _
  | cons x xs ih =>
    rw [List.mapM_cons] at h
    obtain ⟨b, hb, h⟩ := Option.bind_eq_some_iff.mp h
    obtain ⟨bs, hbs, h⟩ := Option.bind_eq_some_iff.mp h
    cases h
    refine List.forall_mem_cons.mpr ⟨⟨x, List.mem_cons_self, hb⟩, fun a ha => ?_⟩
    obtain ⟨y, hy, hread⟩ := ih hbs a ha
    exact ⟨y, List.mem_cons_of_mem x hy, hread⟩

theorem mapM_keptItems [BEq α] {k : ℕ} {read : Value → Option α} {write : α → Value} {as : List α}
    (h : ∀ a ∈ as, Survives k read write a) {kept : List Value}
    (hkept : KeptItems (as.map write) kept) :
    ∃ as', kept.mapM read = some as' ∧ (as' == as) = true := by
  induction as generalizing kept with
  | nil =>
    cases hkept
    exact ⟨[], rfl, rfl⟩
  | cons a as ih =>
    cases hkept with
    | cons hv hitems =>
      obtain ⟨a', hread, heq⟩ := (h a List.mem_cons_self).reads _ hv
      obtain ⟨as', hread', heq'⟩ := ih (fun b hb => h b (List.mem_cons_of_mem a hb)) hitems
      refine ⟨a' :: as', ?_, ?_⟩
      · rw [List.mapM_cons, hread, hread']
        rfl
      · show (a' == a && as' == as) = true
        rw [heq, heq']
        rfl

theorem survives_list [BEq α] {k : ℕ} {read : Value → Option α} {write : α → Value} {as : List α}
    (h : ∀ a ∈ as, Survives k read write a) :
    Survives (k + 1) (Value.listOf? read) (fun as => .list (as.map write)) as := by
  refine ⟨.list fun w hw => ?_, fun w hw => ?_⟩
  · obtain ⟨a, ha, rfl⟩ := List.mem_map.mp hw
    exact (h a ha).storable
  · cases hw with
    | list hitems => exact mapM_keptItems h hitems

theorem Lasting.list [BEq α] {k : ℕ} {read : Value → Option α} {write : α → Value}
    {floats : α → List Float} (h : Lasting k read write floats) :
    Lasting (k + 1) (Value.listOf? read) (fun as => .list (as.map write))
      fun as => as.flatMap floats := by
  intro v as hread hfloats
  cases v with
  | list items =>
    refine survives_list fun a ha => ?_
    obtain ⟨w, -, hw⟩ := exists_read_of_mapM hread a ha
    exact h w a hw fun x hx => hfloats x (List.mem_flatMap.mpr ⟨a, ha, hx⟩)
  | _ => cases hread

/-! ## Dictionaries -/

theorem Dict.mem_foldl {es : List (String × α)} {d : Dict α} {entry : String × α}
    (h : entry ∈ (es.foldl (fun d e => d.insert e.1 e.2) d).entries) :
    entry ∈ d.entries ∨ entry ∈ es := by
  induction es generalizing d with
  | nil => exact .inl h
  | cons e es ih =>
    rcases ih h with h | h
    · exact (mem_insertEntry h).elim (fun heq => .inr (heq ▸ List.mem_cons_self)) .inl
    · exact .inr (List.mem_cons_of_mem e h)

theorem perm_insertEntry {name : String} (value : α) {entries : List (String × α)}
    (h : name ∉ entries.map (·.1)) :
    (insertEntry name value entries).Perm ((name, value) :: entries) := by
  induction entries with
  | nil => exact .refl _
  | cons first rest ih =>
    obtain ⟨hfirst, hrest⟩ := List.ne_and_not_mem_of_not_mem_cons h
    rw [insertEntry]
    split
    · exact .refl _
    · next hlt =>
      have habove : first.1 < name := by
        by_contra hnot
        exact hfirst (String.le_antisymm (String.not_lt.1 hnot) (String.not_lt.1 hlt))
      rw [if_pos habove]
      exact ((ih hrest).cons first).trans (.swap _ _ _)

theorem Dict.perm_foldl {es : List (String × α)} {d : Dict α}
    (h : (es.map (·.1) ++ d.entries.map (·.1)).Nodup) :
    (es.foldl (fun d e => d.insert e.1 e.2) d).entries.Perm (es ++ d.entries) := by
  induction es generalizing d with
  | nil => exact .refl _
  | cons e es ih =>
    have hnew : e.1 ∉ d.entries.map (·.1) := fun hmem =>
      List.disjoint_of_nodup_append h List.mem_cons_self hmem
    have hinsert : (d.insert e.1 e.2).entries.Perm (e :: d.entries) :=
      perm_insertEntry e.2 hnew
    have hkeys : (es.map (·.1) ++ (d.insert e.1 e.2).entries.map (·.1)).Perm
        ((e :: es).map (·.1) ++ d.entries.map (·.1)) :=
      ((hinsert.map _).append_left _).trans List.perm_middle
    exact (ih (hkeys.nodup_iff.mpr h)).trans ((hinsert.append_left es).trans List.perm_middle)

theorem nodup_of_inOrder {es : List (String × α)} (h : InOrder es) : (es.map (·.1)).Nodup :=
  List.pairwise_map.mpr (h.imp fun {a b} hlt (heq : a.1 = b.1) => String.lt_irrefl b.1 (heq ▸ hlt))

/-- A dictionary does not depend on the order in which it is filled. -/
theorem Dict.entries_ofList {es fs : List (String × α)} (h : InOrder es) (hperm : es.Perm fs) :
    (Dict.ofList fs).entries = es := by
  have hkeys : (fs.map (·.1) ++ (empty : Dict α).entries.map (·.1)).Nodup := by
    show (fs.map Prod.fst ++ []).Nodup
    rw [List.append_nil]
    exact (hperm.map _).nodup_iff.mp (nodup_of_inOrder h)
  have hall : (Dict.ofList fs).entries.Perm (fs ++ []) := Dict.perm_foldl hkeys
  rw [List.append_nil] at hall
  refine (hall.trans hperm.symm).eq_of_pairwise ?_ (Dict.ofList fs).inOrder h
  exact fun a b _ _ hab hba => absurd hba (String.lt_asymm hab)

theorem exists_mapM_of_perm {read : β → Option α} {xs ys : List β} (h : xs.Perm ys)
    {as : List α} (hread : xs.mapM read = some as) :
    ∃ bs, ys.mapM read = some bs ∧ as.Perm bs := by
  induction h generalizing as with
  | nil => exact ⟨as, hread, .refl _⟩
  | cons x _ ih =>
    rw [List.mapM_cons] at hread
    obtain ⟨a, ha, hread⟩ := Option.bind_eq_some_iff.mp hread
    obtain ⟨rest, hrest, hread⟩ := Option.bind_eq_some_iff.mp hread
    cases hread
    obtain ⟨bs, hbs, hperm⟩ := ih hrest
    refine ⟨a :: bs, ?_, hperm.cons a⟩
    rw [List.mapM_cons, ha, hbs]
    rfl
  | swap x y xs =>
    simp only [List.mapM_cons] at hread ⊢
    obtain ⟨b, hb, hread⟩ := Option.bind_eq_some_iff.mp hread
    obtain ⟨more, hmore, hread⟩ := Option.bind_eq_some_iff.mp hread
    obtain ⟨a, ha, hmore⟩ := Option.bind_eq_some_iff.mp hmore
    obtain ⟨rest, hrest, hmore⟩ := Option.bind_eq_some_iff.mp hmore
    cases hmore
    cases hread
    refine ⟨a :: b :: rest, ?_, .swap _ _ _⟩
    rw [ha, hb, hrest]
    rfl
  | trans _ _ ih ih' =>
    obtain ⟨bs, hbs, hperm⟩ := ih hread
    obtain ⟨cs, hcs, hperm'⟩ := ih' hbs
    exact ⟨cs, hcs, hperm.trans hperm'⟩

theorem tableOf?_keptEntries [BEq α] {k : ℕ} {read : Value → Option α} {write : α → Value}
    {es : List (String × α)} (h : ∀ e ∈ es, Survives k read write e.2)
    {kept : List (String × Value)}
    (hkept : KeptEntries (es.map fun e => (e.1, write e.2)) kept) :
    ∃ es', (Value.table kept).tableOf? read = some es' ∧
      es'.map (·.1) = es.map (·.1) ∧ (es' == es) = true := by
  unfold Value.tableOf?
  dsimp only
  induction es generalizing kept with
  | nil =>
    cases hkept
    exact ⟨[], rfl, rfl, rfl⟩
  | cons e es ih =>
    have hv := h e List.mem_cons_self
    rw [List.map_cons] at hkept
    generalize hwrite : write e.2 = v at hkept
    cases hkept with
    | absent _ => exact absurd hwrite hv.storable.ne_null
    | cons hkept hentries =>
      obtain ⟨a', hread, heq⟩ := hv.reads _ (hwrite ▸ hkept)
      obtain ⟨es', hread', hkeys, heq'⟩ :=
        ih (fun f hf => h f (List.mem_cons_of_mem e hf)) hentries
      refine ⟨(e.1, a') :: es', ?_, ?_, ?_⟩
      · rw [List.mapM_cons, hread']
        dsimp only
        rw [hread]
        rfl
      · rw [List.map_cons, List.map_cons, hkeys]
      · show ((e.1 == e.1 && a' == e.2) && es' == es) = true
        rw [heq, heq', beq_self_eq_true]
        rfl

theorem exists_read_of_tableOf? {read : Value → Option α} {v : Value} {es : List (String × α)}
    (h : v.tableOf? read = some es) : ∀ e ∈ es, ∃ w, read w = some e.2 := by
  cases v with
  | table entries =>
    intro e he
    obtain ⟨⟨key, w⟩, -, hw⟩ := exists_read_of_mapM h e he
    obtain ⟨a, ha, rfl⟩ := Option.map_eq_some_iff.mp hw
    exact ⟨w, ha⟩
  | _ => cases h

/-- The doubles of a dictionary. -/
def Dict.floats (floats : α → List Float) (d : Dict α) : List Float :=
  d.entries.flatMap fun entry => floats entry.2

theorem Lasting.dict [BEq α] {k : ℕ} {read : Value → Option α} {write : α → Value}
    {floats : α → List Float} (h : Lasting k read write floats) :
    Lasting (k + 1) (Dict.ofValue? read) (Dict.toValue write) (Dict.floats floats) := by
  intro v d hread hfloats
  have hentries : ∀ e ∈ d.entries, Survives k read write e.2 := by
    intro e he
    obtain ⟨es, hes, rfl⟩ := Option.map_eq_some_iff.mp hread
    have hmem := (Dict.mem_foldl he).resolve_left List.not_mem_nil
    obtain ⟨w, hw⟩ := exists_read_of_tableOf? hes e hmem
    exact h w e.2 hw fun x hx => hfloats x (List.mem_flatMap.mpr ⟨e, he, hx⟩)
  refine ⟨.table (fun entry hentry _ => ?_) ?_, fun w hw => ?_⟩
  · obtain ⟨e, he, rfl⟩ := List.mem_map.mp hentry
    exact (hentries e he).storable
  · rw [List.map_map]
    exact nodup_of_inOrder d.inOrder
  · cases hw with
    | table hkept hperm =>
      obtain ⟨es', hread', hkeys, heq⟩ := tableOf?_keptEntries hentries hkept
      obtain ⟨fs, hfs, hsame⟩ := exists_mapM_of_perm hperm hread'
      have horder : InOrder es' := by
        have hnames : (d.entries.map (·.1)).Pairwise (· < ·) := List.pairwise_map.mpr d.inOrder
        exact List.pairwise_map.mp (hkeys ▸ hnames)
      refine ⟨Dict.ofList fs, congrArg (Option.map Dict.ofList) hfs, ?_⟩
      show ((Dict.ofList fs).entries == d.entries) = true
      rw [Dict.entries_ofList horder hsame, heq]

/-! ## Structures -/

theorem maybe?_eq {v : Value} (h : v ≠ .null) (read : Value → Option α) :
    v.maybe? read = (read v).map some := by
  cases v with
  | null => exact absurd rfl h
  | _ => rfl

section

variable [BEq α] {entries fields : List (String × Value)}
  (hkept : Kept (.table entries) (.table fields)) (hkeys : (entries.map (·.1)).Nodup) {k : ℕ}
  {read : Value → Option α} {write : α → Value} {a : α}

include hkept hkeys

theorem Survives.lookup (h : Survives k read write a) {name : String}
    (hlookup : entries.lookup name = some (write a)) :
    ∃ w a', fields.lookup name = some w ∧ w ≠ .null ∧ read w = some a' ∧ (a' == a) = true := by
  obtain ⟨w, hw, hkept'⟩ := hkept.lookup_eq hkeys hlookup h.storable.ne_null
  obtain ⟨a', hread, heq⟩ := h.reads w hkept'
  exact ⟨w, a', hw, hkept'.ne_null.2, hread, heq⟩

theorem Survives.field? (h : Survives k read write a) (name : String)
    (hlookup : entries.lookup name = some (write a)) (absent : α) :
    ∃ a', Value.field? fields name read absent = some a' ∧ (a' == a) = true := by
  obtain ⟨w, a', hw, -, hread, heq⟩ := h.lookup hkept hkeys hlookup
  refine ⟨a', ?_, heq⟩
  rw [Value.field?, hw]
  exact hread

theorem Survives.required? (h : Survives k read write a) (name : String)
    (hlookup : entries.lookup name = some (write a)) :
    ∃ a', Value.required? fields name read = some a' ∧ (a' == a) = true := by
  obtain ⟨w, a', hw, -, hread, heq⟩ := h.lookup hkept hkeys hlookup
  refine ⟨a', ?_, heq⟩
  rw [Value.required?, hw]
  exact hread

theorem survives_optional? {o : Option α} (h : ∀ a ∈ o, Survives k read write a)
    (name : String) (hlookup : entries.lookup name = some (Value.ofOption write o)) :
    ∃ o', Value.optional? fields name read = some o' ∧ (o' == o) = true := by
  cases o with
  | none =>
    refine ⟨none, ?_, rfl⟩
    rw [Value.optional?, Value.field?, hkept.lookup_null hkeys hlookup]
  | some a =>
    obtain ⟨w, a', hw, hne, hread, heq⟩ := (h a rfl).lookup hkept hkeys hlookup
    refine ⟨some a', ?_, heq⟩
    rw [Value.optional?, Value.field?, hw]
    show w.maybe? read = some (some a')
    rw [maybe?_eq hne, hread]
    rfl

end

theorem storable_ofOption [BEq α] {k : ℕ} {read : Value → Option α} {write : α → Value}
    {o : Option α} (h : ∀ a ∈ o, Survives k read write a)
    (hvalue : Value.ofOption write o ≠ .null) : Storable k (Value.ofOption write o) := by
  cases o with
  | none => exact absurd rfl hvalue
  | some a => exact (h a rfl).storable

/-- A structure survives if it is read from its fields in whatever order they come. -/
theorem survives_table [BEq α] {k : ℕ} {read : Value → Option α} {write : α → Value} {a : α}
    {entries : List (String × Value)} (hwrite : write a = .table entries)
    (hkeys : (entries.map (·.1)).Nodup)
    (hentries : ∀ entry ∈ entries, entry.2 ≠ .null → Storable k entry.2)
    (hreads : ∀ fields, Kept (.table entries) (.table fields) →
      ∃ a', read (.table fields) = some a' ∧ (a' == a) = true) :
    Survives (k + 1) read write a := by
  refine ⟨hwrite ▸ .table hentries hkeys, fun w hw => ?_⟩
  rw [hwrite] at hw
  cases w with
  | table fields => exact hreads fields hw
  | _ => cases hw

/-! ## Where fields come from -/

section

variable {fields : List (String × Value)} {name : String} {read : Value → Option α}

/-- The value of a field was read, if the one that stands for a missing field could be. -/
theorem exists_read_of_field? {a absent : α} (h : Value.field? fields name read absent = some a)
    (habsent : ∃ w, read w = some absent) : ∃ w, read w = some a := by
  unfold Value.field? at h
  split at h
  · next v _ => exact ⟨v, h⟩
  · cases h
    exact habsent

theorem exists_read_of_required? {a : α} (h : Value.required? fields name read = some a) :
    ∃ w, read w = some a := by
  obtain ⟨w, -, hw⟩ := Option.bind_eq_some_iff.mp h
  exact ⟨w, hw⟩

theorem exists_read_of_optional? {o : Option α}
    (h : Value.optional? fields name read = some o) : ∀ a ∈ o, ∃ w, read w = some a := by
  intro a ha
  obtain ⟨w, hw⟩ := exists_read_of_field? h ⟨.null, rfl⟩
  rw [Option.mem_def.mp ha] at hw
  by_cases hnull : w = .null
  · subst hnull
    cases hw
  · rw [maybe?_eq hnull] at hw
    obtain ⟨b, hb, heq⟩ := Option.map_eq_some_iff.mp hw
    exact ⟨w, hb.trans heq⟩

variable [BEq α] {k : ℕ} {write : α → Value} {floats : α → List Float}

theorem Lasting.field? (hlasting : Lasting k read write floats) {a absent : α}
    (h : Value.field? fields name read absent = some a) (habsent : ∃ w, read w = some absent)
    (hfloats : ∀ x ∈ floats a, x.isNaN = false) : Survives k read write a := by
  obtain ⟨w, hw⟩ := exists_read_of_field? h habsent
  exact hlasting w a hw hfloats

theorem Lasting.optional? (hlasting : Lasting k read write floats) {o : Option α}
    (h : Value.optional? fields name read = some o)
    (hfloats : ∀ a ∈ o, ∀ x ∈ floats a, x.isNaN = false) : ∀ a ∈ o, Survives k read write a := by
  intro a ha
  obtain ⟨w, hw⟩ := exists_read_of_optional? h a ha
  exact hlasting w a hw (hfloats a ha)

end

/-! ## Scalars -/

theorem survives_text (k : ℕ) (s : String) : Survives k Value.text? .text s := by
  refine ⟨.text k s, fun w hw => ?_⟩
  cases hw
  exact ⟨s, rfl, beq_self_eq_true s⟩

theorem survives_float {x : Float} (k : ℕ) (hx : x.isNaN = false) :
    Survives k Value.float? .float x := by
  refine ⟨.float k hx, fun w hw => ?_⟩
  cases hw
  exact ⟨x, rfl, beq_self_iff.mpr hx⟩

theorem lasting_text (k : ℕ) : Lasting k Value.text? .text fun _ => [] :=
  fun _ s _ _ => survives_text k s

theorem bounds_of_intWithin? {lo hi n : ℤ} {v : Value} (h : v.intWithin? lo hi = some n) :
    lo ≤ n ∧ n ≤ hi := by
  cases v with
  | int m =>
    rw [Value.intWithin?] at h
    split at h
    · next hbounds =>
      cases h
      exact hbounds
    · cases h
  | _ => cases h

theorem intWithin?_int {lo hi n : ℤ} (hlo : lo ≤ n) (hhi : n ≤ hi) :
    (Value.int n).intWithin? lo hi = some n := if_pos ⟨hlo, hhi⟩

theorem lasting_int32 (k : ℕ) : Lasting k Value.int32? .int fun _ => [] := by
  intro v n hread _
  obtain ⟨hlo, hhi⟩ := bounds_of_intWithin? hread
  refine ⟨.int k (le_trans (by decide) hlo) (hhi.trans (by decide)), fun w hw => ?_⟩
  cases hw
  exact ⟨n, intWithin?_int hlo hhi, beq_self_eq_true n⟩

theorem map_intWithin?_ofNat {n hi : ℕ} (hn : n ≤ hi) :
    ((Value.ofNat n).intWithin? 0 hi).map Int.toNat = some n := by
  rw [Value.ofNat, intWithin?_int (Int.natCast_nonneg n) (by exact_mod_cast hn), Option.map_some,
    Int.toNat_natCast]

theorem storable_ofNat {n : ℕ} (k : ℕ) (hn : (n : ℤ) ≤ maxInt64) : Storable k (.ofNat n) :=
  .int k (le_trans (by decide) (Int.natCast_nonneg n)) hn

theorem le_of_word32? {v : Value} {n : ℕ} (h : v.word32? = some n) : n ≤ maxWord32 := by
  obtain ⟨m, hm, rfl⟩ := Option.map_eq_some_iff.mp h
  obtain ⟨hlo, hhi⟩ := bounds_of_intWithin? hm
  omega

theorem lasting_word32 (k : ℕ) : Lasting k Value.word32? Value.ofNat fun _ => [] := by
  intro v n hread _
  have hn := le_of_word32? hread
  have hlarge : (maxWord32 : ℤ) ≤ maxInt64 := by decide
  refine ⟨storable_ofNat k (le_trans (by exact_mod_cast hn) hlarge), fun w hw => ?_⟩
  cases hw
  exact ⟨n, map_intWithin?_ofNat hn, beq_self_eq_true n⟩

end MidiRig
