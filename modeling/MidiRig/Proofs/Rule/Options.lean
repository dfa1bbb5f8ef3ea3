import Mathlib.Data.List.Basic
import MidiRig.Proofs.Text.Words
import MidiRig.Rule.Draft

/-!
# Options of rules

Taking in options one by one gives the same draft as filling in the numbers among them beforehand
and taking in the effects (`Draft.foldlM_filter`): numbers and effects do not meet before the rule
is finished. Looking the effects up in their canonical order gives back those that are in that
order (`filterMap_lookup`).
-/

namespace MidiRig

open Text

/-- Keys of options that are numbers. -/
def numberKeys : List String := ["log", "lsb", "inc"]

/-- Keys of options that are effects, in their canonical order. -/
def effectKeys : List String :=
  ["counter", "fluidsetting", "play", "tempo", "record", "swing", "groove", "tap", "arpeggio",
    "loop", "fx"]

/-- Options that both notations know: each key once, effects in order, values without blanks, and
numbers where numbers are expected. -/
structure OptionsWellFormed (options : List (String × String)) : Prop where
  once : (options.map Prod.fst).Nodup
  inOrder : ((options.map Prod.fst).filter (· ∉ numberKeys)).Sublist effectKeys
  unblank : ∀ o ∈ options, Unblank o.2.toList
  numbers : ∀ o ∈ options, o.1 ∈ numberKeys → ∃ x, Decimal.readFloat? o.2.toList = some x ∧
    (o.1 = "lsb" → Binary64.isWhole x = true)

namespace OptionsWellFormed

variable {options : List (String × String)}

theorem mem_keys (h : OptionsWellFormed options) :
    ∀ o ∈ options, o.1 ∈ numberKeys ++ effectKeys := by
  intro o ho
  refine List.mem_append.mpr ?_
  by_cases hnumber : o.1 ∈ numberKeys
  · exact .inl hnumber
  · exact .inr (h.inOrder.subset (List.mem_filter.mpr
      ⟨List.mem_map.mpr ⟨o, ho, rfl⟩, by simpa using hnumber⟩))

theorem unblank_key (h : OptionsWellFormed options) : ∀ o ∈ options, Unblank o.1.toList := by
  have hkeys : ∀ key ∈ numberKeys ++ effectKeys, Unblank key.toList := by decide
  exact fun o ho => hkeys o.1 (h.mem_keys o ho)

theorem not_mem_key (h : OptionsWellFormed options) : ∀ o ∈ options, '=' ∉ o.1.toList := by
  have hkeys : ∀ key ∈ numberKeys ++ effectKeys, '=' ∉ key.toList := by decide
  exact fun o ho => hkeys o.1 (h.mem_keys o ho)

end OptionsWellFormed

/-- The value of an option that is a number. -/
def numberOf (options : List (String × String)) (key : String) : Option Float :=
  (options.lookup key).bind fun value => Decimal.readFloat? value.toList

/-! ## Numbers and effects -/

theorem lookup_eq_none {key : String} {options : List (String × String)}
    (h : key ∉ options.map Prod.fst) : options.lookup key = none := by
  rw [List.lookup_eq_none_iff]
  intro option ho
  exact bne_iff_ne.mpr fun heq => h (List.mem_map.mpr ⟨option, ho, heq.symm⟩)

/-- The effect of an option that is one. -/
def effectOf (option : String × String) : Except Reason Effect :=
  if (Text.trim option.2).isEmpty then .error (.missingValue option.1)
  else Draft.readEffect option.1 (Text.trim option.2)

namespace Draft

/-- With the numbers that are given. -/
def numbered (d : Draft) (options : List (String × String)) : Draft :=
  { d with
    log := numberOf options "log" <|> d.log
    lowByte := (numberOf options "lsb").map Binary64.toInt32 <|> d.lowByte
    increment := numberOf options "inc" <|> d.increment }

/-- With more effects behind those that it has. -/
def withEffects (d : Draft) (effects : List Effect) : Draft :=
  { d with effects := d.effects ++ effects }

theorem setOption_effect (d : Draft) {option : String × String} (h : option.1 ∉ numberKeys) :
    d.setOption option.1 option.2 = (effectOf option).map fun effect => d.withEffects [effect] := by
  obtain ⟨key, value⟩ := option
  simp only [numberKeys, List.mem_cons, List.not_mem_nil, or_false, not_or] at h
  obtain ⟨hlog, hlsb, hinc⟩ := h
  cases hempty : (Text.trim value).isEmpty with
  | true =>
    simp only [setOption, effectOf, hempty]
    rfl
  | false =>
    simp only [setOption, effectOf, hempty]
    cases readEffect key (Text.trim value) <;> rfl

theorem setOption_number (d : Draft) {option : String × String} (h : option.1 ∈ numberKeys)
    (hunblank : Unblank option.2.toList) {x : Float}
    (hx : Decimal.readFloat? option.2.toList = some x)
    (hwhole : option.1 = "lsb" → Binary64.isWhole x = true) :
    d.setOption option.1 option.2 = .ok (d.numbered [option]) := by
  obtain ⟨key, value⟩ := option
  have hempty : (Text.trim value).isEmpty = false := by
    rw [hunblank.trim_eq, Bool.eq_false_iff]
    intro hvalue
    have hnone : Decimal.readFloat? "".toList = none := rfl
    rw [String.isEmpty_iff.mp hvalue, hnone] at hx
    cases hx
  have hread : readNumber key value = .ok x := by
    rw [readNumber, hunblank.trimChars_eq, hx]
  simp only [numberKeys, List.mem_cons, List.not_mem_nil, or_false] at h
  rcases h with rfl | rfl | rfl
  · simp only [setOption, hempty, hread, numbered, numberOf, List.lookup_cons_self,
      Option.bind_some, hx]
    rfl
  · simp only [setOption, hempty, hread, numbered, numberOf, List.lookup_cons_self,
      Option.bind_some, hx]
    show (if Binary64.isWhole x then Except.ok _ else _) = _
    rw [if_pos (hwhole rfl)]
    rfl
  · simp only [setOption, hempty, hread, numbered, numberOf, List.lookup_cons_self,
      Option.bind_some, hx]
    rfl

theorem numberOf_nil (key : String) : numberOf [] key = none := rfl

theorem numberOf_cons_of_ne {option : String × String} {key : String} (h : option.1 ≠ key)
    (options : List (String × String)) :
    numberOf (option :: options) key = numberOf options key := by
  have hne : (key == option.1) = false := beq_false_of_ne (Ne.symm h)
  rw [numberOf, List.lookup_cons, hne]
  rfl

theorem numberOf_of_not_mem {key : String} {options : List (String × String)}
    (h : key ∉ options.map Prod.fst) : numberOf options key = none := by
  rw [numberOf, lookup_eq_none h]
  rfl

/-- An option that is given first counts, and is not given again. -/
theorem numberOf_cons {option : String × String} {options : List (String × String)}
    (h : option.1 ∉ options.map Prod.fst) (key : String) :
    numberOf (option :: options) key = (numberOf options key <|> numberOf [option] key) := by
  by_cases heq : option.1 = key
  · subst heq
    have hlookup : (option :: options).lookup option.1 = [option].lookup option.1 := by
      rw [List.lookup_cons, List.lookup_cons, beq_self_eq_true]
    rw [numberOf_of_not_mem h, numberOf, hlookup]
    rfl
  · rw [numberOf_cons_of_ne heq, numberOf_cons_of_ne heq, numberOf_nil]
    cases numberOf options key <;> rfl

theorem numbered_cons (d : Draft) {option : String × String} {options : List (String × String)}
    (h : option.1 ∉ options.map Prod.fst) :
    (d.numbered [option]).numbered options = d.numbered (option :: options) := by
  simp only [numbered, numberOf_cons h]
  cases numberOf options "log" <;> cases numberOf options "lsb" <;>
    cases numberOf options "inc" <;> rfl

theorem numbered_cons_effect (d : Draft) {option : String × String} (h : option.1 ∉ numberKeys)
    (options : List (String × String)) :
    d.numbered (option :: options) = d.numbered options := by
  simp only [numberKeys, List.mem_cons, List.not_mem_nil, or_false, not_or] at h
  obtain ⟨hlog, hlsb, hinc⟩ := h
  rw [numbered, numberOf_cons_of_ne hlog, numberOf_cons_of_ne hlsb, numberOf_cons_of_ne hinc]
  rfl

/-- The numbers among the options can be taken in first. -/
theorem foldlM_setOption (d : Draft) {options : List (String × String)}
    (honce : (options.map Prod.fst).Nodup) (hunblank : ∀ o ∈ options, Unblank o.2.toList)
    (hnumbers : ∀ o ∈ options, o.1 ∈ numberKeys → ∃ x, Decimal.readFloat? o.2.toList = some x ∧
      (o.1 = "lsb" → Binary64.isWhole x = true)) :
    options.foldlM (fun d o => d.setOption o.1 o.2) d =
      ((options.filter (·.1 ∉ numberKeys)).mapM effectOf).map (d.numbered options).withEffects := by
  induction options generalizing d with
  | nil =>
    show Except.ok d = Except.ok _
    simp [numbered, withEffects, numberOf_nil]
  | cons o options ih =>
    obtain ⟨hnot, honce⟩ := List.nodup_cons.mp honce
    have hrest := fun d => ih d honce (fun p hp => hunblank p (List.mem_cons_of_mem o hp))
      fun p hp => hnumbers p (List.mem_cons_of_mem o hp)
    rw [List.foldlM_cons]
    by_cases hnumber : o.1 ∈ numberKeys
    · obtain ⟨x, hx, hwhole⟩ := hnumbers o List.mem_cons_self hnumber
      rw [setOption_number d hnumber (hunblank o List.mem_cons_self) hx hwhole]
      show (options.foldlM _ (d.numbered [o])) = _
      rw [hrest, numbered_cons d hnot]
      simp [hnumber]
    · have hfilter : (o :: options).filter (·.1 ∉ numberKeys) =
          o :: options.filter (·.1 ∉ numberKeys) := by simp [hnumber]
      rw [setOption_effect d hnumber, numbered_cons_effect d hnumber, hfilter, List.mapM_cons]
      cases effectOf o with
      | error reason => rfl
      | ok effect =>
        show (options.foldlM _ (d.withEffects [effect])) = _
        rw [hrest]
        generalize (options.filter (·.1 ∉ numberKeys)).mapM effectOf = effects
        cases effects with
        | error reason => rfl
        | ok effects =>
          show Except.ok _ = Except.ok _
          simp [withEffects, numbered]

theorem numbered_of_effects (d : Draft) {options : List (String × String)}
    (h : ∀ o ∈ options, o.1 ∉ numberKeys) : d.numbered options = d := by
  have hnone : ∀ key ∈ numberKeys, numberOf options key = none := by
    intro key hkey
    refine numberOf_of_not_mem fun hmem => ?_
    obtain ⟨o, ho, rfl⟩ := List.mem_map.mp hmem
    exact h o ho hkey
  rw [numbered, hnone "log" (by decide), hnone "lsb" (by decide), hnone "inc" (by decide)]
  rfl

/-- So the numbers can be filled in beforehand, and only the effects taken in one by one. -/
theorem foldlM_filter (d : Draft) {options : List (String × String)}
    (h : OptionsWellFormed options) :
    (options.filter (·.1 ∉ numberKeys)).foldlM (fun d o => d.setOption o.1 o.2)
        (d.numbered options) =
      options.foldlM (fun d o => d.setOption o.1 o.2) d := by
  have heffects : ∀ o ∈ options.filter (·.1 ∉ numberKeys), o.1 ∉ numberKeys :=
    fun o ho => by simpa using (List.mem_filter.mp ho).2
  have honce : ((options.filter (·.1 ∉ numberKeys)).map Prod.fst).Nodup :=
    h.once.sublist (List.filter_sublist.map Prod.fst)
  rw [foldlM_setOption d h.once h.unblank h.numbers,
    foldlM_setOption _ honce (fun o ho => h.unblank o (List.mem_filter.mp ho).1)
      (fun o ho hnumber => absurd hnumber (heffects o ho)),
    numbered_of_effects _ heffects, List.filter_filter]
  simp only [Bool.and_self]

end Draft

theorem lookup_filter {options : List (String × String)} {key : String} {p : String → Bool}
    (h : p key = true) : (options.filter (p ·.1)).lookup key = options.lookup key := by
  induction options with
  | nil => rfl
  | cons o options ih =>
    by_cases heq : o.1 = key
    · subst heq
      rw [List.filter_cons, if_pos h, List.lookup_cons, List.lookup_cons, beq_self_eq_true]
    · have hne : (key == o.1) = false := beq_false_of_ne (Ne.symm heq)
      rw [List.filter_cons, List.lookup_cons, hne]
      split
      · rw [List.lookup_cons, hne]
        exact ih
      · exact ih

/-- Looking the keys up in order gives back entries that are in that order. -/
theorem filterMap_lookup {keys : List String} (hkeys : keys.Nodup)
    {options : List (String × String)} (h : (options.map Prod.fst).Sublist keys) :
    (keys.filterMap fun key => (options.lookup key).map fun value => (key, value)) = options := by
  induction keys generalizing options with
  | nil =>
    have hnil : options = [] := by simpa using List.sublist_nil.mp h
    subst hnil
    rfl
  | cons key keys ih =>
    obtain ⟨hkey, hnodup⟩ := List.nodup_cons.mp hkeys
    cases options with
    | nil => simp
    | cons o options =>
      cases h with
      | cons _ h =>
        have hnot : key ∉ (o :: options).map Prod.fst := fun hmem => hkey (h.subset hmem)
        rw [List.filterMap_cons, lookup_eq_none hnot]
        exact ih hnodup h
      | cons_cons _ h =>
        have hrest : ∀ other ∈ keys,
            (((o :: options).lookup other).map fun value => (other, value)) =
              (options.lookup other).map fun value => (other, value) := by
          intro other hother
          have hne : (other == o.1) = false :=
            beq_false_of_ne fun heq => hkey (heq ▸ hother)
          rw [List.lookup_cons, hne]
        rw [List.filterMap_cons, List.filterMap_congr hrest, ih hnodup h, List.lookup_cons,
          beq_self_eq_true]
        rfl

end MidiRig
