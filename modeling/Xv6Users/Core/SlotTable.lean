import Mathlib

/-!
# Tables of slots as finite maps

A table is a list of slots, each empty or with a key and a value.  A lookup
returns the value of the first slot with the key.  A new key goes into an empty
slot or to the end, and a slot is emptied in place; while no key is in two slots,
these operations are those of a finite map.
-/

namespace Xv6Users.SlotTable

open List

variable {Key Value : Type*} [DecidableEq Key] {key : Key} {index : ℕ}

def lookup : List (Option (Key × Value)) → Key → Option Value
  | [], _ => none
  | none :: rest, key => lookup rest key
  | some (other, value) :: rest, key =>
    if other = key then some value else lookup rest key

def Distinct (slots : List (Option (Key × Value))) : Prop :=
  slots.Pairwise fun left right => ∀ key value other,
    left = some (key, value) → right ≠ some (key, other)

theorem lookup_eq_none {slots : List (Option (Key × Value))} :
    lookup slots key = none ↔ ∀ value, some (key, value) ∉ slots := by
  induction slots with
  | nil => simp [lookup]
  | cons slot rest ih =>
    cases slot with
    | none => simp [lookup, ih]
    | some pair =>
      obtain ⟨other, value⟩ := pair
      rw [lookup]
      split_ifs with hkey
      · subst hkey
        refine iff_of_false (by simp) fun hnone => ?_
        exact hnone value (.head _)
      · rw [ih]
        simp [Ne.symm hkey]

/-- A key goes to the end. -/
theorem lookup_append (slots : List (Option (Key × Value))) (key : Key) (value : Value)
    (habsent : lookup slots key = none) (other : Key) :
    lookup (slots ++ [some (key, value)]) other =
      if key = other then some value else lookup slots other := by
  induction slots with
  | nil => simp [lookup]
  | cons slot rest ih =>
    cases slot with
    | none => exact ih habsent
    | some pair =>
      rw [lookup] at habsent
      split_ifs at habsent with hfirst
      rw [cons_append, lookup, lookup, ih habsent]
      split_ifs with hother hkey hkey
      · exact absurd (hother.trans hkey.symm) hfirst
      · rfl
      · rfl
      · rfl

/-- An empty slot at the end changes nothing. -/
theorem lookup_append_none (slots : List (Option (Key × Value))) (key : Key) :
    lookup (slots ++ [none]) key = lookup slots key := by
  induction slots with
  | nil => rfl
  | cons slot rest ih =>
    cases slot with
    | none => exact ih
    | some pair => rw [cons_append, lookup, lookup, ih]

/-- A key goes into an empty slot. -/
theorem lookup_set (slots : List (Option (Key × Value))) (key : Key) (value : Value)
    (habsent : lookup slots key = none) (hempty : slots[index]? = some none) (other : Key) :
    lookup (slots.set index (some (key, value))) other =
      if key = other then some value else lookup slots other := by
  induction slots generalizing index with
  | nil => cases hempty
  | cons slot rest ih =>
    cases index with
    | zero =>
      rw [getElem?_cons_zero, Option.some_inj] at hempty
      subst hempty
      rw [set_cons_zero, lookup, lookup]
    | succ index =>
      rw [set_cons_succ]
      cases slot with
      | none => exact ih habsent hempty
      | some pair =>
        rw [lookup] at habsent
        split_ifs at habsent with hfirst
        rw [lookup, lookup, ih habsent hempty]
        split_ifs with hother hkey hkey
        · exact absurd (hother.trans hkey.symm) hfirst
        · rfl
        · rfl
        · rfl

/-- The slot of a key is emptied. -/
theorem lookup_clear {slots : List (Option (Key × Value))} (hdistinct : Distinct slots)
    {value : Value} (hslot : slots[index]? = some (some (key, value))) (other : Key) :
    lookup (slots.set index none) other =
      if key = other then none else lookup slots other := by
  induction slots generalizing index with
  | nil => cases hslot
  | cons slot rest ih =>
    rw [Distinct, pairwise_cons] at hdistinct
    cases index with
    | zero =>
      rw [getElem?_cons_zero, Option.some_inj] at hslot
      subst hslot
      rw [set_cons_zero, lookup, lookup]
      split_ifs with hkey
      · subst hkey
        rw [lookup_eq_none]
        intro found hmem
        exact hdistinct.1 _ hmem key value found rfl rfl
      · rfl
    | succ index =>
      have hrest := ih hdistinct.2 hslot
      rw [set_cons_succ]
      cases slot with
      | none => exact hrest
      | some pair =>
        obtain ⟨first, found⟩ := pair
        rw [lookup, lookup, hrest]
        split_ifs with hother hkey hkey
        · -- The key would be in two slots.
          subst hother hkey
          exact absurd rfl (hdistinct.1 _ (mem_of_getElem? hslot) _ found value rfl)
        · rfl
        · rfl
        · rfl

theorem Distinct.append {slots : List (Option (Key × Value))} (hdistinct : Distinct slots)
    (habsent : lookup slots key = none) (value : Value) :
    Distinct (slots ++ [some (key, value)]) := by
  rw [Distinct, pairwise_append]
  refine ⟨hdistinct, pairwise_singleton _ _, ?_⟩
  rintro left hleft right hright other found last rfl hsame
  rw [mem_singleton] at hright
  subst hright
  cases hsame
  exact lookup_eq_none.1 habsent found hleft

omit [DecidableEq Key] in
theorem Distinct.append_none {slots : List (Option (Key × Value))}
    (hdistinct : Distinct slots) : Distinct (slots ++ [none]) := by
  rw [Distinct, pairwise_append]
  refine ⟨hdistinct, pairwise_singleton _ _, ?_⟩
  intro left _ right hright key value other _ hsome
  rw [mem_singleton] at hright
  subst hright
  cases hsome

theorem Distinct.set {slots : List (Option (Key × Value))} (hdistinct : Distinct slots)
    (habsent : lookup slots key = none) (value : Value) (index : ℕ) :
    Distinct (slots.set index (some (key, value))) := by
  induction slots generalizing index with
  | nil => exact hdistinct
  | cons slot rest ih =>
    have hnone := lookup_eq_none.1 habsent
    have habsent' : lookup rest key = none :=
      lookup_eq_none.2 fun found hmem => hnone found (.tail _ hmem)
    rw [Distinct, pairwise_cons] at hdistinct
    cases index with
    | zero =>
      rw [set_cons_zero, Distinct, pairwise_cons]
      refine ⟨?_, hdistinct.2⟩
      rintro right hright other found last hleft rfl
      cases hleft
      exact lookup_eq_none.1 habsent' last hright
    | succ index =>
      rw [set_cons_succ, Distinct, pairwise_cons]
      refine ⟨?_, ih hdistinct.2 habsent' index⟩
      rintro right hright other found last rfl hsame
      subst hsame
      cases mem_or_eq_of_mem_set hright with
      | inl hmem => exact hdistinct.1 _ hmem other found last rfl rfl
      | inr heq =>
        cases heq
        exact hnone found (.head _)

omit [DecidableEq Key] in
theorem Distinct.clear {slots : List (Option (Key × Value))} (hdistinct : Distinct slots)
    (index : ℕ) : Distinct (slots.set index none) := by
  induction slots generalizing index with
  | nil => exact hdistinct
  | cons slot rest ih =>
    rw [Distinct, pairwise_cons] at hdistinct
    cases index with
    | zero =>
      rw [set_cons_zero, Distinct, pairwise_cons]
      refine ⟨?_, hdistinct.2⟩
      rintro right - key value other hleft
      cases hleft
    | succ index =>
      rw [set_cons_succ, Distinct, pairwise_cons]
      refine ⟨?_, ih hdistinct.2 index⟩
      rintro right hright key value other rfl hsame
      subst hsame
      cases mem_or_eq_of_mem_set hright with
      | inl hmem => exact hdistinct.1 _ hmem key value other rfl rfl
      | inr heq => cases heq

end Xv6Users.SlotTable
