import Mathlib

/-!
# Insertion into a sorted list

The insertion routine of a singly linked list kept in key order: it walks past
every element that does not compare greater than the new one.  Equal keys keep
their order of insertion, so inserting the elements of a sorted list one by one
rebuilds that list.
-/

namespace Xv6Users.SortedInsert

open List

variable {α : Type*}

def insertSorted (compare : α → α → ℤ) : List α → α → List α
  | [], value => [value]
  | head :: rest, value =>
    if 0 < compare head value then value :: head :: rest
    else head :: insertSorted compare rest value

def insertAll (compare : α → α → ℤ) (values : List α) : List α :=
  values.foldl (insertSorted compare) []

variable {compare : α → α → ℤ}

theorem perm_insertSorted (list : List α) (value : α) :
    (insertSorted compare list value).Perm (value :: list) := by
  induction list with
  | nil => rfl
  | cons head rest ih =>
    rw [insertSorted]
    split
    · rfl
    · exact (ih.cons head).trans (List.Perm.swap value head rest)

theorem perm_insertAll (values : List α) : (insertAll compare values).Perm values := by
  have hstep : ∀ values list : List α,
      (values.foldl (insertSorted compare) list).Perm (list ++ values) := by
    intro values
    induction values with
    | nil => simp
    | cons value rest ih =>
      intro list
      refine (ih _).trans ?_
      refine ((perm_insertSorted list value).append_right rest).trans ?_
      exact perm_middle.symm
  simpa [insertAll] using hstep values []

/-- A filter that drops the new element keeps what it kept before. -/
theorem filter_insertSorted_of_neg {test : α → Bool} (list : List α) {value : α}
    (hvalue : test value = false) :
    (insertSorted compare list value).filter test = list.filter test := by
  induction list with
  | nil => simp [insertSorted, hvalue]
  | cons head rest ih =>
    unfold insertSorted
    split
    · simp [hvalue]
    · simp only [filter_cons, ih]

/-- A search that the new element fails finds what it found before. -/
theorem find?_insertSorted {test : α → Bool} (list : List α) {value : α}
    (hvalue : test value = false) :
    (insertSorted compare list value).find? test = list.find? test := by
  rw [← head?_filter, filter_insertSorted_of_neg list hvalue, head?_filter]

/-- A list with one more item, whose key is new. -/
theorem nodup_map_of_perm_cons {β : Type*} {f : α → β} {list others : List α} {value : α}
    (hperm : list.Perm (value :: others)) (hnew : ∀ other ∈ others, f other ≠ f value)
    (hothers : (others.map f).Nodup) : (list.map f).Nodup := by
  rw [(hperm.map f).nodup_iff, map_cons, nodup_cons]
  refine ⟨fun hmem => ?_, hothers⟩
  obtain ⟨other, hother, hsame⟩ := mem_map.1 hmem
  exact hnew other hother hsame

/-- A change of the new element alone, which keeps its place. -/
theorem map_insertSorted {f : α → α} {list : List α} {value : α}
    (hfix : ∀ other ∈ list, f other = other)
    (hcompare : ∀ other ∈ list, compare other (f value) = compare other value) :
    (insertSorted compare list value).map f = insertSorted compare list (f value) := by
  induction list with
  | nil => rfl
  | cons head rest ih =>
    have hrest := ih (fun other hother => hfix other (.tail head hother))
      fun other hother => hcompare other (.tail head hother)
    unfold insertSorted
    rw [hcompare head (by simp)]
    split
    · rw [map_cons, map_congr_left hfix, map_id']
    · rw [map_cons, hfix head (by simp), hrest]

/-- Insertion looks at nothing but the comparison. -/
theorem insertAll_map {β : Type*} {compare' : β → β → ℤ} {f : α → β}
    (hcompare : ∀ left right, compare' (f left) (f right) = compare left right) (values : List α) :
    insertAll compare' (values.map f) = (insertAll compare values).map f := by
  have hinsert : ∀ (list : List α) (value : α), insertSorted compare' (list.map f) (f value) =
        (insertSorted compare list value).map f := by
    intro list value
    induction list with
    | nil => rfl
    | cons head rest ih =>
      simp only [map_cons, insertSorted, hcompare, ih]
      split <;> rfl
  have hstep : ∀ values list : List α, (values.map f).foldl (insertSorted compare') (list.map f) =
        (values.foldl (insertSorted compare) list).map f := by
    intro values
    induction values with
    | nil => exact fun _ => rfl
    | cons value rest ih =>
      intro list
      rw [map_cons, foldl_cons, hinsert, ih, foldl_cons]
  exact hstep values []

section Key

variable {K : Type*} [LinearOrder K] {key : α → K}

def SortedBy (key : α → K) (list : List α) : Prop :=
  list.Pairwise fun left right => key left ≤ key right

theorem SortedBy.tail {head : α} {rest : List α}
    (hsorted : SortedBy key (head :: rest)) : SortedBy key rest := (pairwise_cons.1 hsorted).2

/-- The first item that passes a test has the least key of those that pass. -/
theorem find?_least {test : α → Bool} {list : List α} (hsorted : SortedBy key list)
    {value other : α} (hfind : list.find? test = some value) (hother : other ∈ list)
    (htest : test other = true) : key value ≤ key other := by
  obtain ⟨-, before, rest, rfl, hbefore⟩ := find?_eq_some_iff_append.1 hfind
  rcases mem_append.1 hother with hmem | hmem
  · exact absurd htest (by simpa using hbefore other hmem)
  · rcases mem_cons.1 hmem with rfl | hmem
    · exact le_rfl
    · exact (pairwise_cons.1 (pairwise_append.1 hsorted).2.1).1 other hmem

section

variable (hcompare : ∀ left right, 0 < compare left right ↔ key right < key left)

include hcompare

theorem insertSorted_sorted {list : List α} (hsorted : SortedBy key list) (value : α) :
    SortedBy key (insertSorted compare list value) := by
  induction list with
  | nil => simp [insertSorted, SortedBy]
  | cons head rest ih =>
    have hrest := pairwise_cons.1 hsorted
    rw [insertSorted]
    split
    case isTrue hbefore =>
      have hlt := (hcompare head value).1 hbefore
      refine pairwise_cons.2 ⟨?_, hsorted⟩
      intro other hother
      rcases mem_cons.1 hother with rfl | hother
      · exact hlt.le
      · exact hlt.le.trans (hrest.1 other hother)
    case isFalse hafter =>
      have hle : key head ≤ key value := not_lt.1 fun hlt => hafter ((hcompare head value).2 hlt)
      refine pairwise_cons.2 ⟨?_, ih hrest.2⟩
      intro other hother
      rcases mem_cons.1 ((perm_insertSorted rest value).mem_iff.1 hother)
        with rfl | hother
      · exact hle
      · exact hrest.1 other hother

theorem insertAll_sorted (values : List α) : SortedBy key (insertAll compare values) := by
  have hstep : ∀ values list : List α, SortedBy key list →
      SortedBy key (values.foldl (insertSorted compare) list) := by
    intro values
    induction values with
    | nil => exact fun list hlist => hlist
    | cons value rest ih => exact fun list hlist => ih _ (insertSorted_sorted hcompare hlist value)
  exact hstep values [] List.Pairwise.nil

/-- An element whose key is largest goes to the end. -/
theorem insertSorted_last
    {list : List α} {value : α} (hlast : ∀ other ∈ list, key other ≤ key value) :
    insertSorted compare list value = list ++ [value] := by
  induction list with
  | nil => rfl
  | cons head rest ih =>
    have hhead : ¬ 0 < compare head value := fun hlt =>
      absurd ((hcompare head value).1 hlt) (not_lt.2 (hlast head (by simp)))
    rw [insertSorted, if_neg hhead,
      ih fun other hother => hlast other (.tail head hother)]
    rfl

/-- Inserting a sorted list element by element gives it back. -/
theorem insertAll_of_sorted
    {values : List α} (hsorted : SortedBy key values) : insertAll compare values = values := by
  have hstep : ∀ values list : List α, SortedBy key (list ++ values) →
      values.foldl (insertSorted compare) list = list ++ values := by
    intro values
    induction values with
    | nil => simp
    | cons value rest ih =>
      intro list hsorted
      have hlast : ∀ other ∈ list, key other ≤ key value := fun other hother =>
        (pairwise_append.1 hsorted).2.2 other hother value (by simp)
      rw [foldl_cons, insertSorted_last hcompare hlast, ih _ (by simpa using hsorted)]
      simp
  simpa [insertAll] using hstep values [] (by simpa using hsorted)

end

/-- The same elements in key order, where elements with equal keys keep the
order they had. -/
structure StableSort (key : α → K) (values result : List α) : Prop where
  perm : result.Perm values
  sorted : SortedBy key result
  stable : ∀ k, result.filter (key · = k) = values.filter (key · = k)

section

variable (hcompare : ∀ left right, 0 < compare left right ↔ key right < key left)

include hcompare

theorem filter_insertSorted {list : List α} (hsorted : SortedBy key list) (value : α) (k : K) :
    (insertSorted compare list value).filter (key · = k) =
      list.filter (key · = k) ++ [value].filter (key · = k) := by
  induction list with
  | nil => rfl
  | cons head rest ih =>
    obtain ⟨hhead, hrest⟩ := pairwise_cons.1 hsorted
    rw [insertSorted]
    split
    case isTrue hbefore =>
      have hlt := (hcompare head value).1 hbefore
      by_cases hvalue : key value = k
      · -- Every later element has a larger key.
        have hnone : (head :: rest).filter (key · = k) = [] := by
          apply filter_eq_nil_iff.2
          intro other hother
          have hle : key head ≤ key other := by
            rcases mem_cons.1 hother with rfl | hother
            · exact le_rfl
            · exact hhead other hother
          simpa using (hvalue ▸ hlt.trans_le hle : k < key other).ne'
        rw [filter_cons_of_pos (by simpa using hvalue), hnone]
        simp [hvalue]
      · simp [hvalue]
    case isFalse =>
      rw [filter_cons, filter_cons, ih hrest]
      split <;> simp

/-- Insertion of an element with a new key can be undone. -/
theorem insertSorted_inj
    {left right : List α} (hleft : SortedBy key left) (hright : SortedBy key right)
    {value value' : α} (hkey : key value' = key value)
    (hnew : ∀ other ∈ left, key other ≠ key value) (hnew' : ∀ other ∈ right, key other ≠ key value)
    (hsame : insertSorted compare left value = insertSorted compare right value') :
    left = right ∧ value = value' := by
  have hnone : ∀ {list : List α}, (∀ other ∈ list, key other ≠ key value) →
      list.filter (key · = key value) = [] ∧ list.filter (key · ≠ key value) = list := by
    intro list hlist
    simpa [filter_eq_nil_iff, filter_eq_self] using hlist
  constructor
  · have hfilter := congrArg (filter (key · ≠ key value)) hsame
    rwa [filter_insertSorted_of_neg left (by simp),
      filter_insertSorted_of_neg right (by simp [hkey]), (hnone hnew).2,
      (hnone hnew').2] at hfilter
  · have hfilter := congrArg (filter (key · = key value)) hsame
    rw [filter_insertSorted hcompare hleft, filter_insertSorted hcompare hright,
      (hnone hnew).1, (hnone hnew').1] at hfilter
    simpa [hkey] using hfilter

/-- Inserting one by one is a stable sort. -/
theorem insertAll_stableSort
    (values : List α) : StableSort key values (insertAll compare values) where
  perm := perm_insertAll values
  sorted := insertAll_sorted hcompare values
  stable k := by
    have hstep : ∀ values list : List α, SortedBy key list →
        (values.foldl (insertSorted compare) list).filter (key · = k) =
          list.filter (key · = k) ++ values.filter (key · = k) := by
      intro values
      induction values with
      | nil => simp
      | cons value rest ih =>
        intro list hlist
        rw [foldl_cons, ih _ (insertSorted_sorted hcompare hlist value),
          filter_insertSorted hcompare hlist, append_assoc,
          ← filter_append, singleton_append]
    simpa [insertAll] using hstep values [] List.Pairwise.nil

end

/-- Two sorted lists with the same elements are equal when the key determines
the element. -/
theorem SortedBy.eq_of_perm {left right : List α} (hleft : SortedBy key left)
    (hright : SortedBy key right) (hperm : left.Perm right)
    (hkey : ∀ a ∈ left, ∀ b ∈ left, key a = key b → a = b) : left = right := by
  refine hperm.eq_of_pairwise ?_ hleft hright
  intro a b ha hb hab hba
  exact hkey a ha b (hperm.mem_iff.2 hb) (le_antisymm hab hba)

/-- Insertion splits a list at the first element that has to come later. -/
theorem insertSorted_eq (list : List α) (value : α) :
    insertSorted compare list value = list.takeWhile (fun other => compare other value ≤ 0) ++
        value :: list.dropWhile (fun other => compare other value ≤ 0) := by
  induction list with
  | nil => rfl
  | cons head rest ih =>
    by_cases hle : compare head value ≤ 0
    · rw [insertSorted, if_neg (not_lt.2 hle)]
      simp [hle, ih]
    · rw [insertSorted, if_pos (not_le.1 hle)]
      simp [hle]

end Key

end Xv6Users.SortedInsert
