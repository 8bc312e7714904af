import Mathlib

/-!
# Buffers of fixed size

Writing bytes over a buffer keeps its length; a field is a range of its bytes.
-/

namespace Xv6Users.Buffers

open List Option

variable {α : Type*} {width off index : ℕ}

/-- The buffer with `src` written over it from an offset on. -/
def overlay (bytes : List α) (off : ℕ) (src : List α) : List α :=
  bytes.mapIdx fun index byte =>
    if off ≤ index then src.getD (index - off) byte else byte

def field (width off : ℕ) (bytes : List α) : List α :=
  (bytes.drop off).take width

@[simp]
theorem length_overlay (bytes : List α) (off : ℕ) (src : List α) :
    (overlay bytes off src).length = bytes.length := length_mapIdx

theorem getElem?_overlay (bytes : List α) (off : ℕ) (src : List α) (index : ℕ) :
    (overlay bytes off src)[index]? =
      if off ≤ index ∧ index < off + src.length ∧ index < bytes.length then
        src[index - off]? else bytes[index]? := by
  rw [overlay, getElem?_mapIdx]
  cases hbyte : bytes[index]? with
  | none =>
    have hend : bytes.length ≤ index := getElem?_eq_none_iff.1 hbyte
    rw [if_neg (by omega)]
    rfl
  | some byte =>
    obtain ⟨hindex, -⟩ := List.getElem?_eq_some_iff.1 hbyte
    by_cases hoff : off ≤ index
    · by_cases hsrc : index - off < src.length
      · rw [if_pos ⟨hoff, by omega, hindex⟩, map_some, if_pos hoff,
          getD_eq_getElem?_getD, getElem?_eq_getElem hsrc, getD_some]
      · rw [if_neg (by omega), map_some, if_pos hoff, getD_eq_getElem?_getD,
          getElem?_eq_none (by omega), getD_none]
    · rw [if_neg (fun h => hoff h.1), map_some, if_neg hoff]

theorem getElem?_field (width off : ℕ) (bytes : List α) (index : ℕ) :
    (field width off bytes)[index]? = if index < width then bytes[off + index]? else none := by
  rw [field, getElem?_take]
  split_ifs
  · rw [getElem?_drop]
  · rfl

theorem getD_overlay {bytes src : List α} (hindex : index < bytes.length) (default : α) :
    (overlay bytes off src).getD index default =
      if off ≤ index ∧ index < off + src.length then src.getD (index - off) default
      else bytes.getD index default := by
  rw [getD_eq_getElem?_getD, getElem?_overlay]
  by_cases hinside : off ≤ index ∧ index < off + src.length
  · rw [if_pos ⟨hinside.1, hinside.2, hindex⟩, if_pos hinside, getD_eq_getElem?_getD]
  · have hnot : ¬ (off ≤ index ∧ index < off + src.length ∧ index < bytes.length) :=
      fun hall => hinside ⟨hall.1, hall.2.1⟩
    rw [if_neg hnot, if_neg hinside, getD_eq_getElem?_getD]

/-- A field ends where the buffer does. -/
theorem field_min (width off : ℕ) (bytes : List α) :
    field (min width (bytes.length - off)) off bytes = field width off bytes := by
  rw [field, field, ← length_drop, ← take_eq_take_min]

/-- What was written is read back. -/
theorem field_overlay_self {bytes src : List α} (hfits : off + src.length ≤ bytes.length) :
    field src.length off (overlay bytes off src) = src := by
  apply ext_getElem?
  intro index
  rw [getElem?_field, getElem?_overlay]
  split_ifs with hindex hinside
  · rw [Nat.add_sub_cancel_left]
  · omega
  · rw [getElem?_eq_none (by omega)]

/-- A field beside the bytes that are written. -/
theorem field_overlay_of_disjoint {bytes src : List α} {start : ℕ}
    (hdisjoint : start + width ≤ off ∨ off + src.length ≤ start) :
    field width start (overlay bytes off src) = field width start bytes := by
  apply ext_getElem?
  intro index
  rw [getElem?_field, getElem?_field, getElem?_overlay]
  split_ifs with hindex hinside
  · omega
  · rfl
  · rfl

/-- A field behind other bytes. -/
theorem field_append_right {front back : List α} (hoff : front.length ≤ off) :
    field width off (front ++ back) = field width (off - front.length) back := by
  rw [field, drop_append, drop_of_length_le hoff, nil_append, field]

/-- A field that is the front. -/
theorem field_append_self {front back : List α} (hfront : front.length = width) :
    field width 0 (front ++ back) = front := by
  rw [field, drop_zero, ← hfront, take_left]

/-- The fields of equal width that stand one after the other. -/
theorem field_flatMap {β : Type*} {item : β → List α}
    (hwidth : ∀ value, (item value).length = width) (values : List β) (back : List α)
    (hindex : index < values.length) :
    field width (width * index) (values.flatMap item ++ back) = item values[index] := by
  induction values generalizing index with
  | nil => cases hindex
  | cons value rest ih =>
    rw [flatMap_cons, append_assoc]
    cases index with
    | zero => exact field_append_self (hwidth value)
    | succ index =>
      have hrest : index < rest.length := Nat.lt_of_succ_lt_succ hindex
      have hoff : width * (index + 1) - (item value).length = width * index := by
        rw [hwidth, Nat.mul_succ, Nat.add_sub_cancel]
      have hle : (item value).length ≤ width * (index + 1) := by
        rw [hwidth, Nat.mul_succ]
        exact Nat.le_add_left _ _
      rw [field_append_right hle, hoff, ih hrest]
      rfl

end Xv6Users.Buffers
