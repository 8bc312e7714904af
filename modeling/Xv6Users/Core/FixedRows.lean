import Mathlib

/-!
# Tables of fixed width

A list cut into rows of one width.  Overwriting a row in place changes that row
only, and writing a row at the end appends it.
-/

namespace Xv6Users.FixedRows

open List

variable {α : Type} {width index : ℕ} {cells row : List α}

def rows (width : ℕ) (cells : List α) : List (List α) :=
  (range (cells.length / width)).map fun index =>
    (cells.drop (width * index)).take width

@[simp]
theorem length_rows : (rows width cells).length = cells.length / width := by
  simp [rows]

theorem getElem_rows (hindex : index < (rows width cells).length) :
    (rows width cells)[index] = (cells.drop (width * index)).take width := by
  simp [rows]

theorem length_of_mem_rows (hrow : row ∈ rows width cells) : row.length = width := by
  obtain ⟨index, hindex, rfl⟩ := mem_map.1 hrow
  have hlt := mem_range.1 hindex
  have hfits : width * (index + 1) ≤ cells.length :=
    (Nat.mul_le_mul_left width hlt).trans (Nat.mul_div_le cells.length width)
  rw [Nat.mul_succ] at hfits
  rw [length_take, length_drop]
  omega

theorem row_fits (hindex : index < cells.length / width) :
    width * index + width ≤ cells.length := by
  have hfits := (Nat.mul_le_mul_left width hindex).trans
    (Nat.mul_div_le cells.length width)
  rwa [Nat.mul_succ] at hfits

theorem getElem?_overwrite (hfits : width * index + width ≤ cells.length)
    (hrow : row.length = width) (position : ℕ) :
    (cells.take (width * index) ++ row ++ cells.drop (width * index + row.length))[position]? =
      if width * index ≤ position ∧ position < width * index + width then
        row[position - width * index]?
      else cells[position]? := by
  have htake : (cells.take (width * index)).length = width * index := length_take_of_le (by omega)
  split_ifs with hinside
  · rw [append_assoc, getElem?_append_right (by omega), htake,
      getElem?_append_left (by omega)]
  · by_cases hbefore : position < width * index
    · rw [append_assoc, getElem?_append_left (by omega),
        getElem?_take_of_lt hbefore]
    · rw [getElem?_append_right (by simp [htake, hrow]; omega), getElem?_drop]
      congr 1
      simp [htake, hrow]
      omega

/-- A row that is overwritten changes alone. -/
theorem rows_overwrite (hindex : index < cells.length / width) (hrow : row.length = width) :
    rows width (cells.take (width * index) ++ row ++
      cells.drop (width * index + row.length)) = (rows width cells).set index row := by
  have hfits := row_fits hindex
  have hlength : (cells.take (width * index) ++ row ++
      cells.drop (width * index + row.length)).length = cells.length := by
    simp [hrow]
    omega
  apply ext_getElem
  · simp only [length_rows, hlength, length_set]
  intro other hleft hright
  rw [getElem_rows, getElem_set]
  apply ext_getElem?
  intro position
  rw [getElem?_take, getElem?_drop, getElem?_overwrite hfits hrow]
  by_cases hsame : index = other
  · subst hsame
    rw [if_pos rfl]
    split_ifs with hposition hinside
    · rw [Nat.add_sub_cancel_left]
    · omega
    · exact (getElem?_eq_none (by omega)).symm
  · rw [if_neg hsame, getElem_rows, getElem?_take, getElem?_drop]
    -- Different rows do not overlap.
    have hapart : width * other + width ≤ width * index ∨
        width * index + width ≤ width * other := by
      rcases Nat.lt_or_gt_of_ne hsame with hlt | hlt
      · exact .inr (Nat.mul_le_mul_left width hlt)
      · exact .inl (Nat.mul_le_mul_left width hlt)
    split_ifs with hposition hinside
    · omega
    · rfl
    · rfl

/-- A row that is written at the end is appended. -/
theorem rows_append (hwidth : 0 < width) (haligned : width ∣ cells.length)
    (hrow : row.length = width) : rows width (cells ++ row) = rows width cells ++ [row] := by
  obtain ⟨count, hcount⟩ := haligned
  have hdiv : (cells ++ row).length / width = count + 1 := by
    rw [length_append, hcount, hrow, ← Nat.mul_succ, Nat.mul_div_cancel_left _ hwidth]
  have hdiv' : cells.length / width = count := by
    rw [hcount, Nat.mul_div_cancel_left _ hwidth]
  rw [rows, rows, hdiv, hdiv', range_succ, map_append, map_singleton]
  congr 1
  · apply map_congr_left
    intro index hindex
    have hlt := mem_range.1 hindex
    have hfits := row_fits (hdiv'.symm ▸ hlt)
    rw [drop_append_of_le_length (by omega),
      take_append_of_le_length (by rw [length_drop]; omega)]
  · rw [← hcount, drop_left, take_of_length_le hrow.le]

end Xv6Users.FixedRows
