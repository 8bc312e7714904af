import Mathlib

/-!
# Ring buffers with free-running counters

Two 32-bit counters run round a ring of cells; each is taken modulo the size only to
find its cell.  If the size divides `2 ^ 32`, the cells between the counters are a
queue also after the counters have wrapped.
-/

namespace Xv6Users.RingBuffer

open Function List

variable {α : Type*} {size : ℕ} {data : ℕ → α} {start mid stop : UInt32}

def cell (size : ℕ) (counter : UInt32) : ℕ :=
  counter.toNat % size

def count (start stop : UInt32) : ℕ :=
  (stop - start).toNat

/-- What the cells from one counter to another hold. -/
def contents (size : ℕ) (data : ℕ → α) (start stop : UInt32) : List α :=
  (range (count start stop)).map fun index =>
    data (cell size (start + UInt32.ofNat index))

@[simp]
theorem length_contents : (contents size data start stop).length = count start stop := by
  rw [contents, length_map, length_range]

@[simp]
theorem count_self : count start start = 0 := by
  rw [count, UInt32.sub_self]
  rfl

theorem count_eq_zero : count start stop = 0 ↔ start = stop := by
  rw [count, UInt32.toNat_sub, ← UInt32.toNat_inj]
  have hstart := start.toNat_lt
  have hstop := stop.toNat_lt
  omega

theorem count_succ (hroom : count start stop < 2 ^ 32 - 1) :
    count start (stop + 1) = count start stop + 1 := by
  rw [count, UInt32.toNat_sub] at hroom ⊢
  rw [count, UInt32.toNat_sub, UInt32.toNat_add, UInt32.toNat_one]
  omega

theorem count_pop (hne : start ≠ stop) : count (start + 1) stop + 1 = count start stop := by
  have hpos : count start stop ≠ 0 := fun hzero => hne (count_eq_zero.1 hzero)
  rw [count, UInt32.toNat_sub] at hpos ⊢
  rw [count, UInt32.toNat_sub, UInt32.toNat_add, UInt32.toNat_one]
  have hstart := start.toNat_lt
  omega

theorem count_pred (hne : start ≠ stop) : count start (stop - 1) + 1 = count start stop := by
  have hpos : count start stop ≠ 0 := fun hzero => hne (count_eq_zero.1 hzero)
  rw [count, UInt32.toNat_sub] at hpos ⊢
  rw [count, UInt32.toNat_sub, UInt32.toNat_sub, UInt32.toNat_one]
  omega

theorem cell_add (hsize : size ∣ 2 ^ 32) (counter : UInt32) (index : ℕ) :
    cell size (counter + UInt32.ofNat index) = (counter.toNat + index) % size := by
  rw [cell, UInt32.toNat_add, UInt32.toNat_ofNat', Nat.mod_mod_of_dvd _ hsize, Nat.add_mod,
    Nat.mod_mod_of_dvd _ hsize, ← Nat.add_mod]

theorem add_count (start stop : UInt32) : start + UInt32.ofNat (count start stop) = stop := by
  rw [count, UInt32.ofNat_toNat, ← UInt32.toNat_inj, UInt32.toNat_add, UInt32.toNat_sub]
  have hstart := start.toNat_lt
  have hstop := stop.toNat_lt
  omega

/-- The cells of a queue that is not full differ from the next one. -/
theorem cell_ne_stop (hsize : size ∣ 2 ^ 32) (hroom : count start stop < size) {index : ℕ}
    (hindex : index < count start stop) :
    cell size (start + UInt32.ofNat index) ≠ cell size stop := by
  rw [cell_add hsize, ← add_count start stop, cell_add hsize]
  intro hsame
  have hmod := (Nat.ModEq.add_left_cancel' start.toNat hsame : index ≡ _ [MOD size])
  rw [Nat.ModEq, Nat.mod_eq_of_lt (hindex.trans hroom), Nat.mod_eq_of_lt hroom] at hmod
  omega

theorem contents_self : contents size data start start = [] := by
  rw [contents, count_self]
  rfl

theorem contents_eq_nil : contents size data start stop = [] ↔ start = stop := by
  rw [← length_eq_zero_iff, length_contents, count_eq_zero]

/-- One more cell at the end. -/
theorem contents_succ (hroom : count start stop < 2 ^ 32 - 1) :
    contents size data start (stop + 1) =
      contents size data start stop ++ [data (cell size stop)] := by
  rw [contents, count_succ hroom, range_succ, map_append, map_singleton, add_count, contents]

/-- The last cell is given up. -/
theorem contents_pred (hne : start ≠ stop) :
    contents size data start stop =
      contents size data start (stop - 1) ++ [data (cell size (stop - 1))] := by
  have hcount := count_pred hne
  have hlt := (stop - start).toNat_lt
  have hroom : count start (stop - 1) < 2 ^ 32 - 1 := by
    rw [← count, ← hcount] at hlt
    omega
  have hsucc : contents size data start (stop - 1 + 1) = _ := contents_succ hroom
  rwa [UInt32.sub_add_cancel] at hsucc

/-- A queue in two parts. -/
theorem contents_append (horder : count start mid + count mid stop = count start stop) :
    contents size data start mid ++ contents size data mid stop =
      contents size data start stop := by
  rw [contents, contents, contents, ← horder, range_add, map_append, map_map]
  congr 1
  apply map_congr_left
  intro index _
  rw [comp_apply, UInt32.ofNat_add, ← UInt32.add_assoc, add_count]

/-- A cell that is not in the queue is written. -/
theorem contents_update (hsize : size ∣ 2 ^ 32) (hroom : count start stop < size) (item : α) :
    contents size (update data (cell size stop) item) start stop =
      contents size data start stop := by
  apply map_congr_left
  intro index hindex
  exact update_of_ne (cell_ne_stop hsize hroom (mem_range.1 hindex)) ..

/-- Neither part of a queue has the next cell. -/
theorem contents_update_parts (hsize : size ∣ 2 ^ 32)
    (horder : count start mid + count mid stop = count start stop)
    (hroom : count start stop < size) (item : α) :
    contents size (update data (cell size stop) item) start mid = contents size data start mid ∧
      contents size (update data (cell size stop) item) mid stop = contents size data mid stop := by
  have hwhole : _ = contents size data start stop := contents_update hsize hroom item
  rw [← contents_append horder, ← contents_append horder] at hwhole
  apply append_inj hwhole
  rw [length_contents, length_contents]

/-- An item goes to the end. -/
theorem contents_push (hsize : size ∣ 2 ^ 32) (hroom : count start stop < size)
    (hle : size < 2 ^ 32) (item : α) :
    contents size (update data (cell size stop) item) start (stop + 1) =
      contents size data start stop ++ [item] := by
  rw [contents_succ (by omega), contents_update hsize hroom, update_self]

/-- The first item is taken. -/
theorem contents_pop (hne : start ≠ stop) :
    contents size data start stop =
      data (cell size start) :: contents size data (start + 1) stop := by
  rw [contents, ← count_pop hne, range_succ_eq_map, map_cons, map_map, contents]
  congr 1
  · congr 2
    exact UInt32.add_zero start
  · apply map_congr_left
    intro index _
    rw [comp_apply, Nat.succ_eq_one_add, UInt32.ofNat_add, ← UInt32.add_assoc]
    rfl

end Xv6Users.RingBuffer
