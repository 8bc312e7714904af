import Mathlib

/-!
# Counting holders

How many places of a finite table point to a given target, and how the count
changes when one place is overwritten.
-/

namespace Xv6Users.Holders

open Function Finset

variable {Place Target : Type*} [Fintype Place] [DecidableEq Place] [DecidableEq Target]

def holders (table : Place → Option Target) (target : Target) : ℕ :=
  (univ.filter fun place => table place = some target).card

omit [DecidableEq Place] in
theorem one_le_holders {table : Place → Option Target} {place : Place}
    {target : Target} (hplace : table place = some target) : 1 ≤ holders table target :=
  card_pos.2 ⟨place, by simpa using hplace⟩

/-- Overwriting a place takes away what it held and adds what it holds now. -/
theorem holders_update (table : Place → Option Target) (place : Place)
    (value : Option Target) (target : Target) :
    holders (update table place value) target + (if table place = some target then 1 else 0) =
      holders table target + (if value = some target then 1 else 0) := by
  have hsplit : ∀ table : Place → Option Target, holders table target =
      (if table place = some target then 1 else 0) +
        ∑ other ∈ univ.erase place,
          if table other = some target then 1 else 0 := by
    intro table
    rw [holders, card_filter]
    exact (add_sum_erase _ _ (mem_univ place)).symm
  have hothers : (∑ other ∈ univ.erase place,
      if update table place value other = some target then 1 else 0) =
        ∑ other ∈ univ.erase place,
          if table other = some target then 1 else 0 := by
    refine sum_congr rfl fun other hother => ?_
    rw [update_of_ne (ne_of_mem_erase hother)]
  rw [hsplit, hsplit table, hothers, update_self]
  ring

end Xv6Users.Holders
