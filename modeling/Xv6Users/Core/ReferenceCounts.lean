import Mathlib

/-!
# Reference counts

Each of finitely many holders claims an object some number of times.  The count of an
object is right if it is the sum of the claims; it stays right when one holder's claims and
the count change alike.
-/

namespace Xv6Users.ReferenceCounts

open Finset

variable {Holder Object : Type*} [Fintype Holder] {ref ref' : Object → ℕ}
  {claims claims' : Holder → Object → ℕ} {object : Object}

def Counted (ref : Object → ℕ) (claims : Holder → Object → ℕ) : Prop :=
  ∀ object, ref object = ∑ holder, claims holder object

/-- The claims of one holder change, and the counts with them. -/
theorem Counted.change [DecidableEq Holder] (hcounted : Counted ref claims) (holder : Holder)
    (hothers : ∀ other, other ≠ holder → claims' other = claims other)
    (hbalance : ∀ object, ref' object + claims holder object =
      ref object + claims' holder object) : Counted ref' claims' := by
  intro object
  have hbefore := add_sum_erase univ (claims · object) (mem_univ holder)
  have hafter := add_sum_erase univ (claims' · object) (mem_univ holder)
  have hrest : ∑ other ∈ univ.erase holder, claims' other object =
      ∑ other ∈ univ.erase holder, claims other object := by
    apply sum_congr rfl
    intro other hother
    rw [hothers other (ne_of_mem_erase hother)]
  have hnow := hbalance object
  have hcount := hcounted object
  omega

theorem Counted.claim_le (hcounted : Counted ref claims) (holder : Holder) :
    claims holder object ≤ ref object := by
  rw [hcounted object]
  exact single_le_sum (f := (claims · object)) (fun _ _ => Nat.zero_le _)
    (mem_univ holder)

/-- Two holders claim no more than the count. -/
theorem Counted.two_claims_le [DecidableEq Holder] (hcounted : Counted ref claims)
    {left right : Holder} (hne : left ≠ right) :
    claims left object + claims right object ≤ ref object := by
  have hpair : claims left object + claims right object =
      ∑ holder ∈ {left, right}, claims holder object := by
    rw [sum_pair hne]
  rw [hpair, hcounted object]
  exact sum_le_sum_of_subset (subset_univ _)

end Xv6Users.ReferenceCounts
