import Mathlib

/-!
# Places that own resources

Each place of a structure is empty or owns one resource.  A resource is in use when
it is reserved or when exactly one place owns it.  A place can acquire a resource that
is not in use, and a set of places can release what they own.
-/

namespace Xv6Users.Ownership

open Function

variable {Place Resource : Type*} {reserved used used' : Resource → Prop}
  {target target' : Place → Option Resource} {resource : Resource} {place : Place}

/-- The resources in use are those that are reserved and those that have an owner;
nothing has two owners, and nothing that is reserved has one. -/
structure Owned (reserved used : Resource → Prop) (target : Place → Option Resource) :
    Prop where
  used_iff : ∀ resource, used resource ↔ reserved resource ∨ ∃ place, target place = some resource
  unique : ∀ {left right resource}, target left = some resource →
    target right = some resource → left = right
  open_of_target : ∀ {place resource}, target place = some resource → ¬ reserved resource

section

variable (howned : Owned reserved used target)

include howned

theorem Owned.used_of_target (htarget : target place = some resource) : used resource :=
  (howned.used_iff resource).2 (.inr ⟨place, htarget⟩)

/-- In use means reserved or owned by exactly one place. -/
theorem Owned.used_iff_existsUnique (resource : Resource) :
    used resource ↔ reserved resource ∨ ∃! place, target place = some resource := by
  rw [howned.used_iff]
  apply or_congr_right
  constructor
  · rintro ⟨place, htarget⟩
    exact ⟨place, htarget, fun _ hother => howned.unique hother htarget⟩
  · rintro ⟨place, htarget, -⟩
    exact ⟨place, htarget⟩

theorem Owned.congr (hused : ∀ resource, used' resource ↔ used resource)
    (htarget : ∀ place, target' place = target place) : Owned reserved used' target' := by
  have hsame : target' = target := funext htarget
  subst hsame
  exact ⟨fun resource => (hused resource).trans (howned.used_iff resource), howned.unique,
    howned.open_of_target⟩

/-- An empty place acquires a resource that is not in use. -/
theorem Owned.acquire [DecidableEq Place] (hempty : target place = none) (hfree : ¬ used resource) :
    Owned reserved (fun other => used other ∨ other = resource)
      (update target place (some resource)) := by
  have hnone : ∀ other, target other ≠ some resource :=
    fun other hother => hfree (howned.used_of_target hother)
  have hcases : ∀ {other found}, update target place (some resource) other =
      some found → (other = place ∧ found = resource) ∨ target other = some found := by
    intro other found hfound
    by_cases hother : other = place
    · rw [hother, update_self] at hfound
      exact .inl ⟨hother, (Option.some_inj.1 hfound).symm⟩
    · rw [update_of_ne hother] at hfound
      exact .inr hfound
  refine ⟨fun found => ?_, ?_, ?_⟩
  · constructor
    · rintro (hused | rfl)
      · obtain hreserved | ⟨other, hother⟩ := (howned.used_iff found).1 hused
        · exact .inl hreserved
        · have hne : other ≠ place := by
            rintro rfl
            rw [hempty] at hother
            cases hother
          exact .inr ⟨other, by rwa [update_of_ne hne]⟩
      · exact .inr ⟨place, update_self ..⟩
    · rintro (hreserved | ⟨other, hother⟩)
      · exact .inl ((howned.used_iff found).2 (.inl hreserved))
      · obtain ⟨-, rfl⟩ | htarget := hcases hother
        · exact .inr rfl
        · exact .inl (howned.used_of_target htarget)
  · intro left right found hleft hright
    cases hcases hleft with
    | inl hnew =>
      obtain ⟨hplace, rfl⟩ := hnew
      cases hcases hright with
      | inl hnew' => exact hplace.trans hnew'.1.symm
      | inr hold' => exact absurd hold' (hnone right)
    | inr hold =>
      cases hcases hright with
      | inl hnew' =>
        rw [hnew'.2] at hold
        exact absurd hold (hnone left)
      | inr hold' => exact howned.unique hold hold'
  · intro other found hother
    obtain ⟨-, rfl⟩ | htarget := hcases hother
    · exact fun hreserved => hfree ((howned.used_iff found).2 (.inl hreserved))
    · exact howned.open_of_target htarget

/-- Places release what they own. -/
theorem Owned.release (places : Set Place) (hused : ∀ resource, used' resource ↔
      used resource ∧ ¬ ∃ place ∈ places, target place = some resource)
    (hgone : ∀ place ∈ places, target' place = none)
    (hkept : ∀ place, place ∉ places → target' place = target place) :
    Owned reserved used' target' := by
  have hbefore : ∀ {place resource}, target' place = some resource →
      place ∉ places ∧ target place = some resource := by
    intro place resource htarget
    by_cases hplace : place ∈ places
    · rw [hgone place hplace] at htarget
      cases htarget
    · exact ⟨hplace, hkept place hplace ▸ htarget⟩
  refine ⟨fun resource => ?_, ?_, ?_⟩
  · rw [hused, howned.used_iff]
    constructor
    · rintro ⟨hreserved | ⟨place, htarget⟩, hnone⟩
      · exact .inl hreserved
      · have hplace : place ∉ places := fun hmem => hnone ⟨place, hmem, htarget⟩
        exact .inr ⟨place, (hkept place hplace).trans htarget⟩
    · rintro (hreserved | ⟨place, htarget⟩)
      · exact ⟨.inl hreserved, fun ⟨place, _, htarget⟩ => howned.open_of_target htarget hreserved⟩
      · obtain ⟨hplace, htarget⟩ := hbefore htarget
        refine ⟨.inr ⟨place, htarget⟩, ?_⟩
        rintro ⟨other, hother, hsame⟩
        exact hplace (howned.unique htarget hsame ▸ hother)
  · intro left right resource hleft hright
    exact howned.unique (hbefore hleft).2 (hbefore hright).2
  · intro place resource htarget
    exact howned.open_of_target (hbefore htarget).2

/-- A resource moves from one place to another. -/
theorem Owned.move [DecidableEq Place] {source : Place} (hsource : target source = some resource)
    (hempty : target place = none) :
    Owned reserved used (update (update target source none) place (some resource)) := by
  have hne : place ≠ source := by
    rintro rfl
    rw [hempty] at hsource
    cases hsource
  have hused := howned.used_of_target hsource
  have hreleased : Owned reserved (fun other => used other ∧ other ≠ resource)
      (update target source none) := by
    apply howned.release {source}
    · intro other
      simp only [Set.mem_singleton_iff, exists_eq_left, hsource, Option.some.injEq]
      rw [ne_comm]
    · rintro _ rfl
      exact update_self ..
    · exact fun other hother => update_of_ne hother ..
  have hacquired := hreleased.acquire ((update_of_ne hne ..).trans hempty)
    (fun hfree => hfree.2 rfl)
  apply hacquired.congr _ (fun _ => rfl)
  intro other
  by_cases hother : other = resource
  · simp [hother, hused]
  · simp [hother]

end

end Xv6Users.Ownership
