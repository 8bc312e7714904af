import Mathlib

/-!
# Credentials in a table of recycled slots

A table of slots in which a live process can fill a free slot with a copy of
its credentials and start it.  Slots are recycled and a new process finds the
credentials of the last one in its slot, so what a process may become is
followed along its line of descent and not by slot.  A process that is not
privileged keeps its credentials, and so do all its descendants.
-/

namespace Xv6Users.CredentialTable

open Function

/-- What a slot holds: nothing, a process that is being set up, or a process. -/
inductive Phase where
  | free
  | fresh
  | live
  deriving DecidableEq

/-- `child` is the slot that a process is filling, with a mark that is set once
the credentials are copied. -/
@[ext]
structure Table (Slot Cred : Type*) where
  phase : Slot → Phase
  cred : Slot → Cred
  child : Slot → Option (Slot × Bool)

variable {Slot Cred : Type*} [DecidableEq Slot] {good privileged : Cred → Prop}
  {table table' : Table Slot Cred} {q : Slot}

/-- One step of one process. -/
inductive Step (good privileged : Cred → Prop) :
    Table Slot Cred → Table Slot Cred → Prop where
  | quiet (table : Table Slot Cred) : Step good privileged table table
  | relabel {table : Table Slot Cred} {p : Slot} {cred : Cred}
      (hlive : table.phase p = .live) (hidle : table.child p = none)
      (hprivileged : privileged (table.cred p)) (hgood : good cred) :
      Step good privileged table
        { table with cred := update table.cred p cred }
  | claim {table : Table Slot Cred} {p q : Slot}
      (hlive : table.phase p = .live) (hidle : table.child p = none)
      (hfree : table.phase q = .free) :
      Step good privileged table
        { table with
          phase := update table.phase q .fresh
          child := update table.child p (some (q, false)) }
  | abandon {table : Table Slot Cred} {p q : Slot} {copied : Bool}
      (hchild : table.child p = some (q, copied)) :
      Step good privileged table
        { table with
          phase := update table.phase q .free
          child := update table.child p none }
  | copy {table : Table Slot Cred} {p q : Slot}
      (hchild : table.child p = some (q, false)) :
      Step good privileged table
        { table with
          cred := update table.cred q (table.cred p)
          child := update table.child p (some (q, true)) }
  | start {table : Table Slot Cred} {p q : Slot}
      (hchild : table.child p = some (q, true)) :
      Step good privileged table
        { table with
          phase := update table.phase q .live
          child := update table.child p none }
  | reap {table : Table Slot Cred} {p : Slot}
      (hlive : table.phase p = .live) (hidle : table.child p = none) :
      Step good privileged table
        { table with phase := update table.phase p .free }

/-- Live processes have good credentials, and a slot that is being filled is
filled by one live process. -/
structure Consistent (good : Cred → Prop) (table : Table Slot Cred) :
    Prop where
  good : ∀ p, table.phase p = .live → good (table.cred p)
  parent_live : ∀ p child, table.child p = some child → table.phase p = .live
  child_fresh : ∀ p q copied, table.child p = some (q, copied) → table.phase q = .fresh
  child_unique : ∀ p p' q copied copied', table.child p = some (q, copied) →
    table.child p' = some (q, copied') → p = p'
  copied : ∀ p q, table.child p = some (q, true) → table.cred q = table.cred p

omit [DecidableEq Slot] in
theorem consistent_of_idle (hgood : ∀ p, table.phase p = .live → good (table.cred p))
    (hidle : ∀ p, table.child p = none) : Consistent good table := by
  constructor <;> simp_all

theorem Consistent.step
    (htable : Consistent good table) (hstep : Step good privileged table table') :
    Consistent good table' := by
  obtain ⟨hgood, hparent, hfresh, hunique, hcopied⟩ := htable
  cases hstep with
  | quiet => exact ⟨hgood, hparent, hfresh, hunique, hcopied⟩
  | relabel hlive hidle hprivileged hnew => constructor <;> simp only [update_apply] <;> grind
  | claim hlive hidle hfree => constructor <;> simp only [update_apply] <;> grind
  | abandon hchild => constructor <;> simp only [update_apply] <;> grind
  | copy hchild => constructor <;> simp only [update_apply] <;> grind
  | start hchild => constructor <;> simp only [update_apply] <;> grind
  | reap hlive hidle => constructor <;> simp only [update_apply] <;> grind

/-- The process in `q` after a step is the one in `p` before it, or a child
that `p` has just started. -/
def Succeeds (table table' : Table Slot Cred) (p q : Slot) : Prop :=
  table.phase p = .live ∧ table'.phase q = .live ∧
    (p = q ∨ table.phase q ≠ .live ∧ table.child p = some (q, true))

/-- Only its parent makes a process live. -/
theorem Step.starts (hstep : Step good privileged table table')
    (hold : table.phase q ≠ .live) (hlive : table'.phase q = .live) :
    ∃ p, table.child p = some (q, true) ∧ table'.cred = table.cred := by
  cases hstep with
  | quiet => exact absurd hlive hold
  | relabel => exact absurd hlive hold
  | copy => exact absurd hlive hold
  | start hchild =>
    simp only [update_apply] at hlive
    split_ifs at hlive with hq
    · exact ⟨_, hq ▸ hchild, rfl⟩
    · exact absurd hlive hold
  | _ =>
    simp only [update_apply] at hlive
    split_ifs at hlive
    exact absurd hlive hold

/-- Every process after a step is one from before the step or its child. -/
theorem exists_succeeds (htable : Consistent good table) (hstep : Step good privileged table table')
    (hlive : table'.phase q = .live) : ∃ p, Succeeds table table' p q := by
  by_cases hold : table.phase q = .live
  · exact ⟨q, hold, hlive, .inl rfl⟩
  · obtain ⟨p, hchild, -⟩ := hstep.starts hold hlive
    exact ⟨p, htable.parent_live p _ hchild, hlive, .inr ⟨hold, hchild⟩⟩

/-- A process without privilege passes on its credentials unchanged. -/
theorem Succeeds.cred_eq (htable : Consistent good table)
    (hstep : Step good privileged table table') {p : Slot} (hnext : Succeeds table table' p q)
    (hlow : ¬ privileged (table.cred p)) : table'.cred q = table.cred p := by
  obtain ⟨hp, hq, rfl | ⟨hold, hchild⟩⟩ := hnext
  · cases hstep with
    | relabel hlive hidle hprivileged hgood =>
      refine update_of_ne ?_ _ _
      rintro rfl
      exact hlow hprivileged
    | copy hchild =>
      refine update_of_ne ?_ _ _
      rintro rfl
      simp [htable.child_fresh _ _ _ hchild] at hp
    | _ => rfl
  · obtain ⟨-, -, hsame⟩ := hstep.starts hold hq
    rw [hsame, htable.copied p q hchild]

end Xv6Users.CredentialTable
