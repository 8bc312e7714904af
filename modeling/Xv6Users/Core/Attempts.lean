import Mathlib

/-!
# Attempts

An operation on a state that returns a value, gives up or halts, and rules for what it leads
to.
-/

namespace Xv6Users.Attempts

universe u

variable {State : Type*} {α β : Type u}

/-- The result `none` halts, and `some (none, state)` gives up in a state. -/
def Attempt (State : Type*) (α : Type u) : Type _ :=
  State → Option (Option α × State)

namespace Attempt

def giveUp : Attempt State α :=
  fun state => some (none, state)

def pure (value : α) : Attempt State α :=
  fun state => some (some value, state)

def bind (first : Attempt State α) (next : α → Attempt State β) : Attempt State β :=
  fun state =>
    match first state with
    | none => none
    | some (none, state) => some (none, state)
    | some (some value, state) => next value state

instance : Monad (Attempt State) where
  pure := pure
  bind := bind

/-- The operation returns a value with `post`, gives up with `failed`, or `halts`. -/
def Leads (halts : Prop) (op : Attempt State α) (state : State) (failed : State → Prop)
    (post : α → State → Prop) : Prop :=
  (∃ value after, op state = some (some value, after) ∧ post value after) ∨
    (∃ after, op state = some (none, after) ∧ failed after) ∨ (halts ∧ op state = none)

variable {halts : Prop} {op first : Attempt State α} {next : α → Attempt State β}
  {state : State} {failed : State → Prop} {post post' : α → State → Prop}
  {goal : β → State → Prop} {value : α}

theorem Leads.pure (hpost : post value state) : Leads halts (Pure.pure value) state failed post :=
  .inl ⟨value, state, rfl, hpost⟩

theorem Leads.giveUp (hfailed : failed state) : Leads halts giveUp state failed post :=
  .inr (.inl ⟨state, rfl, hfailed⟩)

theorem Leads.bind (hfirst : Leads halts first state failed post)
    (hnext : ∀ value state, post value state → Leads halts (next value) state failed goal) :
    Leads halts (first >>= next) state failed goal := by
  have hbind : (first >>= next) state = Attempt.bind first next state := rfl
  rw [Leads, hbind, Attempt.bind]
  obtain ⟨value, after, hdone, hpost⟩ | ⟨after, hgave, hfailed⟩ | ⟨hhalts, hnone⟩ := hfirst
  · rw [hdone]
    exact hnext value after hpost
  · rw [hgave]
    exact .inr (.inl ⟨after, rfl, hfailed⟩)
  · rw [hnone]
    exact .inr (.inr ⟨hhalts, rfl⟩)

end Attempt

end Xv6Users.Attempts
