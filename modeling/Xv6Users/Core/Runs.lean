import Mathlib

/-!
# Runs of a machine

A machine is a partial function from a state and an action to the next state.  A list of
actions that can be taken one after another is a run.
-/

namespace Xv6Users.Runs

variable {State Action : Type*} {step : State → Action → Option State}

theorem reflTransGen_of_foldlM {actions : List Action} {first last : State}
    (hrun : actions.foldlM step first = some last) :
    Relation.ReflTransGen (fun before after => ∃ action, step before action = some after)
      first last := by
  induction actions generalizing first with
  | nil =>
    cases hrun
    exact .refl
  | cons action rest ih =>
    obtain ⟨middle, hstep, hrest⟩ := Option.bind_eq_some_iff.1 hrun
    exact .head ⟨action, hstep⟩ (ih hrest)

end Xv6Users.Runs
