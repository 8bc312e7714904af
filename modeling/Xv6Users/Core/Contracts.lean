import Mathlib

/-!
# Operations that can block or stop

An operation on a shared state ends with a result, blocks for ever in a state
that others go on from, or stops the machine.  A contract says what holds in
every state that is left behind: a relation to the state before, a condition on
the states in which an operation can block, and a condition on results.
-/

namespace Xv6Users.Contracts

inductive Outcome (State Stop α : Type) where
  | done (result : α) (state : State)
  | blocked (state : State)
  | halted (reason : Stop)
  deriving DecidableEq

def Outcome.reason {State Stop α : Type} : Outcome State Stop α → Option Stop
  | .halted reason => some reason
  | _ => none

theorem Outcome.eq_halted {State Stop α : Type} {outcome : Outcome State Stop α}
    {reason : Stop} (hreason : outcome.reason = some reason) : outcome = .halted reason := by
  cases outcome with
  | done result state => cases hreason
  | blocked state => cases hreason
  | halted found =>
    cases hreason
    rfl

def Op (State Stop α : Type) := State → Outcome State Stop α

namespace Op

variable {State Stop α β : Type}

protected def pure (result : α) : Op State Stop α := fun state => .done result state

protected def bind (first : Op State Stop α) (next : α → Op State Stop β) :
    Op State Stop β :=
  fun state =>
    match first state with
    | .done result state' => next result state'
    | .blocked state' => .blocked state'
    | .halted reason => .halted reason

instance : Monad (Op State Stop) where
  pure := Op.pure
  bind := Op.bind

def gets (read : State → α) : Op State Stop α :=
  fun state => .done (read state) state

def modify (change : State → State) : Op State Stop Unit :=
  fun state => .done () (change state)

def block : Op State Stop α :=
  fun state => .blocked state

def halt (reason : Stop) : Op State Stop α :=
  fun _ => .halted reason

theorem bind_assoc {γ : Type} (first : Op State Stop α) (next : α → Op State Stop β)
    (last : β → Op State Stop γ) :
    first >>= next >>= last = first >>= fun result => next result >>= last := by
  funext state
  change Op.bind (Op.bind first next) last state =
    Op.bind first (fun result => Op.bind (next result) last) state
  simp only [Op.bind]
  cases first state with
  | done result state' => rfl
  | blocked state' => rfl
  | halted reason => rfl

/-- A sequence returns when both of its parts do. -/
theorem bind_eq_done {first : Op State Stop α} {next : α → Op State Stop β} {state : State}
    {result : β} {final : State} :
    (first >>= next) state = .done result final ↔ ∃ value middle, first state = .done value middle ∧
        next value middle = .done result final := by
  change Op.bind first next state = .done result final ↔ _
  rw [Op.bind]
  cases first state with
  | done value middle =>
    constructor
    · exact fun hnext => ⟨value, middle, rfl, hnext⟩
    · rintro ⟨value', middle', hfirst, hnext⟩
      cases hfirst
      exact hnext
  | blocked middle => simp
  | halted reason => simp

/-- What follows matters only where the first part returns. -/
theorem bind_congr {first : Op State Stop α} {next next' : α → Op State Stop β}
    {state : State} (hnext : ∀ value middle, first state = .done value middle →
      next value middle = next' value middle) :
    (first >>= next) state = (first >>= next') state := by
  change Op.bind first next state = Op.bind first next' state
  rw [Op.bind, Op.bind]
  cases hfirst : first state with
  | done value middle => exact hnext value middle hfirst
  | blocked middle => rfl
  | halted reason => rfl

end Op

section Rules

variable {State Stop α β : Type} {rel rel' : State → State → Prop}
  {stuck : State → Prop} {post post' : α → State → Prop}
  {last : β → State → Prop} {state : State} {first : Op State Stop α}
  {next : α → Op State Stop β}

def Ends (op : Op State Stop α) (state : State) (rel : State → State → Prop) (stuck : State → Prop)
    (post : α → State → Prop) : Prop :=
  match op state with
  | .done result state' => rel state state' ∧ post result state'
  | .blocked state' => rel state state' ∧ stuck state'
  | .halted _ => True

theorem Ends.pure [Std.Refl rel] {result : α} (hpost : post result state) :
    Ends (pure result : Op State Stop α) state rel stuck post := ⟨Std.Refl.refl state, hpost⟩

theorem Ends.gets [Std.Refl rel] {read : State → α} (hpost : post (read state) state) :
    Ends (Op.gets read : Op State Stop α) state rel stuck post := ⟨Std.Refl.refl state, hpost⟩

theorem Ends.modify {change : State → State} {post : Unit → State → Prop}
    (hrel : rel state (change state)) (hpost : post () (change state)) :
    Ends (Op.modify change : Op State Stop Unit) state rel stuck post := ⟨hrel, hpost⟩

theorem Ends.block [Std.Refl rel] (hstuck : stuck state) :
    Ends (Op.block : Op State Stop α) state rel stuck post := ⟨Std.Refl.refl state, hstuck⟩

theorem Ends.halt (reason : Stop) : Ends (Op.halt reason : Op State Stop α) state rel stuck post :=
  trivial

theorem Ends.bind [IsTrans State rel] (hfirst : Ends first state rel stuck post)
    (hnext : ∀ result state', rel state state' → post result state' →
      Ends (next result) state' rel stuck last) : Ends (first >>= next) state rel stuck last := by
  unfold Ends at hfirst ⊢
  rw [show (first >>= next) state = Op.bind first next state from rfl, Op.bind]
  cases hout : first state with
  | done result state' =>
    rw [hout] at hfirst
    have hrest := hnext result state' hfirst.1 hfirst.2
    unfold Ends at hrest
    dsimp only
    cases hout' : next result state' with
    | done _ state'' =>
      rw [hout'] at hrest
      exact ⟨IsTrans.trans _ _ _ hfirst.1 hrest.1, hrest.2⟩
    | blocked state'' =>
      rw [hout'] at hrest
      exact ⟨IsTrans.trans _ _ _ hfirst.1 hrest.1, hrest.2⟩
    | halted reason => trivial
  | blocked state' =>
    rw [hout] at hfirst
    exact hfirst
  | halted reason => trivial

theorem Ends.gets_bind {read : State → α} (hnext : Ends (next (read state)) state rel stuck last) :
    Ends (Op.gets read >>= next) state rel stuck last := hnext

theorem Ends.pure_bind {result : α} (hnext : Ends (next result) state rel stuck last) :
    Ends (Pure.pure result >>= next) state rel stuck last := hnext

theorem Ends.modify_bind [IsTrans State rel] {change : State → State}
    {next : Unit → Op State Stop β} (hrel : rel state (change state))
    (hnext : Ends (next ()) (change state) rel stuck last) :
    Ends (Op.modify change >>= next) state rel stuck last :=
  by
  have hchange : Ends (Op.modify change : Op State Stop Unit) state rel stuck
      fun _ state' => state' = change state := ⟨hrel, rfl⟩
  exact hchange.bind fun _ _ _ hstate => hstate ▸ hnext

theorem Ends.mono (hends : Ends first state rel stuck post)
    (hrel : ∀ state', rel state state' → rel' state state')
    (hpost : ∀ result state', rel state state' → post result state' →
      post' result state') : Ends first state rel' stuck post' := by
  unfold Ends at *
  cases hout : first state with
  | done result state' =>
    rw [hout] at hends
    exact ⟨hrel _ hends.1, hpost _ _ hends.1 hends.2⟩
  | blocked state' =>
    rw [hout] at hends
    exact ⟨hrel _ hends.1, hends.2⟩
  | halted reason => trivial

def Returns (op : Op State Stop α) (state : State) (post : α → State → Prop) : Prop :=
  ∃ result state', op state = .done result state' ∧ post result state'

theorem Returns.intro {result : α} {state' : State}
    (hdone : first state = .done result state') (hpost : post result state') :
    Returns first state post := ⟨result, state', hdone, hpost⟩

theorem Returns.step {result : α} {state' : State} (hdone : first state = .done result state')
    (hnext : Returns (next result) state' last) : Returns (first >>= next) state last := by
  obtain ⟨result', state'', hdone', hlast⟩ := hnext
  refine ⟨result', state'', ?_, hlast⟩
  change Op.bind first next state = _
  rw [Op.bind, hdone]
  exact hdone'

/-- What holds if the operation returns; it does not block, and it stops the machine for
these reasons only. -/
def Yields (op : Op State Stop α) (state : State) (halts : Stop → Prop)
    (post : α → State → Prop) : Prop :=
  match op state with
  | .done result state' => post result state'
  | .blocked _ => False
  | .halted reason => halts reason

variable {halts halts' : Stop → Prop}

theorem Yields.pure {result : α} (hpost : post result state) :
    Yields (pure result : Op State Stop α) state halts post := hpost

theorem Yields.modify {change : State → State} {post : Unit → State → Prop}
    (hpost : post () (change state)) :
    Yields (Op.modify change : Op State Stop Unit) state halts post := hpost

theorem Yields.halt {reason : Stop} (hreason : halts reason) :
    Yields (Op.halt reason : Op State Stop α) state halts post := hreason

theorem Yields.gets_bind {read : State → α} (hnext : Yields (next (read state)) state halts last) :
    Yields (Op.gets read >>= next) state halts last := hnext

theorem Yields.modify_bind {change : State → State} {next : Unit → Op State Stop β}
    (hnext : Yields (next ()) (change state) halts last) :
    Yields (Op.modify change >>= next) state halts last := hnext

theorem Yields.bind (hfirst : Yields first state halts post)
    (hnext : ∀ result state', post result state' → Yields (next result) state' halts last) :
    Yields (first >>= next) state halts last := by
  unfold Yields at hfirst ⊢
  rw [show (first >>= next) state = Op.bind first next state from rfl, Op.bind]
  cases hout : first state with
  | done result state' =>
    rw [hout] at hfirst
    exact hnext result state' hfirst
  | blocked state' =>
    rw [hout] at hfirst
    exact hfirst.elim
  | halted reason =>
    rw [hout] at hfirst
    exact hfirst

theorem Yields.mono (hyields : Yields first state halts post)
    (hhalts : ∀ reason, halts reason → halts' reason)
    (hpost : ∀ result state', post result state' → post' result state') :
    Yields first state halts' post' := by
  unfold Yields at *
  cases hout : first state with
  | done result state' =>
    rw [hout] at hyields
    exact hpost _ _ hyields
  | blocked state' =>
    rw [hout] at hyields
    exact hyields
  | halted reason =>
    rw [hout] at hyields
    exact hhalts _ hyields

theorem Yields.of_done (hyields : Yields first state halts post) {result : α}
    {state' : State} (hdone : first state = .done result state') : post result state' := by
  unfold Yields at hyields
  rwa [hdone] at hyields

/-- An operation that stops for no reason returns. -/
theorem Yields.returns (hyields : Yields first state (fun _ => False) post) :
    Returns first state post := by
  unfold Yields at hyields
  cases hout : first state with
  | done result state' =>
    rw [hout] at hyields
    exact ⟨result, state', hout, hyields⟩
  | blocked state' =>
    rw [hout] at hyields
    exact hyields.elim
  | halted reason =>
    rw [hout] at hyields
    exact hyields.elim

/-- What holds if the operation returns. -/
def Leaves (op : Op State Stop α) (state : State) (post : α → State → Prop) : Prop :=
  ∀ result state', op state = .done result state' → post result state'

theorem Leaves.pure {result : α} (hpost : post result state) :
    Leaves (pure result : Op State Stop α) state post := by
  intro result' state' hdone
  cases hdone
  exact hpost

theorem Leaves.modify {change : State → State} {post : Unit → State → Prop}
    (hpost : post () (change state)) :
    Leaves (Op.modify change : Op State Stop Unit) state post := by
  intro result' state' hdone
  cases hdone
  exact hpost

theorem Leaves.block : Leaves (Op.block : Op State Stop α) state post :=
  nofun

theorem Leaves.halt {reason : Stop} : Leaves (Op.halt reason : Op State Stop α) state post :=
  nofun

theorem Leaves.gets_bind {read : State → α} (hnext : Leaves (next (read state)) state last) :
    Leaves (Op.gets read >>= next) state last := hnext

theorem Leaves.bind (hfirst : Leaves first state post)
    (hnext : ∀ result state', post result state' → Leaves (next result) state' last) :
    Leaves (first >>= next) state last := by
  intro result final hdone
  obtain ⟨value, middle, hvalue, hlast⟩ := Op.bind_eq_done.1 hdone
  exact hnext value middle (hfirst value middle hvalue) result final hlast

theorem Ends.of_done (hends : Ends first state rel stuck post) {result : α} {state' : State}
    (hdone : first state = .done result state') : rel state state' ∧ post result state' := by
  unfold Ends at hends
  rwa [hdone] at hends

/-- Two contracts of one operation. -/
theorem Ends.and (hends : Ends first state rel stuck post) (hleaves : Leaves first state post') :
    Ends first state rel stuck fun result state' => post result state' ∧ post' result state' := by
  unfold Ends at hends ⊢
  cases hout : first state with
  | done result state' =>
    rw [hout] at hends
    exact ⟨hends.1, hends.2, hleaves result state' hout⟩
  | blocked state' =>
    rw [hout] at hends
    exact hends
  | halted reason => trivial

end Rules

end Xv6Users.Contracts
