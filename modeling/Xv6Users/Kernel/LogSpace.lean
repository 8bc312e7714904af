import Xv6Users.Kernel.DiskLog

/-!
# Room in the log

Operations of several processes share one transaction.  `begin_op` reserves
`MAXOPBLOCKS` entries of the `LOGSIZE` that the header has, but of the `LOGSIZE`
blocks that `mkfs` gives to the log one is the header, and `log_write` refuses a
full log also when the block is already listed.
-/

namespace Xv6Users.LogSpace

open DiskLog List
open Inodes (maxOpBlocks logSize)

/-- A call by an operation, or the end of a commit. -/
inductive Action where
  | beginOp (op : ℕ)
  | logWrite (op blockno : ℕ)
  | endOp (op : ℕ)
  | commitDone
  deriving DecidableEq

/-- The log and, for every operation in progress, the blocks it has logged. -/
structure Space where
  log : Log
  ops : List (ℕ × List ℕ)
  deriving DecidableEq

variable {result : Except String Space}

def initial : Space :=
  ⟨⟨0, false, []⟩, []⟩

def setBlocks (ops : List (ℕ × List ℕ)) (op : ℕ) (blocks : List ℕ) : List (ℕ × List ℕ) :=
  ops.map fun entry => if entry.1 = op then (op, blocks) else entry

/-- `none` where the action is not possible: the caller waits in `begin_op`, the
call is not between `begin_op` and `end_op`, or the operation would log more
than `MAXOPBLOCKS` distinct blocks. -/
def step (space : Space) : Action → Option (Except String Space)
  | .beginOp op =>
    match space.ops.lookup op with
    | some _ => none
    | none => (beginOp space.log).map fun log => .ok ⟨log, (op, []) :: space.ops⟩
  | .logWrite op blockno =>
    match space.ops.lookup op with
    | none => none
    | some blocks =>
      let blocks := absorb blocks blockno
      if blocks.length ≤ maxOpBlocks then
        some ((logWrite logSize space.log blockno).map fun log =>
          ⟨log, setBlocks space.ops op blocks⟩)
      else none
  | .endOp op =>
    match space.ops.lookup op with
    | none => none
    | some _ => some ((endOp space.log).map fun result =>
      ⟨result.1, space.ops.eraseP fun entry => op == entry.1⟩)
  | .commitDone =>
    if space.log.committing then
      some (.ok { space with log := { space.log with lh := [], committing := false } })
    else none

def run : List Action → Space → Option (Except String Space)
  | [], space => some (.ok space)
  | action :: rest, space =>
    match step space action with
    | none => none
    | some (.error message) => some (.error message)
    | some (.ok space') => run rest space'

/-- The blocks named by the calls since the last commit, after one more action. -/
def named (blocks : List ℕ) : Action → List ℕ
  | .logWrite _ blockno => absorb blocks blockno
  | .commitDone => []
  | _ => blocks

/-- A `log_write` is called when the earlier calls named few enough blocks. -/
def HasRoom (blocks : List ℕ) : Action → Prop
  | .logWrite _ _ => blocks.length + 2 ≤ logSize
  | _ => True

/-- Every call of an interleaving has room, after calls that named `blocks`. -/
def Roomy : List ℕ → List Action → Prop
  | _, [] => True
  | blocks, action :: rest => HasRoom blocks action ∧ Roomy (named blocks action) rest

/-- No panic, and the header has room for all entries. -/
def Fits (result : Option (Except String Space)) : Prop :=
  ∃ space, result = some (.ok space) ∧ space.log.lh.length ≤ logSize

/-- The counter is the number of operations, and a commit has none. -/
structure Consistent (space : Space) : Prop where
  outstanding : space.log.outstanding = space.ops.length
  committing : space.log.committing = true → space.ops = []
  room : space.log.lh.length ≤ logSize

section Steps

variable {space space' : Space} {op blockno : ℕ} {blocks : List ℕ}

theorem ops_pos (hop : space.ops.lookup op = some blocks) : 0 < space.ops.length := by
  apply length_pos_iff.2
  intro hnil
  rw [hnil] at hop
  cases hop

section

variable (hspace : Consistent space)

include hspace

theorem not_committing
    (hop : space.ops.lookup op = some blocks) : space.log.committing = false := by
  apply Bool.eq_false_iff.2
  intro hcommitting
  have hpos := ops_pos hop
  rw [hspace.committing hcommitting] at hpos
  exact Nat.lt_irrefl 0 hpos

theorem step_beginOp (hstep : step space (.beginOp op) = some result) :
    ∃ space', result = .ok space' ∧ Consistent space' ∧ space'.log.lh = space.log.lh := by
  simp only [step] at hstep
  split at hstep
  case h_1 => cases hstep
  case h_2 hfree =>
    obtain ⟨log, hbegin, rfl⟩ := Option.map_eq_some_iff.1 hstep
    unfold beginOp at hbegin
    split at hbegin
    case isTrue => cases hbegin
    case isFalse hidle =>
      split at hbegin
      case isTrue => cases hbegin
      case isFalse =>
        cases hbegin
        refine ⟨_, rfl, ⟨?_, fun h => absurd h hidle, hspace.room⟩, rfl⟩
        exact congrArg (· + 1) hspace.outstanding

theorem step_logWrite (hstep : step space (.logWrite op blockno) = some result) :
    (space.log.lh.length + 2 ≤ logSize ∧ ∃ space', result = .ok space' ∧
        Consistent space' ∧ space'.log.lh = absorb space.log.lh blockno) ∨
      ¬ space.log.lh.length + 2 ≤ logSize ∧ ∃ message, result = .error message := by
  simp only [step] at hstep
  split at hstep
  case h_1 => cases hstep
  case h_2 blocks hop =>
    split at hstep
    case isFalse => cases hstep
    case isTrue =>
      cases hstep
      by_cases hroom : space.log.lh.length + 2 ≤ logSize
      · have hopen : ¬ space.log.outstanding < 1 := by
          rw [hspace.outstanding]
          exact Nat.not_lt.2 (ops_pos hop)
        have hnotFull : ¬ (space.log.lh.length ≥ logSize ∨
            space.log.lh.length + 1 ≥ logSize) := by omega
        rw [logWrite, if_neg hnotFull, if_neg hopen]
        refine .inl ⟨hroom, _, rfl, ⟨?_, ?_, ?_⟩, rfl⟩
        · simpa [setBlocks] using hspace.outstanding
        · intro hcommitting
          rw [not_committing hspace hop] at hcommitting
          cases hcommitting
        · exact (length_absorb space.log.lh blockno).trans (by omega)
      · have hfull : space.log.lh.length ≥ logSize ∨ space.log.lh.length + 1 ≥ logSize := by omega
        rw [logWrite, if_pos hfull]
        exact .inr ⟨hroom, _, rfl⟩

theorem step_endOp (hstep : step space (.endOp op) = some result) :
    ∃ space', result = .ok space' ∧ Consistent space' ∧ space'.log.lh = space.log.lh := by
  simp only [step] at hstep
  split at hstep
  case h_1 => cases hstep
  case h_2 blocks hop =>
    cases hstep
    have hidle := not_committing hspace hop
    have hlength : (space.ops.eraseP fun entry => op == entry.1).length =
        space.ops.length - 1 := by
      rw [length_eraseP, if_pos]
      apply any_eq_true.2
      apply lookup_isSome_iff.1
      rw [hop]
      rfl
    simp only [endOp, hidle, hspace.outstanding, Bool.false_eq_true, if_false]
    split
    case isTrue hlast =>
      refine ⟨_, rfl, ⟨?_, fun _ => ?_, hspace.room⟩, rfl⟩
      · exact hlength.symm
      · exact length_eq_zero_iff.1 (hlength.trans hlast)
    case isFalse =>
      exact ⟨_, rfl, ⟨hlength.symm, by simp, hspace.room⟩, rfl⟩

/-- Only a `log_write` without room panics. -/
theorem step_spec {action : Action} (hstep : step space action = some result) :
    (HasRoom space.log.lh action ∧ ∃ space', result = .ok space' ∧
        Consistent space' ∧ space'.log.lh = named space.log.lh action) ∨
      ¬ HasRoom space.log.lh action ∧ ∃ message, result = .error message := by
  cases action with
  | beginOp op => exact .inl ⟨trivial, step_beginOp hspace hstep⟩
  | logWrite op blockno => exact step_logWrite hspace hstep
  | endOp op => exact .inl ⟨trivial, step_endOp hspace hstep⟩
  | commitDone =>
    simp only [step] at hstep
    split at hstep
    case isFalse => cases hstep
    case isTrue =>
      cases hstep
      exact .inl ⟨trivial, _, rfl, ⟨hspace.outstanding, by simp, by simp⟩, rfl⟩

end

theorem fits_iff_roomy (actions : List Action) (hspace : Consistent space)
    (hrun : (run actions space).isSome) :
    Fits (run actions space) ↔ Roomy space.log.lh actions := by
  induction actions generalizing space with
  | nil => exact ⟨fun _ => trivial, fun _ => ⟨space, rfl, hspace.room⟩⟩
  | cons action rest ih =>
    unfold run at hrun ⊢
    cases hstep : step space action with
    | none => simp [hstep] at hrun
    | some result =>
      rw [hstep] at hrun
      rcases step_spec hspace hstep with
        ⟨hroom, space', rfl, hspace', hlh⟩ | ⟨hfull, message, rfl⟩
      · have hrest := ih hspace' hrun
        rw [hlh] at hrest
        exact hrest.trans (and_iff_right hroom).symm
      · constructor
        · rintro ⟨_, herror, _⟩
          cases herror
        · intro hroomy
          exact absurd hroomy.1 hfull

end Steps

theorem initial_consistent : Consistent initial :=
  ⟨rfl, by simp [initial], by simp [initial]⟩

/-- An interleaving of operations that log at most `MAXOPBLOCKS` blocks each runs
without a panic exactly when no `log_write` comes after `LOGSIZE - 1` different
blocks. -/
theorem reservation_suffices_iff (actions : List Action) (hrun : (run actions initial).isSome) :
    Fits (run actions initial) ↔ Roomy [] actions := fits_iff_roomy actions initial_consistent hrun

def twoFull : List Action :=
  [.beginOp 0, .beginOp 1] ++ (range 20).map (fun blockno => .logWrite (blockno / 10) blockno) ++
    [.endOp 0, .endOp 1, .commitDone]

/-- Three operations that fill their reservation, which `begin_op` admits. -/
def threeFull : List Action :=
  [.beginOp 0, .beginOp 1, .beginOp 2] ++
    (range 30).map (fun blockno => .logWrite (blockno / 10) blockno)

theorem two_full_fit : Roomy [] twoFull ∧ Fits (run twoFull initial) := by
  have hroomy : Roomy [] twoFull := by
    simp [twoFull, Roomy, HasRoom, named, absorb, range, range.loop, logSize, maxOpBlocks]
  exact ⟨hroomy, (reservation_suffices_iff twoFull (by decide)).2 hroomy⟩

theorem three_full_panic :
    run threeFull initial = some (.error "too big a transaction") := by
  decide

end Xv6Users.LogSpace
