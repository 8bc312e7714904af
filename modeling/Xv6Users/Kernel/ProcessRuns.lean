import Xv6Users.Kernel.Processes

/-!
# Runs of the process table and `kill`

`kill` looks for a pid in all slots, also in those that hold no process: such a slot has
pid 0, or the pid of a `fork` that failed in it.  A mark that is set there, or on a child
whose `fork` fails later, is found by the next process that gets the slot.
-/

namespace Xv6Users.ProcessRuns

open Processes Option

section Runs

variable {allowed : Table → Action → Prop} {table table' : Table}

def StepIf (allowed : Table → Action → Prop) (table table' : Table) : Prop :=
  ∃ action, allowed table action ∧ step table action = some table'

/-- The tables of the runs from `userinit` in which every step is allowed. -/
def ReachedIf (allowed : Table → Action → Prop) (table : Table) : Prop :=
  ∃ start ∈ userinit, Relation.ReflTransGen (StepIf allowed) start table

theorem ReachedIf.invariant {good : Table → Prop} (hinit : ∀ start ∈ userinit, good start)
    (hstep : ∀ {table action table'}, good table → allowed table action →
      step table action = some table' → good table')
    (hreached : ReachedIf allowed table) : good table := by
  obtain ⟨start, hstart, hrun⟩ := hreached
  induction hrun with
  | refl => exact hinit start hstart
  | tail _ hlast ih =>
    obtain ⟨action, hallowed, haction⟩ := hlast
    exact hstep ih hallowed haction

def runs (allowed : Table → Action → Prop) (table : Table) : List Action → Prop
  | [] => True
  | action :: rest => allowed table action ∧
      ∀ next ∈ step table action, runs allowed next rest

def decideRuns [∀ table, DecidablePred (allowed table)] (table : Table) :
    (actions : List Action) → Decidable (runs allowed table actions)
  | [] => .isTrue trivial
  | action :: rest =>
    have (next : Table) : Decidable (runs allowed next rest) := decideRuns next rest
    inferInstanceAs (Decidable (_ ∧ ∀ next ∈ step table action, _))

instance [∀ table, DecidablePred (allowed table)] (table : Table) :
    DecidablePred (runs allowed table) := decideRuns table

theorem ReachedIf.of_foldlM {actions : List Action} {start : Table} (hstart : start ∈ userinit)
    (hallowed : runs allowed start actions) (hrun : actions.foldlM step start = some table) :
    ReachedIf allowed table := by
  refine ⟨start, hstart, ?_⟩
  clear hstart
  induction actions generalizing start with
  | nil =>
    cases hrun
    exact .refl
  | cons action rest ih =>
    obtain ⟨middle, hstep, hrest⟩ := bind_eq_some_iff.1 hrun
    exact .head ⟨action, hallowed.1, hstep⟩ (ih (hallowed.2 middle hstep) hrest)

end Runs

/-- The first slot of the table for which a condition holds. -/
theorem find_slots {condition : Slot → Bool} {slot : Slot} :
    slots.find? condition = some slot ↔
      condition slot = true ∧ ∀ other < slot, condition other = false := by
  rw [List.find?_eq_some_iff_getElem]
  apply and_congr_right
  intro _
  constructor
  · rintro ⟨index, hindex, rfl, hbefore⟩ other hother
    have hlt : (other : ℕ) < index := by
      have hvalue := Fin.lt_def.1 hother
      simpa [slots] using hvalue
    have hfalse := hbefore other hlt
    simpa [slots] using hfalse
  · intro hbefore
    refine ⟨slot, by simp [slots], by simp [slots], ?_⟩
    intro index hindex
    have hfalse := hbefore ⟨index, hindex.trans slot.2⟩ hindex
    simpa [slots] using hfalse

/-! ## What `kill` hits -/

/-- What `kill` returns. -/
def killResult (table : Table) (pid : ℤ) : ℤ :=
  match slots.find? fun slot => (table.proc slot).pid = pid with
  | none => -1
  | some _ => 0

/-- What `kill` does to the process it finds. -/
def mark (proc : Proc) : Proc :=
  { proc with
    killed := true
    state := if proc.state = .sleeping then .runnable else proc.state }

/-- A slot without a process has the pid, and no slot before it does. -/
def Stale (table : Table) (pid : ℤ) : Prop :=
  ∃ slot, (table.proc slot).state = .unused ∧ (table.proc slot).pid = pid ∧
    ∀ other < slot, (table.proc other).pid ≠ pid
  deriving Decidable

/-- `kill` marks one process in use with that pid and returns 0, or there is none and it
returns -1 and changes nothing. -/
def KillsLive (table : Table) (pid : ℤ) : Prop :=
  (∃ slot, (table.proc slot).state ≠ .unused ∧ (table.proc slot).pid = pid ∧
      killResult table pid = 0 ∧ kill table pid = table.modify slot mark) ∨
    ((∀ slot, (table.proc slot).state ≠ .unused → (table.proc slot).pid ≠ pid) ∧
      killResult table pid = -1 ∧ kill table pid = table)

/-- Slots without a process are not marked. -/
def Unmarked (table : Table) : Prop :=
  ∀ slot, (table.proc slot).state = .unused → (table.proc slot).killed = false
  deriving Decidable

section Kill

variable {table table' : Table} {slot : Slot} {pid : ℤ}

theorem kill_none (hnone : slots.find? (fun slot => (table.proc slot).pid = pid) = none) :
    killResult table pid = -1 ∧ kill table pid = table := by
  rw [killResult, kill, hnone]
  exact ⟨rfl, rfl⟩

theorem kill_some (hsome : slots.find? (fun slot => (table.proc slot).pid = pid) = some slot) :
    killResult table pid = 0 ∧ kill table pid = table.modify slot mark := by
  rw [killResult, kill, hsome]
  exact ⟨rfl, rfl⟩

theorem proc_modify_self (change : Proc → Proc) :
    (table.modify slot change).proc slot = change (table.proc slot) := Function.update_self ..

theorem proc_modify_of_ne {other : Slot} (hother : other ≠ slot) (change : Proc → Proc) :
    (table.modify slot change).proc other = table.proc other := Function.update_of_ne hother ..

/-- `kill` is right exactly where no slot without a process comes first. -/
theorem Unmarked.killsLive_iff (hunmarked : Unmarked table) :
    KillsLive table pid ↔ ¬ Stale table pid := by
  cases hfind : slots.find? fun slot => (table.proc slot).pid = pid with
  | none =>
    obtain ⟨hresult, hkill⟩ := kill_none hfind
    have hnobody : ∀ slot, (table.proc slot).pid ≠ pid := by
      intro slot
      have hslot := List.find?_eq_none.1 hfind slot (List.mem_finRange slot)
      simpa using hslot
    refine iff_of_true (.inr ⟨fun slot _ => hnobody slot, hresult, hkill⟩) ?_
    rintro ⟨slot, -, hpid, -⟩
    exact hnobody slot hpid
  | some found =>
    obtain ⟨hresult, hkill⟩ := kill_some hfind
    obtain ⟨hpid, hbefore⟩ := find_slots.1 hfind
    rw [decide_eq_true_eq] at hpid
    by_cases hstate : (table.proc found).state = .unused
    · refine iff_of_false ?_ (not_not.2 ⟨found, hstate, hpid, ?_⟩)
      · -- The mark is on a slot that was not marked.
        rintro (⟨slot, huse, -, -, hother⟩ | ⟨-, hminus, -⟩)
        · have hne : found ≠ slot := by
            rintro rfl
            exact huse hstate
          have hsame := congrArg (fun table => (table.proc found).killed)
            (hkill.symm.trans hother)
          rw [proc_modify_self, proc_modify_of_ne hne, hunmarked found hstate] at hsame
          cases hsame
        · rw [hresult] at hminus
          cases hminus
      · intro other hother
        simpa using hbefore other hother
    · refine iff_of_true (.inl ⟨found, hstate, hpid, hresult, hkill⟩) ?_
      rintro ⟨slot, hunused, hsame, hfirst⟩
      obtain hlt | heq | hgt := lt_trichotomy slot found
      · have hnot := hbefore slot hlt
        rw [decide_eq_false_iff_not] at hnot
        exact hnot hsame
      · exact hstate (heq ▸ hunused)
      · exact hfirst found hgt hpid

/-! ## Steps that keep slots without a process unmarked -/

/-- A step that is possible under a condition. -/
theorem of_guard {condition : Prop} [Decidable condition] {value result : Table}
    (hsome : (if condition then some value else none) = some result) :
    condition ∧ value = result := by
  obtain ⟨hcondition, hvalue⟩ := ite_none_right_eq_some.1 hsome
  exact ⟨hcondition, some.inj hvalue⟩

section

variable (hunmarked : Unmarked table)

include hunmarked

theorem Unmarked.goto (slot : Slot) (control : Control) : Unmarked (table.goto slot control) :=
  hunmarked

theorem Unmarked.modify {change : Proc → Proc}
    (hchange : (change (table.proc slot)).state = .unused →
      (change (table.proc slot)).killed = false) : Unmarked (table.modify slot change) := by
  intro other hstate
  by_cases hother : other = slot
  · subst hother
    rw [proc_modify_self] at hstate ⊢
    exact hchange hstate
  · rw [proc_modify_of_ne hother] at hstate ⊢
    exact hunmarked other hstate

theorem Unmarked.wakeup1 (chan : Option Chan) : Unmarked (wakeup1 chan table) := by
  intro slot hstate
  rw [Processes.wakeup1] at hstate ⊢
  dsimp only at hstate ⊢
  split_ifs at hstate ⊢ with hsleeps
  exact hunmarked slot hstate

theorem Unmarked.reparent (curproc slot : Slot) : Unmarked (reparent curproc table slot) := by
  have hparent : Unmarked (table.modify slot fun proc =>
      { proc with parent := some table.initproc }) := hunmarked.modify (hunmarked slot)
  rw [Processes.reparent]
  split_ifs with hchild
  · dsimp only
    split_ifs
    · exact hparent.wakeup1 _
    · exact hparent
  · exact hunmarked

theorem Unmarked.reparent_all (curproc : Slot)
    (list : List Slot) : Unmarked (list.foldl (Processes.reparent curproc) table) := by
  induction list generalizing table with
  | nil => exact hunmarked
  | cons slot rest ih => exact ih (hunmarked.reparent curproc slot)

theorem Unmarked.wait (curproc : Slot) : Unmarked (wait table curproc) := by
  rw [Processes.wait]
  split
  · exact (hunmarked.modify (by exact fun _ => rfl)).goto _ _
  · split_ifs
    · exact hunmarked
    · exact (hunmarked.modify (by rintro ⟨⟩)).goto _ _

theorem Unmarked.kill (hstale : ¬ Stale table pid) : Unmarked (kill table pid) := by
  cases hunmarked.killsLive_iff.2 hstale with
  | inl hlive =>
    obtain ⟨slot, huse, -, -, hkill⟩ := hlive
    rw [hkill]
    apply hunmarked.modify
    intro hstate
    rw [mark] at hstate
    split_ifs at hstate
    exact absurd hstate huse
  | inr hnone =>
    rw [hnone.2.2]
    exact hunmarked

theorem Unmarked.fork (curproc : Slot) : Unmarked (fork table curproc) := by
  rw [Processes.fork]
  split
  · exact hunmarked
  next table' child halloc =>
    obtain ⟨-, hproc, -⟩ := allocproc_eq_some halloc
    have hembryo : Unmarked (table.modify child fun proc =>
        { proc with state := .embryo, pid := table.nextpid }) := hunmarked.modify (by rintro ⟨⟩)
    intro slot hstate
    rw [proc_goto, hproc] at hstate ⊢
    exact hembryo slot hstate

end

/-- `kill` is not called with the pid of a slot without a process, and no `fork` fails
whose child is marked. -/
def Clean (table : Table) : Action → Prop
  | .kill _ pid => ¬ Stale table pid
  | .forkFails slot => ∀ child ∈ table.filling slot false, (table.proc child).killed = false
  | _ => True

theorem Unmarked.step {action : Action} (hunmarked : Unmarked table)
    (hclean : Clean table action) (hstep : step table action = some table') : Unmarked table' := by
  cases action with
  | schedule slot =>
    obtain ⟨-, rfl⟩ := of_guard hstep
    exact hunmarked.modify (by rintro ⟨⟩)
  | yield slot =>
    obtain ⟨-, rfl⟩ := of_guard hstep
    exact hunmarked.modify (by rintro ⟨⟩)
  | sleep slot chan =>
    obtain ⟨-, rfl⟩ := of_guard hstep
    exact hunmarked.modify (by rintro ⟨⟩)
  | wakeup chan =>
    cases hstep
    exact hunmarked.wakeup1 _
  | fault slot =>
    obtain ⟨hat, rfl⟩ := of_guard hstep
    apply hunmarked.modify
    intro hstate
    exact absurd (hat.1.symm.trans hstate) (by decide)
  | kill slot pid =>
    obtain ⟨-, rfl⟩ := of_guard hstep
    exact hunmarked.kill hclean
  | setuid slot argument =>
    obtain ⟨-, rfl⟩ := of_guard hstep
    cases argument with
    | none => exact hunmarked
    | some uid =>
      rw [Processes.setuid]
      split_ifs
      · exact hunmarked
      · exact hunmarked.modify (by exact hunmarked slot)
  | exec slot path =>
    obtain ⟨-, rfl⟩ := of_guard hstep
    cases path with
    | none => exact hunmarked
    | some path =>
      rw [Processes.exec]
      exact hunmarked.modify (by exact hunmarked slot)
  | fork slot =>
    obtain ⟨-, rfl⟩ := of_guard hstep
    exact hunmarked.fork slot
  | forkFails slot =>
    obtain ⟨child, hfilling, rfl⟩ := map_eq_some_iff.1 hstep
    exact (hunmarked.modify (by exact fun _ => hclean child hfilling)).goto _ _
  | forkCopy slot =>
    obtain ⟨child, -, rfl⟩ := map_eq_some_iff.1 hstep
    exact (hunmarked.modify (by exact hunmarked child)).goto _ _
  | forkReturn slot =>
    obtain ⟨child, -, rfl⟩ := map_eq_some_iff.1 hstep
    exact ((hunmarked.modify (by rintro ⟨⟩)).goto _ _).goto _ _
  | exit slot =>
    obtain ⟨-, rfl⟩ := of_guard hstep
    exact hunmarked
  | exitLocked slot =>
    obtain ⟨-, rfl⟩ := of_guard hstep
    have hwoken := (hunmarked.wakeup1 ((table.proc slot).parent.map .proc)).reparent_all
      slot slots
    exact (hwoken.modify (by rintro ⟨⟩)).goto _ _
  | wait slot =>
    obtain ⟨-, rfl⟩ := of_guard hstep
    exact hunmarked.wait slot

theorem unmarked_userinit : ∀ table ∈ userinit, Unmarked table := by
  decide +kernel

end Kill

instance (table : Table) : DecidablePred (Clean table)
  | .kill _ pid => inferInstanceAs (Decidable (¬ Stale table pid))
  | .forkFails slot => inferInstanceAs (Decidable (∀ child ∈ table.filling slot false, _))
  | .schedule _ | .yield _ | .sleep _ _ | .wakeup _ | .fault _ | .setuid _ _ | .exec _ _
  | .fork _ | .forkCopy _ | .forkReturn _ | .exit _ | .exitLocked _ | .wait _ => .isTrue trivial

def killRun : List Action :=
  [.schedule 0, .fork 0, .forkCopy 0, .forkReturn 0, .kill 0 2]

end Xv6Users.ProcessRuns
