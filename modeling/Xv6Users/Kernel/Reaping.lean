import Xv6Users.Core.Runs
import Xv6Users.Kernel.ProcessTree

/-!
# What `wait` returns

The processes of a run are counted in the order of their forks, so that a process is told
from the next one in its slot.  Each one that has exited is returned once, to its parent.
The pids are those of the source: after 2^32 forks -1 is the pid of a process.
-/

namespace Xv6Users.Reaping

open Processes ProcessRuns ProcessTree List Option Function
open Runs (reflTransGen_of_foldlM)

section Tenants

variable {table table' : Table} {curproc slot child : Slot} {action : Action}

/-- A slot in use was in use before, by the same process, or `fork` took it. -/
def Tenant (table : Table) (action : Action) (table' : Table) (slot : Slot) : Prop :=
  ((table.proc slot).state ≠ .unused ∧ (table'.proc slot).pid = (table.proc slot).pid) ∨
    ((table.proc slot).state = .unused ∧ (table'.proc slot).pid = table.nextpid ∧
      ∃ curproc, action = .fork curproc ∧ table'.control curproc = .forking slot false)

theorem tenant_of_kind (hkind : kind (table'.proc slot).state = kind (table.proc slot).state)
    (hpid : (table'.proc slot).pid = (table.proc slot).pid)
    (huse : (table'.proc slot).state ≠ .unused) : Tenant table action table' slot := by
  refine .inl ⟨?_, hpid⟩
  rw [Ne, ← kind_unused] at huse ⊢
  rwa [← hkind]

/-- A step that edits a slot in use and leaves its pid. -/
theorem tenant_of_edits {proc : Proc} {control : Control}
    (hedits : Edits table child proc curproc control table')
    (hbefore : (table.proc child).state ≠ .unused)
    (hpid : proc.state ≠ .unused → proc.pid = (table.proc child).pid)
    (huse : (table'.proc slot).state ≠ .unused) : Tenant table action table' slot := by
  have hproc := hedits.procs slot
  by_cases hslot : slot = child
  · subst hslot
    rw [if_pos rfl] at hproc
    rw [hproc] at huse
    exact .inl ⟨hbefore, by rw [hproc, hpid huse]⟩
  · rw [if_neg hslot] at hproc
    exact .inl ⟨by rwa [hproc] at huse, by rw [hproc]⟩

theorem filled_used (htree : Tree table) {copied : Bool}
    (hfilling : table.filling curproc copied = some child) :
    (table.proc child).state ≠ .unused := by
  have hfresh := (htree.forking (filling_eq_some hfilling).2).1
  rw [kind_embryo] at hfresh
  rw [hfresh]
  decide

theorem tenant_wait (hstate : (table.proc curproc).state = .running)
    (huse : ((wait table curproc).proc slot).state ≠ .unused) :
    Tenant table action (wait table curproc) slot := by
  have hrunning : (table.proc curproc).state ≠ .unused := by
    rw [hstate]
    decide
  cases hfound : reapable table curproc with
  | some child =>
    rw [wait_some hfound] at huse ⊢
    apply tenant_of_edits (edits_goto ..) ?_ (by exact fun h => absurd rfl h) huse
    rw [(reapable_eq_some hfound).2]
    decide
  | none =>
    rw [wait_none hfound] at huse ⊢
    split_ifs at huse ⊢
    · exact tenant_of_edits (edits_only_goto ..) hrunning (by exact fun _ => rfl) huse
    · exact tenant_of_edits (edits_goto ..) hrunning (by exact fun _ => rfl) huse

theorem tenant_step (htree : Tree table) (hstep : Processes.step table action = some table')
    (huse : (table'.proc slot).state ≠ .unused) : Tenant table action table' slot := by
  cases action with
  | schedule _ | yield _ | sleep _ _ | wakeup _ | fault _ | kill _ _ | setuid _ _ | exec _ _ =>
    have hcalm := calm_step (by trivial) hstep
    exact tenant_of_kind (hcalm.kind slot) (hcalm.pid slot) huse
  | fork curproc =>
    obtain ⟨hat, rfl⟩ := of_guard hstep
    obtain ⟨-, hsame⟩ | ⟨child, -, hunused, hedits⟩ := fork_cases table curproc
    · rw [hsame] at huse ⊢
      exact .inl ⟨huse, rfl⟩
    · have hproc := hedits.procs slot
      by_cases hslot : slot = child
      · subst hslot
        rw [if_pos rfl] at hproc
        refine .inr ⟨hunused, by rw [hproc], curproc, rfl, ?_⟩
        rw [hedits.controls, if_pos rfl]
      · rw [if_neg hslot] at hproc
        exact .inl ⟨by rwa [hproc] at huse, by rw [hproc]⟩
  | forkFails curproc =>
    obtain ⟨child, hfilling, rfl⟩ := map_eq_some_iff.1 hstep
    exact tenant_of_edits (edits_goto ..) (filled_used htree hfilling) (by exact fun _ => rfl) huse
  | forkCopy curproc =>
    obtain ⟨child, hfilling, rfl⟩ := map_eq_some_iff.1 hstep
    exact tenant_of_edits (edits_goto ..) (filled_used htree hfilling) (by exact fun _ => rfl) huse
  | forkReturn curproc =>
    obtain ⟨child, hfilling, rfl⟩ := map_eq_some_iff.1 hstep
    exact tenant_of_edits (edits_forkReturn htree (filling_eq_some hfilling).2)
      (filled_used htree hfilling) (by exact fun _ => rfl) huse
  | exit curproc =>
    obtain ⟨hexits, rfl⟩ := of_guard hstep
    exact .inl ⟨huse, rfl⟩
  | exitLocked curproc =>
    obtain ⟨hat, rfl⟩ := of_guard hstep
    obtain ⟨-, -, -, hkind, hpid, -, -⟩ := exits_exitLocked table curproc
    refine .inl ⟨?_, hpid slot⟩
    intro hunused
    have hstate := hat.1
    have hsame := @kind_unused ((exitLocked table curproc).proc slot).state
    grind
  | wait curproc =>
    obtain ⟨hat, rfl⟩ := of_guard hstep
    exact tenant_wait (hat.elim And.left And.left) huse

end Tenants

/-- What a call of `wait` returned: a process, counted in the order of the forks, and the
caller. -/
structure Return where
  process : ℕ
  caller : Slot
  deriving DecidableEq

/-- The table, which process is in a slot, how many there were, and what `wait` has
returned. -/
structure Census where
  table : Table
  process : Slot → ℕ
  births : ℕ
  returned : List Return

/-- A new process gets the next number; `wait` notes which process it returns. -/
def Census.note (census : Census) (table' : Table) : Action → Census
  | .fork _ =>
    match forked census.table with
    | none => { census with table := table' }
    | some child =>
      { census with
        table := table'
        process := update census.process child census.births
        births := census.births + 1 }
  | .wait curproc =>
    match reapable census.table curproc with
    | none => { census with table := table' }
    | some child =>
      { census with
        table := table'
        returned := ⟨census.process child, curproc⟩ :: census.returned }
  | _ => { census with table := table' }

def Census.start (table : Table) : Census := ⟨table, fun _ => 0, 1, []⟩

/-- The runs from `userinit` with allowed steps, with their history. -/
inductive Counted (allowed : Table → Action → Prop) : Census → Prop where
  | start {table} : table ∈ userinit → Counted allowed (.start table)
  | step {census action table'} : Counted allowed census → allowed census.table action →
      Processes.step census.table action = some table' →
      Counted allowed (census.note table' action)

/-- What `wait` returns to its caller, if it does not sleep. -/
def waitResult (table : Table) (curproc : Slot) : Option ℤ :=
  match reapable table curproc with
  | some child => some (table.proc child).pid
  | none =>
    if (∀ slot, (table.proc slot).parent ≠ some curproc) ∨
        (table.proc curproc).killed then some (-1)
    else none

/-- Processes in use have a pid that is not the -1 of a failed call. -/
def Named (table : Table) : Prop :=
  ∀ slot, (table.proc slot).state ≠ .unused → (table.proc slot).pid ≠ -1

/-- `fork` is not called when -1 is the next pid. -/
def Numbered (table : Table) : Action → Prop
  | .fork _ => table.nextpid ≠ -1
  | _ => True

/-- The numbers of the processes are in order. -/
structure Census.Good (census : Census) : Prop where
  tree : Tree census.table
  named : Named census.table
  born : ∀ slot, (census.table.proc slot).state ≠ .unused → census.process slot < census.births
  distinct : ∀ left right, (census.table.proc left).state ≠ .unused →
    (census.table.proc right).state ≠ .unused → census.process left = census.process right →
      left = right
  past : ∀ entry ∈ census.returned, entry.process < census.births
  gone : ∀ entry ∈ census.returned, ∀ slot, (census.table.proc slot).state ≠ .unused →
    census.process slot ≠ entry.process
  once : (census.returned.map Return.process).Nodup

variable {state : ProcState}

section Census

variable {allowed : Table → Action → Prop} {census : Census} {table table' : Table}
  {curproc slot child : Slot} {action : Action}

theorem Named.step (hnamed : Named table) (htree : Tree table)
    (hnumbered : Numbered table action) (hstep : step table action = some table') :
    Named table' := by
  intro slot huse
  cases tenant_step htree hstep huse with
  | inl hsame =>
    rw [hsame.2]
    exact hnamed slot hsame.1
  | inr hnew =>
    obtain ⟨-, hpid, curproc, rfl, -⟩ := hnew
    rw [hpid]
    exact hnumbered

section

variable (hgood : census.Good) (htree : Tree table') (hnamed : Named table')

include hgood htree hnamed

/-- A step after which only processes of before are in use. -/
theorem Census.Good.keep (hkept : ∀ slot, (table'.proc slot).state ≠ .unused →
      (census.table.proc slot).state ≠ .unused) : Census.Good { census with table := table' } where
  tree := htree
  named := hnamed
  born slot huse := hgood.born slot (hkept slot huse)
  distinct left right hleft hright :=
    hgood.distinct left right (hkept left hleft) (hkept right hright)
  past := hgood.past
  gone entry hentry slot huse := hgood.gone entry hentry slot (hkept slot huse)
  once := hgood.once

theorem Census.Good.birth (hkept : ∀ slot ≠ child, (table'.proc slot).state ≠ .unused →
      (census.table.proc slot).state ≠ .unused) :
    Census.Good
      { census with
        table := table'
        process := update census.process child census.births
        births := census.births + 1 } where
  tree := htree
  named := hnamed
  born slot huse := by
    have hborn := hgood.born slot
    grind
  distinct left right hleft hright := by
    have hbornLeft := hgood.born left
    have hbornRight := hgood.born right
    have hdistinct := hgood.distinct left right
    grind
  past entry hentry := Nat.lt_succ_of_lt (hgood.past entry hentry)
  gone entry hentry slot huse := by
    have hpast := hgood.past entry hentry
    have hgone := hgood.gone entry hentry slot
    grind
  once := hgood.once

theorem Census.Good.reap (hbefore : (census.table.proc child).state ≠ .unused)
    (hafter : (table'.proc child).state = .unused)
    (hkept : ∀ slot, (table'.proc slot).state ≠ .unused →
      (census.table.proc slot).state ≠ .unused) :
    Census.Good
      { census with
        table := table'
        returned := ⟨census.process child, curproc⟩ :: census.returned } where
  tree := htree
  named := hnamed
  born slot huse := hgood.born slot (hkept slot huse)
  distinct left right hleft hright :=
    hgood.distinct left right (hkept left hleft) (hkept right hright)
  past entry hentry := by
    cases mem_cons.1 hentry with
    | inl hnew =>
      rw [hnew]
      exact hgood.born child hbefore
    | inr hold => exact hgood.past entry hold
  gone entry hentry slot huse := by
    cases mem_cons.1 hentry with
    | inl hnew =>
      rw [hnew]
      intro hsame
      have hslot := hgood.distinct slot child (hkept slot huse) hbefore hsame
      rw [hslot] at huse
      exact huse hafter
    | inr hold => exact hgood.gone entry hold slot (hkept slot huse)
  once := by
    rw [map_cons, nodup_cons]
    refine ⟨?_, hgood.once⟩
    intro hmem
    obtain ⟨entry, hentry, hsame⟩ := mem_map.1 hmem
    exact hgood.gone entry hentry child hbefore hsame.symm

end

theorem Census.Good.step (hgood : census.Good) (hnumbered : Numbered census.table action)
    (hstep : step census.table action = some table') : (census.note table' action).Good := by
  have htree := hgood.tree.step hstep
  have hnamed := hgood.named.step hgood.tree hnumbered hstep
  have htenant : ∀ slot, (table'.proc slot).state ≠ .unused →
      Tenant census.table action table' slot := fun _ => tenant_step hgood.tree hstep
  cases action with
  | fork curproc =>
    obtain ⟨-, hfork⟩ := of_guard hstep
    rw [Census.note]
    obtain ⟨hnone, hsame⟩ | ⟨child, hsome, -, hedits⟩ := fork_cases census.table curproc
    · rw [hnone]
      apply hgood.keep htree hnamed
      intro slot huse
      rwa [← hfork, hsame] at huse
    · rw [hsome]
      apply hgood.birth htree hnamed
      intro slot hslot huse
      rwa [← hfork, hedits.procs, if_neg hslot] at huse
  | wait curproc =>
    obtain ⟨-, hwait⟩ := of_guard hstep
    have hkept : ∀ slot, (table'.proc slot).state ≠ .unused →
        (census.table.proc slot).state ≠ .unused := by
      intro slot huse
      cases htenant slot huse with
      | inl hsame => exact hsame.1
      | inr hnew =>
        obtain ⟨-, -, other, hfork, -⟩ := hnew
        cases hfork
    rw [Census.note]
    cases hfound : reapable census.table curproc with
    | none => exact hgood.keep htree hnamed hkept
    | some child =>
      apply hgood.reap htree hnamed ?_ ?_ hkept
      · rw [(reapable_eq_some hfound).2]
        decide
      · rw [← hwait, wait_some hfound, proc_goto, proc_modify_self]
  | schedule _ | yield _ | sleep _ _ | wakeup _ | fault _ | kill _ _ | setuid _ _ | exec _ _
  | forkFails _ | forkCopy _ | forkReturn _ | exit _ | exitLocked _ =>
    apply hgood.keep htree hnamed
    intro slot huse
    cases htenant slot huse with
    | inl hsame => exact hsame.1
    | inr hnew =>
      obtain ⟨-, -, other, hfork, -⟩ := hnew
      cases hfork

theorem tree_userinit (hstart : table ∈ userinit) : Tree table := by
  have hfirst : ∀ table ∈ userinit,
      (∀ slot, table.control slot = .free ∧ (table.proc slot).parent = none) ∧
        ∀ slot, kind (table.proc slot).state =
          if slot = table.initproc then .live else .free := by
    decide +kernel
  constructor <;> grind

theorem good_start (hstart : table ∈ userinit) : (Census.start table).Good := by
  have hnames : ∀ table ∈ userinit, ∀ slot,
      (table.proc slot).state ≠ .unused → (table.proc slot).pid ≠ -1 ∧ slot = 0 := by
    decide +kernel
  have hfirst := hnames table hstart
  refine ⟨tree_userinit hstart, fun slot huse => (hfirst slot huse).1, ?_, ?_, nofun, nofun,
    nodup_nil⟩
  · intro slot _
    exact Nat.one_pos
  · intro left right hleft hright _
    exact (hfirst left hleft).2.trans (hfirst right hright).2.symm

theorem Counted.good (hcounted : Counted Numbered census) : census.Good := by
  induction hcounted with
  | start hstart => exact good_start hstart
  | step _ hnumbered hstep ih => exact ih.step hnumbered hstep

/-- Every process whose `fork` is complete has a parent that lives, nobody sleeps in
`wait` with a child that has exited, a process that has exited is returned once and to its
parent, which is the first process when the one before has exited, and -1 says that there
is no child or that the caller is killed. -/
structure Census.Orderly (census : Census) : Prop where
  parents : ∀ slot, slot ≠ census.table.initproc →
    (census.table.proc slot).state ≠ .unused → (census.table.proc slot).state ≠ .embryo →
      ∃ parent, (census.table.proc slot).parent = some parent ∧
        (census.table.proc parent).state ≠ .unused ∧
        (census.table.proc parent).state ≠ .zombie
  awake : ∀ slot child, census.table.control slot = .waiting →
    (census.table.proc slot).state = .sleeping →
      (census.table.proc child).parent = some slot → (census.table.proc child).state ≠ .zombie
  once : (census.returned.map Return.process).Nodup
  returns : ∀ curproc child, reapable census.table curproc = some child →
    (census.table.proc child).state = .zombie ∧ (census.table.proc child).parent = some curproc ∧
      ∀ entry ∈ census.returned, entry.process ≠ census.process child
  orphans : ∀ curproc table', step census.table (.exitLocked curproc) = some table' →
    ∀ child, (census.table.proc child).parent = some curproc →
      (table'.proc child).parent = some census.table.initproc
  fails : ∀ curproc, waitResult census.table curproc = some (-1) →
    (∀ child, (census.table.proc child).parent ≠ some curproc) ∨
      (census.table.proc curproc).killed = true

theorem kind_live (hkind : kind state = .live) : state ≠ .unused ∧ state ≠ .zombie := by
  cases state <;> revert hkind <;> decide

theorem kind_settled (hused : state ≠ .unused) (hmade : state ≠ .embryo) :
    kind state = .live ∨ kind state = .dead := by
  cases state <;> revert hused hmade <;> decide

theorem Census.Good.fails (hgood : census.Good)
    (hresult : waitResult census.table curproc = some (-1)) :
    (∀ child, (census.table.proc child).parent ≠ some curproc) ∨
      (census.table.proc curproc).killed = true := by
  rw [waitResult] at hresult
  cases hfound : reapable census.table curproc with
  | some child =>
    rw [hfound] at hresult
    have hzombie := (reapable_eq_some hfound).2
    have hnamed := hgood.named child (by rw [hzombie]; decide)
    exact absurd (some.inj hresult) hnamed
  | none =>
    rw [hfound] at hresult
    exact (ite_none_right_eq_some.1 hresult).1

/-- In a run in which `fork` is not called when -1 is the next pid, the process tree is in
order. -/
theorem tree_is_orderly {census : Census} (hcounted : Counted Numbered census) :
    census.Orderly := by
  have hgood := hcounted.good
  have htree := hgood.tree
  constructor
  · intro slot hslot hused hmade
    obtain ⟨parent, hparent⟩ := ne_none_iff_exists'.1
      (htree.children hslot (kind_settled hused hmade))
    exact ⟨parent, hparent, kind_live (htree.parents hparent).2⟩
  · intro slot child hwaiting hsleeping hparent hzombie
    exact (htree.sleepers hwaiting hsleeping).2 child hparent (kind_zombie.2 hzombie)
  · exact hgood.once
  · intro curproc child hfound
    obtain ⟨hparent, hzombie⟩ := reapable_eq_some hfound
    refine ⟨hzombie, hparent, ?_⟩
    intro entry hentry hsame
    exact hgood.gone entry hentry child (by rw [hzombie]; decide) hsame.symm
  · intro curproc table' hstep child hparent
    obtain ⟨-, rfl⟩ := of_guard hstep
    rw [(exits_exitLocked census.table curproc).parent, if_pos hparent]
  · intro curproc hresult
    exact hgood.fails hresult

end Census

instance (table : Table) : DecidablePred (Numbered table)
  | .fork _ => inferInstanceAs (Decidable (table.nextpid ≠ -1))
  | .schedule _ | .yield _ | .sleep _ _ | .wakeup _ | .fault _ | .kill _ _ | .setuid _ _
  | .exec _ _ | .forkFails _ | .forkCopy _ | .forkReturn _ | .exit _ | .exitLocked _
  | .wait _ => .isTrue trivial

/-- A step of a run in which every `fork` is numbered. -/
def Census.next (census : Census) (action : Action) : Option Census :=
  if Numbered census.table action then
    (step census.table action).map fun table' => census.note table' action
  else none

theorem Counted.of_foldlM {census last : Census} (hcounted : Counted Numbered census)
    {actions : List Action} (hrun : actions.foldlM Census.next census = some last) :
    Counted Numbered last := by
  induction actions generalizing census with
  | nil =>
    cases hrun
    exact hcounted
  | cons action rest ih =>
    obtain ⟨middle, hnext, hrest⟩ := bind_eq_some_iff.1 hrun
    obtain ⟨hnumbered, hstep⟩ := ite_none_right_eq_some.1 hnext
    obtain ⟨table', htable, rfl⟩ := map_eq_some_iff.1 hstep
    exact ih (hcounted.step hnumbered htable) hrest

def exitRun : List Action :=
  [.schedule 0, .fork 0, .forkCopy 0, .forkReturn 0, .schedule 1, .exit 1, .exitLocked 1]

/-- The child of the first process is returned to it. -/
theorem exitRun_is_orderly : ∃ census : Census, Counted Numbered census ∧
    census.returned = [⟨1, 0⟩] ∧ census.Orderly := by
  have hends : ∃ start ∈ userinit,
      ∃ census ∈ (exitRun ++ [Action.wait 0]).foldlM Census.next (.start start),
        census.returned = [⟨1, 0⟩] := by
    decide +kernel
  obtain ⟨start, hstart, census, hrun, hreturned⟩ := hends
  have hcounted : Counted Numbered census := (Counted.start hstart).of_foldlM hrun
  exact ⟨census, hcounted, hreturned, tree_is_orderly hcounted⟩

/-- The first process runs, and `stale` is the pid of its last `fork`, which failed. -/
def lone (stale next : ℤ) : Table where
  proc slot :=
    if slot = 0 then ⟨.running, 1, none, none, false, initcode, 0, 0⟩
    else ⟨.unused, if slot = 1 then stale else 0, none, none, false, [], 0, 0⟩
  control _ := .free
  nextpid := next
  initproc := 0

theorem forked_lone (stale next : ℤ) : forked (lone stale next) = some 1 := by
  rw [forked, find_slots]
  refine ⟨rfl, ?_⟩
  intro other hother
  rw [Fin.lt_one_iff] at hother
  subst hother
  rfl

/-- A `fork` that fails leaves its pid in the slot. -/
theorem round_lone (stale next : ℤ) :
    [Action.fork 0, .forkFails 0].foldlM step (lone stale next) =
      some (lone next (Int.bmod (next + 1) (2 ^ 32))) := by
  have hfork : step (lone stale next) (.fork 0) = some (fork (lone stale next) 0) := by
    rw [step]
    exact if_pos ⟨rfl, rfl⟩
  rw [foldlM_cons, hfork, fork, allocproc, ← forked, forked_lone]
  refine congrArg some ?_
  rw [forkFails, Table.goto, Table.modify, lone]
  congr 1
  · funext slot
    by_cases hslot : slot = 1
    · subst hslot
      rfl
    · simp [Table.modify, Table.goto, hslot]
  · funext slot
    simp [update, Table.modify, Table.goto]

theorem table_ext {left right : Table} (hproc : ∀ slot, left.proc slot = right.proc slot)
    (hcontrol : ∀ slot, left.control slot = right.control slot)
    (hnextpid : left.nextpid = right.nextpid) (hinitproc : left.initproc = right.initproc) :
    left = right := by
  cases left
  cases right
  congr
  · exact funext hproc
  · exact funext hcontrol

theorem reachable_lone_zero : Reachable (lone 0 2) := by
  have hfirst : ∃ start ∈ userinit, ∃ table ∈ step start (.schedule 0),
      (∀ slot, table.proc slot = (lone 0 2).proc slot) ∧
        (∀ slot, table.control slot = (lone 0 2).control slot) ∧
        table.nextpid = (lone 0 2).nextpid ∧ table.initproc = (lone 0 2).initproc := by
    decide +kernel
  obtain ⟨start, hstart, table, hstep, hproc, hcontrol, hnextpid, hinitproc⟩ := hfirst
  refine ⟨start, hstart, .single ⟨.schedule 0, ?_⟩⟩
  rw [← table_ext hproc hcontrol hnextpid hinitproc]
  exact hstep

theorem reachable_round {stale next : ℤ} (hreachable : Reachable (lone stale next)) :
    Reachable (lone next (Int.bmod (next + 1) (2 ^ 32))) := by
  obtain ⟨start, hstart, hrun⟩ := hreachable
  exact ⟨start, hstart, hrun.trans (reflTransGen_of_foldlM (round_lone stale next))⟩

/-- As many forks as we like can fail. -/
theorem reachable_lone (rounds : ℕ) :
    Reachable (lone (Int.bmod (rounds + 2) (2 ^ 32)) (Int.bmod (rounds + 3) (2 ^ 32))) := by
  induction rounds with
  | zero => exact reachable_round reachable_lone_zero
  | succ rounds ih =>
    have hnext := reachable_round ih
    rw [Int.bmod_add_bmod] at hnext
    exact hnext

/-- After enough forks the counter of the pids has wrapped and a child has pid -1: `wait`
returns -1 to the first process, which has a child and is not killed. -/
theorem wait_returns_minus_one : ∃ table, Reachable table ∧ table.At 0 .free ∧
    waitResult table 0 = some (-1) ∧ (table.proc 1).parent = some 0 ∧
    (table.proc 0).killed = false := by
  have hlone := reachable_lone 4294967292
  have hends : ∃ table ∈ exitRun.tail.foldlM step (lone (-2) (-1)), table.At 0 .free ∧
      waitResult table 0 = some (-1) ∧ (table.proc 1).parent = some 0 ∧
      (table.proc 0).killed = false := by
    decide +kernel
  obtain ⟨start, hstart, hrun⟩ := hlone
  obtain ⟨table, hend, hrest⟩ := hends
  exact ⟨table, ⟨start, hstart, hrun.trans (reflTransGen_of_foldlM hend)⟩, hrest⟩

end Xv6Users.Reaping
