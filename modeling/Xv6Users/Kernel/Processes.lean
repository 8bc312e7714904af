import Xv6Users.Core.CredentialTable

/-!
# The process table

`kernel/proc.c` with `setuid` and the part of `exec` that touches a process.
A step is what happens between two points where another processor or an
interrupt can come in with an effect on the table: `fork` allocates a slot,
fills it without the lock and makes it runnable, `exit` closes files before it
takes the lock, and a `wait` that has to sleep looks again later.  The two
stores of `setuid` are one step, since no other process looks at them.
-/

namespace Xv6Users.Processes

open Function Option List

open CredentialTable (Phase Succeeds Consistent)

abbrev Byte := UInt8

abbrev nproc : ℕ := 64

abbrev Slot := Fin nproc

instance neZero_nproc : NeZero nproc := ⟨by decide⟩

/-- `ROOT`. -/
def root : ℤ := 0

inductive ProcState where
  | unused
  | embryo
  | sleeping
  | runnable
  | running
  | zombie
  deriving DecidableEq

/-- Addresses that a process can sleep on. -/
inductive Chan where
  | proc (slot : Slot)
  | other (address : ℕ)
  deriving DecidableEq

structure Proc where
  state : ProcState
  pid : ℤ
  parent : Option Slot
  chan : Option Chan
  killed : Bool
  name : List Byte
  uid : ℤ
  euid : ℤ
  deriving DecidableEq

/-- Where a process is in the kernel. -/
inductive Control where
  | free
  | forking (child : Slot) (copied : Bool)
  | exiting
  | waiting
  deriving DecidableEq

structure Table where
  proc : Slot → Proc
  control : Slot → Control
  nextpid : ℤ
  initproc : Slot

variable {control : Control} {proc : Proc} {table' : Table}

/-! ## The functions of the source -/

def Table.modify (table : Table) (slot : Slot) (change : Proc → Proc) : Table :=
  { table with
    proc := update table.proc slot (change (table.proc slot)) }

def Table.goto (table : Table) (slot : Slot) (control : Control) : Table :=
  { table with control := update table.control slot control }

def slots : List Slot := finRange nproc

/-- The slot that was found is the second component. -/
def allocproc (table : Table) : Option (Table × Slot) :=
  (slots.find? fun slot => (table.proc slot).state = .unused).map fun slot =>
    ({ table.modify slot fun proc =>
        { proc with state := .embryo, pid := table.nextpid } with
      nextpid := Int.bmod (table.nextpid + 1) (2 ^ 32) }, slot)

def boot : Table where
  proc _ := ⟨.unused, 0, none, none, false, [], 0, 0⟩
  control _ := .free
  nextpid := 1
  initproc := 0

def initcode : List Byte := [105, 110, 105, 116, 99, 111, 100, 101]

def userinit : Option Table :=
  (allocproc boot).map fun (table, slot) =>
    { table.modify slot fun proc =>
        { proc with uid := root, euid := root, name := initcode,
                    state := .runnable } with
      initproc := slot }

def wakeup1 (chan : Option Chan) (table : Table) : Table :=
  { table with
    proc := fun slot =>
      let proc := table.proc slot
      if proc.state = .sleeping ∧ proc.chan = chan then
        { proc with state := .runnable } else proc }

/-- The failures of `kalloc` and `copyuvm` are a step of their own. -/
def fork (table : Table) (curproc : Slot) : Table :=
  match allocproc table with
  | none => table
  | some (table, child) => table.goto curproc (.forking child false)

def forkFails (table : Table) (curproc child : Slot) : Table :=
  (table.modify child fun proc => { proc with state := .unused }).goto
    curproc .free

def forkCopy (table : Table) (curproc child : Slot) : Table :=
  (table.modify child fun proc =>
    { proc with
      uid := (table.proc curproc).uid
      euid := (table.proc curproc).euid
      parent := some curproc
      name := (table.proc curproc).name }).goto curproc (.forking child true)

/-- The child starts at the end of its own `fork`. -/
def forkReturn (table : Table) (curproc child : Slot) : Table :=
  ((table.modify child fun proc => { proc with state := .runnable }).goto
    child .free).goto curproc .free

/-- One round of the loop over the children of an exiting process. -/
def reparent (curproc : Slot) (table : Table) (slot : Slot) : Table :=
  if (table.proc slot).parent = some curproc then
    let table := table.modify slot fun proc =>
      { proc with parent := some table.initproc }
    if (table.proc slot).state = .zombie then
      wakeup1 (some (.proc table.initproc)) table
    else table
  else table

/-- The part of `exit` under the lock. -/
def exitLocked (table : Table) (curproc : Slot) : Table :=
  let table := wakeup1 ((table.proc curproc).parent.map .proc) table
  let table := slots.foldl (reparent curproc) table
  (table.modify curproc fun proc => { proc with state := .zombie }).goto
    curproc .free

/-- One scan of `wait`. -/
def wait (table : Table) (curproc : Slot) : Table :=
  match slots.find? fun slot =>
      (table.proc slot).parent = some curproc ∧ (table.proc slot).state = .zombie with
  | some child =>
    (table.modify child fun proc =>
      { proc with pid := 0, parent := none, name := [], killed := false,
                  state := .unused }).goto curproc .free
  | none =>
    if (∀ slot, (table.proc slot).parent ≠ some curproc) ∨
        (table.proc curproc).killed then
      table.goto curproc .free
    else
      (table.modify curproc fun proc =>
        { proc with state := .sleeping, chan := some (.proc curproc) }).goto
          curproc .waiting

/-- The first process with that pid is marked; the slot may be unused. -/
def kill (table : Table) (pid : ℤ) : Table :=
  match slots.find? fun slot => (table.proc slot).pid = pid with
  | none => table
  | some slot =>
    table.modify slot fun proc =>
      { proc with
        killed := true
        state := if proc.state = .sleeping then .runnable else proc.state }

/-- `argument` is `none` when it cannot be fetched. -/
def setuid (table : Table) (curproc : Slot) (argument : Option ℤ) : Table :=
  match argument with
  | none => table
  | some uid =>
    if (table.proc curproc).uid ≠ root then table
    else table.modify curproc fun proc => { proc with uid, euid := uid }

/-- The last element of a path, as `safestrcpy` cuts it to 16 bytes. -/
def programName (path : List Byte) : List Byte :=
  (path.reverse.takeWhile (· ≠ 47)).reverse.take 15

/-- `path` is `none` when the program cannot be loaded. -/
def exec (table : Table) (curproc : Slot) (path : Option (List Byte)) : Table :=
  match path with
  | none => table
  | some path => table.modify curproc fun proc => { proc with name := programName path }

inductive Action where
  | schedule (slot : Slot)
  | yield (slot : Slot)
  | sleep (slot : Slot) (chan : Chan)
  | wakeup (chan : Chan)
  | fault (slot : Slot)
  | kill (slot : Slot) (pid : ℤ)
  | setuid (slot : Slot) (argument : Option ℤ)
  | exec (slot : Slot) (path : Option (List Byte))
  | fork (slot : Slot)
  | forkFails (slot : Slot)
  | forkCopy (slot : Slot)
  | forkReturn (slot : Slot)
  | exit (slot : Slot)
  | exitLocked (slot : Slot)
  | wait (slot : Slot)
  deriving DecidableEq

/-- A running process at this point of the kernel. -/
def Table.At (table : Table) (slot : Slot) (control : Control) : Prop :=
  (table.proc slot).state = .running ∧ table.control slot = control
  deriving Decidable

def Table.filling (table : Table) (slot : Slot) (copied : Bool) : Option Slot :=
  match (table.proc slot).state, table.control slot with
  | .running, .forking child done => if done = copied then some child else none
  | _, _ => none

/-- `none` when the action is not possible, which includes the exit of
`initproc` that panics. -/
def step (table : Table) : Action → Option Table
  | .schedule slot =>
    if (table.proc slot).state = .runnable then
      -- A process that slept clears its channel when it goes on.
      some (table.modify slot fun proc =>
        { proc with state := .running, chan := none })
    else none
  | .yield slot =>
    if (table.proc slot).state = .running then
      some (table.modify slot fun proc => { proc with state := .runnable })
    else none
  | .sleep slot chan =>
    if table.At slot .free ∨ table.At slot .exiting then
      some (table.modify slot fun proc =>
        { proc with state := .sleeping, chan := some chan })
    else none
  | .wakeup chan => some (wakeup1 (some chan) table)
  | .fault slot =>
    if table.At slot .free then
      some (table.modify slot fun proc => { proc with killed := true })
    else none
  | .kill slot pid =>
    if table.At slot .free then some (kill table pid) else none
  | .setuid slot argument =>
    if table.At slot .free then some (setuid table slot argument) else none
  | .exec slot path =>
    if table.At slot .free then some (exec table slot path) else none
  | .fork slot => if table.At slot .free then some (fork table slot) else none
  | .forkFails slot => (table.filling slot false).map (forkFails table slot)
  | .forkCopy slot => (table.filling slot false).map (forkCopy table slot)
  | .forkReturn slot => (table.filling slot true).map (forkReturn table slot)
  | .exit slot =>
    if table.At slot .free ∧ slot ≠ table.initproc then
      some (table.goto slot .exiting)
    else none
  | .exitLocked slot =>
    if table.At slot .exiting then some (exitLocked table slot) else none
  | .wait slot =>
    if table.At slot .free ∨ table.At slot .waiting then
      some (wait table slot)
    else none

def Step (table table' : Table) : Prop :=
  ∃ action, step table action = some table'

/-- The tables of all runs that start from `userinit`. -/
def Reachable (table : Table) : Prop :=
  ∃ start ∈ userinit, Relation.ReflTransGen Step start table

def phase : ProcState → Phase
  | .unused => .free
  | .embryo => .fresh
  | _ => .live

def child (proc : Proc) : Control → Option (Slot × Bool)
  | .forking child copied =>
    if proc.state = .zombie ∨ phase proc.state ≠ .live then none
    else some (child, copied)
  | _ => none

def view (table : Table) : CredentialTable.Table Slot (ℤ × ℤ) where
  phase slot := phase (table.proc slot).state
  cred slot := ((table.proc slot).uid, (table.proc slot).euid)
  child slot := child (table.proc slot) (table.control slot)

def Agree (cred : ℤ × ℤ) : Prop := cred.2 = cred.1

def IsRoot (cred : ℤ × ℤ) : Prop := cred.1 = root

/-! ## Each step is a step of the table of credentials -/

variable {q : Slot} {change : Proc → Proc} {copied : Bool}

section Views

variable {table : Table} {slot : Slot}

@[simp]
theorem proc_goto (table : Table) (slot : Slot) (control : Control) :
    (table.goto slot control).proc = table.proc := rfl

@[simp]
theorem control_modify (table : Table) (slot : Slot) (change : Proc → Proc) :
    (table.modify slot change).control = table.control := rfl

/-- A process that differs in nothing the credentials depend on. -/
structure Alike (control : Control) (proc proc' : Proc) : Prop where
  phase : phase proc'.state = phase proc.state
  uid : proc'.uid = proc.uid
  euid : proc'.euid = proc.euid
  child : child proc' control = child proc control

theorem view_eq_of_alike (hcontrol : table'.control = table.control)
    (halike : ∀ slot, Alike (table.control slot) (table.proc slot) (table'.proc slot)) :
    view table' = view table := by
  ext1
  · exact funext fun slot => (halike slot).phase
  · exact funext fun slot => Prod.ext (halike slot).uid (halike slot).euid
  · refine funext fun slot => ?_
    rw [view, view, hcontrol]
    exact (halike slot).child

theorem view_modify (halike : Alike (table.control slot) (table.proc slot)
      (change (table.proc slot))) : view (table.modify slot change) = view table := by
  refine view_eq_of_alike rfl fun other => ?_
  simp only [Table.modify, update_apply]
  split_ifs with hother
  · exact hother ▸ halike
  · exact ⟨rfl, rfl, rfl, rfl⟩

theorem view_goto
    (hchild : child (table.proc slot) control = child (table.proc slot) (table.control slot)) :
    view (table.goto slot control) = view table := by
  ext1
  · rfl
  · rfl
  · refine funext fun other => ?_
    simp only [view, Table.goto, update_apply]
    split_ifs with hother
    · rw [hother, hchild]
    · rfl

/-- A process that is as dead or alive as before. -/
theorem alike_of_state {proc' : Proc} (hphase : phase proc'.state = phase proc.state)
    (hzombie : proc'.state = .zombie ↔ proc.state = .zombie) (huid : proc'.uid = proc.uid)
    (heuid : proc'.euid = proc.euid) : Alike control proc proc' := by
  refine ⟨hphase, huid, heuid, ?_⟩
  cases control with
  | forking q copied => simp only [child, hphase, hzombie]
  | _ => rfl

theorem view_wakeup1 (chan : Option Chan) (table : Table) :
    view (wakeup1 chan table) = view table := by
  refine view_eq_of_alike rfl fun slot => ?_
  simp only [wakeup1]
  split_ifs with hslept
  · exact alike_of_state (by rw [hslept.1]; rfl) (by simp [hslept.1]) rfl rfl
  · exact ⟨rfl, rfl, rfl, rfl⟩

theorem view_reparent (curproc : Slot) (table : Table) (slot : Slot) :
    view (reparent curproc table slot) = view table := by
  have hmodify : view (table.modify slot fun proc =>
      { proc with parent := some table.initproc }) = view table := view_modify ⟨rfl, rfl, rfl, rfl⟩
  rw [reparent]
  split_ifs
  · simp only
    split_ifs
    · rw [view_wakeup1, hmodify]
    · exact hmodify
  · rfl

theorem view_reparent_all (curproc : Slot) (list : List Slot) (table : Table) :
    view (list.foldl (reparent curproc) table) = view table := by
  induction list generalizing table with
  | nil => rfl
  | cons slot list ih => rw [foldl_cons, ih, view_reparent]

theorem control_reparent (curproc : Slot) (table : Table) (slot : Slot) :
    (reparent curproc table slot).control = table.control := by
  rw [reparent]
  split_ifs
  · simp only
    split_ifs <;> rfl
  · rfl

theorem control_reparent_all (curproc : Slot) (list : List Slot) (table : Table) :
    (list.foldl (reparent curproc) table).control = table.control := by
  induction list generalizing table with
  | nil => rfl
  | cons slot list ih => rw [foldl_cons, ih, control_reparent]

theorem view_exitLocked (hat : table.At slot .exiting) :
    view (exitLocked table slot) = view table := by
  have hview : view (slots.foldl (reparent slot)
      (wakeup1 ((table.proc slot).parent.map .proc) table)) = view table := by
    rw [view_reparent_all, view_wakeup1]
  have hcontrol : (slots.foldl (reparent slot)
      (wakeup1 ((table.proc slot).parent.map .proc) table)).control slot = .exiting := by
    rw [control_reparent_all]
    exact hat.2
  rw [exitLocked]
  generalize slots.foldl (reparent slot)
    (wakeup1 ((table.proc slot).parent.map .proc) table) = woken at *
  have hlive : phase (woken.proc slot).state = .live := by
    have hphase := congrFun (congrArg CredentialTable.Table.phase hview) slot
    simpa [view, hat.1, phase] using hphase
  have hzombie : view (woken.modify slot fun proc =>
      { proc with state := .zombie }) = view woken :=
    view_modify ⟨hlive.symm, rfl, rfl, by rw [hcontrol]; rfl⟩
  rw [← hview, ← hzombie]
  refine view_goto ?_
  rw [control_modify, hcontrol]
  rfl

theorem filling_eq_some (hfilling : table.filling slot copied = some q) :
    table.At slot (.forking q copied) := by
  unfold Table.filling at hfilling
  split at hfilling
  next child done hstate hcontrol =>
    obtain ⟨rfl, hq⟩ := ite_none_right_eq_some.1 hfilling
    cases hq
    exact ⟨hstate, hcontrol⟩
  next => simp at hfilling

theorem allocproc_eq_some (halloc : allocproc table = some (table', q)) :
    (table.proc q).state = .unused ∧ table'.proc = (table.modify q fun proc =>
        { proc with state := .embryo, pid := table.nextpid }).proc ∧
      table'.control = table.control := by
  obtain ⟨found, hfind, hpair⟩ := map_eq_some_iff.1 halloc
  cases hpair
  exact ⟨by simpa using find?_some hfind, rfl, rfl⟩

/-- A slot that holds no process has no child. -/
theorem child_of_not_live (hproc : phase proc.state ≠ .live) (control : Control) :
    child proc control = none := by
  cases control with
  | forking q copied => exact if_pos (.inr hproc)
  | _ => rfl

theorem child_running (hproc : proc.state = .running) (q : Slot) (copied : Bool) :
    child proc (.forking q copied) = some (q, copied) := if_neg (by simp [hproc, phase])

section Changes

variable {p q : Slot} {copied : Bool}

theorem view_setuid (uid : ℤ) :
    view (table.modify p fun proc => { proc with uid, euid := uid }) =
      { view table with
        cred := update (view table).cred p (uid, uid) } := by
  ext1 <;> funext other <;> by_cases hother : other = p <;>
    simp [view, Table.modify, update_apply, hother, child]

/-- One process fills the slot of another. -/
theorem view_fill (hne : p ≠ q) (control : Control)
    (hchild : child (change (table.proc q)) (table.control q) =
      child (table.proc q) (table.control q)) :
    view ((table.modify q change).goto p control) =
      { phase := update (view table).phase q
          (phase (change (table.proc q)).state)
        cred := update (view table).cred q
          ((change (table.proc q)).uid, (change (table.proc q)).euid)
        child := update (view table).child p
          (child (table.proc p) control) } := by
  ext1
  · funext other
    simp only [view, proc_goto, Table.modify, update_apply]
    split_ifs <;> rfl
  · funext other
    simp only [view, proc_goto, Table.modify, update_apply]
    split_ifs <;> rfl
  · funext other
    simp only [view, Table.goto, Table.modify, update_apply]
    split_ifs with hq hp hp
    · exact absurd (hp.symm.trans hq) hne
    · rw [hq, hchild]
    · rw [hp]
    · rfl

theorem child_free (proc : Proc) : child proc .free = none := rfl

theorem At.child (hat : table.At p control) :
    (view table).child p = Processes.child (table.proc p) control := by
  rw [← hat.2]
  rfl

theorem At.live (hat : table.At p control) : (view table).phase p = .live := by
  simp [view, hat.1, phase]

theorem At.filling (hat : table.At p (.forking q copied)) :
    (view table).child p = some (q, copied) := by
  rw [At.child hat, child_running hat.1]

end Changes

theorem view_kill (table : Table) (pid : ℤ) : view (kill table pid) = view table := by
  rw [kill]
  split
  · rfl
  · refine view_modify (alike_of_state ?_ ?_ rfl rfl)
    · split_ifs with hslept
      · rw [hslept]
        rfl
      · rfl
    · split_ifs with hslept <;> simp [*]

theorem view_exec (table : Table) (slot : Slot) (path : Option (List Byte)) :
    view (exec table slot path) = view table := by
  cases path with
  | none => rfl
  | some path =>
    rw [exec]
    exact view_modify (alike_of_state rfl Iff.rfl rfl rfl)

theorem step_setuid (hat : table.At slot .free) (argument : Option ℤ) :
    CredentialTable.Step Agree IsRoot (view table) (view (setuid table slot argument)) := by
  cases argument with
  | none => exact .quiet _
  | some uid =>
    by_cases hroot : (table.proc slot).uid = root
    · rw [setuid, if_neg (not_not.2 hroot), view_setuid]
      exact .relabel (At.live hat) (At.child hat) hroot rfl
    · rw [setuid, if_pos hroot]
      exact .quiet _

theorem step_fork (hat : table.At slot .free) :
    CredentialTable.Step Agree IsRoot (view table) (view (fork table slot)) := by
  rw [fork]
  split
  · exact .quiet _
  next table' q halloc =>
    obtain ⟨hunused, hproc, hcontrol⟩ := allocproc_eq_some halloc
    have hne : slot ≠ q := by
      rintro rfl
      simp [hat.1] at hunused
    have hview : view (table'.goto slot (.forking q false)) = view ((table.modify q fun proc =>
          { proc with state := .embryo, pid := table.nextpid }).goto slot
            (.forking q false)) := by
      simp only [view, hproc, Table.goto, hcontrol, control_modify]
    have hchild : ∀ proc : Proc, phase proc.state ≠ .live →
        child proc (table.control q) = none := fun proc hphase => child_of_not_live hphase _
    rw [hview, view_fill hne _ ((hchild _ (by simp [phase])).trans
      (hchild _ (by simp [phase, hunused])).symm), child_running hat.1]
    have hcred : update (view table).cred q
        ((table.proc q).uid, (table.proc q).euid) = (view table).cred := update_eq_self q _
    rw [hcred]
    exact .claim (At.live hat) (At.child hat) (by simp [view, hunused, phase])

/-- The child of a forking process. -/
theorem At.embryo (hconsistent : Consistent Agree (view table))
    (hat : table.At slot (.forking q copied)) : phase (table.proc q).state = .fresh :=
  hconsistent.child_fresh slot q copied (At.filling hat)

theorem At.ne_child (hat : table.At slot control)
    (hfresh : phase (table.proc q).state = .fresh) : slot ≠ q := by
  rintro rfl
  simp [hat.1, phase] at hfresh

theorem view_cred_self (table : Table) (q : Slot) :
    update (view table).cred q
      ((table.proc q).uid, (table.proc q).euid) = (view table).cred := update_eq_self q _

theorem step_forkFails (hconsistent : Consistent Agree (view table))
    (hat : table.At slot (.forking q false)) :
    CredentialTable.Step Agree IsRoot (view table) (view (forkFails table slot q)) := by
  have hfresh := At.embryo hconsistent hat
  rw [forkFails, view_fill (At.ne_child hat hfresh) _ ((child_of_not_live (by simp [phase]) _).trans
      (child_of_not_live (by simp [hfresh]) _).symm), view_cred_self]
  exact .abandon (At.filling hat)

theorem step_forkCopy (hconsistent : Consistent Agree (view table))
    (hat : table.At slot (.forking q false)) :
    CredentialTable.Step Agree IsRoot (view table) (view (forkCopy table slot q)) := by
  have hfresh := At.embryo hconsistent hat
  have hphase : update (view table).phase q
      (phase (table.proc q).state) = (view table).phase := update_eq_self q _
  rw [forkCopy, view_fill (At.ne_child hat hfresh) _ ((child_of_not_live (by simp [hfresh]) _).trans
      (child_of_not_live (by simp [hfresh]) _).symm), hphase,
    child_running hat.1]
  exact .copy (At.filling hat)

theorem step_forkReturn (hconsistent : Consistent Agree (view table))
    (hat : table.At slot (.forking q true)) :
    CredentialTable.Step Agree IsRoot (view table) (view (forkReturn table slot q)) := by
  have hfresh := At.embryo hconsistent hat
  have hview : view (table.goto q .free) = view table :=
    view_goto (child_of_not_live (by simp [hfresh]) _).symm
  have hcommute : forkReturn table slot q = ((table.goto q .free).modify q fun proc =>
        { proc with state := .runnable }).goto slot .free := rfl
  have hfree : (table.goto q .free).control q = .free := update_self q _ _
  rw [hcommute, view_fill (At.ne_child hat hfresh) _ (by rw [hfree]; rfl),
    view_cred_self, hview]
  exact .start (At.filling hat)

theorem child_zombie (hproc : proc.state = .zombie) (control : Control) :
    child proc control = none := by
  cases control with
  | forking q copied => exact if_pos (.inl hproc)
  | _ => rfl

theorem step_wait (hat : table.At slot .free ∨ table.At slot .waiting) :
    CredentialTable.Step Agree IsRoot (view table) (view (wait table slot)) := by
  have hstate : (table.proc slot).state = .running := hat.elim And.left And.left
  have hidle : (view table).child slot = none :=
    hat.elim (fun hat => At.child hat) fun hat => At.child hat
  have hgoto : ∀ control, child (table.proc slot) control = none →
      view (table.goto slot control) = view table :=
    fun control hchild => view_goto (hchild.trans hidle.symm)
  rw [wait]
  split
  next q hfound =>
    have hzombie : (table.proc q).state = .zombie := by
      have hkid := find?_some hfound
      simp only [decide_eq_true_eq] at hkid
      exact hkid.2
    have hne : slot ≠ q := by
      rintro rfl
      simp [hstate] at hzombie
    have hsame : update (view table).child slot
        (child (table.proc slot) .free) = (view table).child := by
      rw [child_free, ← hidle, update_eq_self]
    rw [view_fill hne _ ((child_of_not_live (by simp [phase]) _).trans
      (child_zombie hzombie _).symm), view_cred_self, hsame]
    exact .reap (by simp [view, hzombie, phase]) (child_zombie hzombie _)
  next =>
    split_ifs
    · rw [hgoto .free rfl]
      exact .quiet _
    · have hcommute : ∀ change : Proc → Proc, (table.modify slot change).goto slot .waiting =
            (table.goto slot .waiting).modify slot change := fun _ => rfl
      rw [hcommute, view_modify, hgoto .waiting rfl]
      · exact .quiet _
      · rw [proc_goto]
        exact alike_of_state (by rw [hstate]; rfl) (by simp [hstate]) rfl rfl

/-- Every step is a step of the table of credentials. -/
theorem view_step {action : Action} (hconsistent : Consistent Agree (view table))
    (hstep : step table action = some table') :
    CredentialTable.Step Agree IsRoot (view table) (view table') := by
  have hquiet : ∀ {other : Table}, view other = view table →
      CredentialTable.Step Agree IsRoot (view table) (view other) := fun hview => hview ▸ .quiet _
  cases action <;> rw [step] at hstep
  case schedule slot =>
    split_ifs at hstep with hstate
    cases hstep
    exact hquiet (view_modify (alike_of_state (by rw [hstate]; rfl) (by simp [hstate]) rfl rfl))
  case yield slot =>
    split_ifs at hstep with hstate
    cases hstep
    exact hquiet (view_modify (alike_of_state (by rw [hstate]; rfl) (by simp [hstate]) rfl rfl))
  case sleep slot chan =>
    split_ifs at hstep with hat
    cases hstep
    have hstate : (table.proc slot).state = .running := hat.elim And.left And.left
    exact hquiet (view_modify (alike_of_state (by rw [hstate]; rfl) (by simp [hstate]) rfl rfl))
  case wakeup chan =>
    cases hstep
    exact hquiet (view_wakeup1 _ table)
  case fault slot =>
    split_ifs at hstep
    cases hstep
    exact hquiet (view_modify ⟨rfl, rfl, rfl, rfl⟩)
  case kill slot pid =>
    split_ifs at hstep
    cases hstep
    exact hquiet (view_kill table pid)
  case setuid slot argument =>
    split_ifs at hstep with hat
    cases hstep
    exact step_setuid hat argument
  case exec slot path =>
    split_ifs at hstep
    cases hstep
    exact hquiet (view_exec table slot path)
  case fork slot =>
    split_ifs at hstep with hat
    cases hstep
    exact step_fork hat
  case exit slot =>
    split_ifs at hstep with hat
    cases hstep
    exact hquiet (view_goto (by rw [hat.1.2]; rfl))
  case exitLocked slot =>
    split_ifs at hstep with hat
    cases hstep
    exact hquiet (view_exitLocked hat)
  case forkFails slot =>
    obtain ⟨q, hq, rfl⟩ := map_eq_some_iff.1 hstep
    exact step_forkFails hconsistent (filling_eq_some hq)
  case forkCopy slot =>
    obtain ⟨q, hq, rfl⟩ := map_eq_some_iff.1 hstep
    exact step_forkCopy hconsistent (filling_eq_some hq)
  case forkReturn slot =>
    obtain ⟨q, hq, rfl⟩ := map_eq_some_iff.1 hstep
    exact step_forkReturn hconsistent (filling_eq_some hq)
  case wait slot =>
    split_ifs at hstep with hat
    cases hstep
    exact step_wait hat

end Views

end Xv6Users.Processes
