import Xv6Users.Kernel.ProcessRuns

/-!
# The process tree

Every process but the first has a parent that lives, since a process that exits hands its
children to the first one, and a parent that sleeps in `wait` has no child that has
exited.
-/

namespace Xv6Users.ProcessTree

open Processes ProcessRuns Function List

/-- What a slot holds. -/
inductive Kind where
  | free
  | fresh
  | live
  | dead
  deriving DecidableEq

@[grind]
def kind : ProcState → Kind
  | .unused => .free
  | .embryo => .fresh
  | .zombie => .dead
  | .sleeping | .runnable | .running => .live

variable {state : ProcState} {handed : List Slot}

theorem kind_unused : kind state = .free ↔ state = .unused := by
  cases state <;> decide

theorem kind_embryo : kind state = .fresh ↔ state = .embryo := by
  cases state <;> decide

theorem kind_zombie : kind state = .dead ↔ state = .zombie := by
  cases state <;> decide

/-- What the table says about parents, children that are being made, and sleepers. -/
structure Tree (table : Table) : Prop where
  init : kind (table.proc table.initproc).state = .live
  init_parent : (table.proc table.initproc).parent = none
  init_stays : table.control table.initproc ≠ .exiting
  parents : ∀ {child parent}, (table.proc child).parent = some parent →
    child ≠ parent ∧ kind (table.proc parent).state = .live
  children : ∀ {slot}, slot ≠ table.initproc →
    kind (table.proc slot).state = .live ∨ kind (table.proc slot).state = .dead →
      (table.proc slot).parent ≠ none
  unused : ∀ {slot}, kind (table.proc slot).state = .free → (table.proc slot).parent = none
  idle : ∀ {slot}, kind (table.proc slot).state ≠ .live → table.control slot = .free
  forking : ∀ {slot child copied}, table.control slot = .forking child copied →
    kind (table.proc child).state = .fresh ∧
      (table.proc child).parent = if copied then some slot else none
  single : ∀ {left right child first last}, table.control left = .forking child first →
    table.control right = .forking child last → left = right
  sleepers : ∀ {slot}, table.control slot = .waiting → (table.proc slot).state = .sleeping →
    (table.proc slot).chan = some (.proc slot) ∧
      ∀ child, (table.proc child).parent = some slot → kind (table.proc child).state ≠ .dead

/-- Processes change, but the tree does not, and nobody falls asleep in `wait`. -/
structure Calm (table table' : Table) : Prop where
  initproc : table'.initproc = table.initproc
  control : table'.control = table.control
  parent : ∀ slot, (table'.proc slot).parent = (table.proc slot).parent
  kind : ∀ slot, kind (table'.proc slot).state = kind (table.proc slot).state
  sleeping : ∀ slot, table.control slot = .waiting → (table'.proc slot).state = .sleeping →
    (table.proc slot).state = .sleeping ∧ (table'.proc slot).chan = (table.proc slot).chan
  pid : ∀ slot, (table'.proc slot).pid = (table.proc slot).pid

section Calm

variable {table table' : Table} {slot : Slot}

theorem calm_refl : Calm table table where
  initproc := rfl
  control := rfl
  parent _ := rfl
  kind _ := rfl
  sleeping _ _ hstate := ⟨hstate, rfl⟩
  pid _ := rfl

theorem Tree.calm (htree : Tree table) (hcalm : Calm table table') : Tree table' where
  init := by
    rw [hcalm.initproc, hcalm.kind]
    exact htree.init
  init_parent := by
    rw [hcalm.initproc, hcalm.parent]
    exact htree.init_parent
  init_stays := by
    rw [hcalm.initproc, hcalm.control]
    exact htree.init_stays
  parents hparent := by
    rw [hcalm.parent] at hparent
    rw [hcalm.kind]
    exact htree.parents hparent
  children hslot hkind := by
    rw [hcalm.initproc] at hslot
    rw [hcalm.kind] at hkind
    rw [hcalm.parent]
    exact htree.children hslot hkind
  unused hkind := by
    rw [hcalm.kind] at hkind
    rw [hcalm.parent]
    exact htree.unused hkind
  idle hkind := by
    rw [hcalm.kind] at hkind
    rw [hcalm.control]
    exact htree.idle hkind
  forking hcontrol := by
    rw [hcalm.control] at hcontrol
    rw [hcalm.kind, hcalm.parent]
    exact htree.forking hcontrol
  single hleft hright := by
    rw [hcalm.control] at hleft hright
    exact htree.single hleft hright
  sleepers {slot} hcontrol hstate := by
    rw [hcalm.control] at hcontrol
    obtain ⟨hslept, hchan⟩ := hcalm.sleeping slot hcontrol hstate
    obtain ⟨hself, hnone⟩ := htree.sleepers hcontrol hslept
    refine ⟨hchan.trans hself, ?_⟩
    intro child hchild
    rw [hcalm.parent] at hchild
    rw [hcalm.kind]
    exact hnone child hchild

/-- One process changes. -/
theorem calm_modify {change : Proc → Proc}
    (hparent : (change (table.proc slot)).parent = (table.proc slot).parent)
    (hkind : ProcessTree.kind (change (table.proc slot)).state =
      ProcessTree.kind (table.proc slot).state)
    (hpid : (change (table.proc slot)).pid = (table.proc slot).pid)
    (hsleep : table.control slot = .waiting → (change (table.proc slot)).state = .sleeping →
      (table.proc slot).state = .sleeping ∧
        (change (table.proc slot)).chan = (table.proc slot).chan) :
    Calm table (table.modify slot change) := by
  have hcases : ∀ {motive : Slot → Proc → Prop}, motive slot (change (table.proc slot)) →
      (∀ other, motive other (table.proc other)) →
      ∀ other, motive other ((table.modify slot change).proc other) := by
    intro motive hself hrest other
    by_cases hother : other = slot
    · subst hother
      rw [proc_modify_self]
      exact hself
    · rw [proc_modify_of_ne hother]
      exact hrest other
  refine ⟨rfl, rfl, ?_, ?_, ?_, ?_⟩
  · exact hcases (motive := fun other proc => proc.parent = (table.proc other).parent) hparent
      fun _ => rfl
  · exact hcases (motive := fun other proc =>
      ProcessTree.kind proc.state = ProcessTree.kind (table.proc other).state) hkind
      fun _ => rfl
  · exact hcases (motive := fun other proc => table.control other = .waiting →
      proc.state = .sleeping → (table.proc other).state = .sleeping ∧
        proc.chan = (table.proc other).chan) hsleep fun _ _ hstate => ⟨hstate, rfl⟩
  · exact hcases (motive := fun other proc => proc.pid = (table.proc other).pid) hpid
      fun _ => rfl

theorem calm_wakeup1 (chan : Option Chan) : Calm table (wakeup1 chan table) := by
  have hproc : ∀ slot, (wakeup1 chan table).proc slot = table.proc slot ∨
      (table.proc slot).state = .sleeping ∧
        (wakeup1 chan table).proc slot = { table.proc slot with state := .runnable } := by
    intro slot
    rw [wakeup1]
    dsimp only
    split_ifs with hsleeps
    · exact .inr ⟨hsleeps.1, rfl⟩
    · exact .inl rfl
  refine ⟨rfl, rfl, ?_, ?_, ?_, ?_⟩ <;> intro slot <;> cases hproc slot with
  | inl hsame => simp [hsame]
  | inr hwoken => simp [hwoken.1, hwoken.2, ProcessTree.kind]

/-- Those who slept on the channel are awake. -/
theorem sleeping_wakeup1 {chan : Option Chan}
    (hstate : ((wakeup1 chan table).proc slot).state = .sleeping) :
    (wakeup1 chan table).proc slot = table.proc slot ∧ (table.proc slot).chan ≠ chan := by
  rw [wakeup1] at hstate ⊢
  dsimp only at hstate ⊢
  split_ifs at hstate ⊢ with hsleeps
  exact ⟨rfl, fun hchan => hsleeps ⟨hstate, hchan⟩⟩

end Calm

/-- One process and the place of one process in the kernel change. -/
structure Edits (table : Table) (child : Slot) (proc : Proc) (curproc : Slot)
    (control : Control) (table' : Table) : Prop where
  initproc : table'.initproc = table.initproc
  procs : ∀ slot, table'.proc slot = if slot = child then proc else table.proc slot
  controls : ∀ slot, table'.control slot = if slot = curproc then control else table.control slot

section Edits

variable {table table' : Table} {curproc child : Slot} {proc : Proc} {control : Control}

theorem edits_goto (table : Table) (child : Slot) (change : Proc → Proc) (curproc : Slot)
    (control : Control) :
    Edits table child (change (table.proc child)) curproc control
      ((table.modify child change).goto curproc control) where
  initproc := rfl
  procs _ := update_apply ..
  controls _ := update_apply ..

/-- A slot is taken for a child. -/
theorem Tree.fork (htree : Tree table) (hlive : kind (table.proc curproc).state = .live)
    (hchild : (table.proc child).state = .unused)
    (hedits : Edits table child proc curproc (.forking child false) table')
    (hstate : proc.state = .embryo) (hparent : proc.parent = (table.proc child).parent) :
    Tree table' := by
  obtain ⟨hinit, hprocs, hcontrols⟩ := hedits
  have hunused : (table.proc child).parent = none := htree.unused (by rw [hchild]; rfl)
  have hforking := @Tree.forking _ htree
  constructor
  · have hlives := htree.init
    grind
  · have hnone := htree.init_parent
    grind
  · have hstays := htree.init_stays
    grind
  · have hparents := @Tree.parents _ htree
    grind
  · have hchildren := @Tree.children _ htree
    grind
  · have hnone := @Tree.unused _ htree
    grind
  · have hidle := @Tree.idle _ htree
    grind
  · grind
  · have hsingle := @Tree.single _ htree
    grind
  · have hsleepers := @Tree.sleepers _ htree
    grind

/-- What a process that is making a child does with it: the slot is given back, the child
gets its parent, or it is ready to run. -/
inductive Fills (curproc child : Slot) (before : Proc) :
    Bool → ProcState → Option Slot → Control → Prop where
  | fails : Fills curproc child before false .unused before.parent .free
  | copies : Fills curproc child before false before.state (some curproc)
      (.forking child true)
  | returns : Fills curproc child before true .runnable before.parent .free

theorem Tree.fill (htree : Tree table) {copied : Bool}
    (hfilling : table.control curproc = .forking child copied)
    (hedits : Edits table child proc curproc control table')
    (hfills : Fills curproc child (table.proc child) copied proc.state proc.parent control) :
    Tree table' := by
  obtain ⟨hinit, hprocs, hcontrols⟩ := hedits
  have hforking := @Tree.forking _ htree
  have hidle := @Tree.idle _ htree
  have hcases : (copied = false ∧ proc.state = .unused ∧
        proc.parent = (table.proc child).parent ∧ control = .free) ∨
      (copied = false ∧ proc.state = (table.proc child).state ∧ proc.parent = some curproc ∧
        control = .forking child true) ∨
      (copied = true ∧ proc.state = .runnable ∧
        proc.parent = (table.proc child).parent ∧ control = .free) := by
    generalize proc.state = state at hfills ⊢
    generalize proc.parent = parent at hfills ⊢
    cases hfills <;> simp
  constructor
  · have hlives := htree.init
    grind
  · have hlives := htree.init
    have hnone := htree.init_parent
    grind
  · have hstays := htree.init_stays
    grind
  · have hparents := @Tree.parents _ htree
    grind
  · have hchildren := @Tree.children _ htree
    grind
  · have hnone := @Tree.unused _ htree
    grind
  · grind
  · have hsingle := @Tree.single _ htree
    grind
  · have hsingle := @Tree.single _ htree
    grind
  · have hsleepers := @Tree.sleepers _ htree
    grind

/-- A process that makes no child goes elsewhere in the kernel; in `wait` it sleeps only
if no child has exited. -/
theorem Tree.move (htree : Tree table) (hlive : kind (table.proc curproc).state = .live)
    (hedits : Edits table curproc proc curproc control table')
    (hkind : kind proc.state = .live) (hparent : proc.parent = (table.proc curproc).parent)
    (hcontrol : ∀ child copied, control ≠ .forking child copied)
    (hexits : control = .exiting → curproc ≠ table.initproc)
    (hsleeps : control = .waiting → proc.state = .sleeping → proc.chan = some (.proc curproc) ∧
      ∀ child, (table.proc child).parent = some curproc →
        kind (table.proc child).state ≠ .dead) : Tree table' := by
  obtain ⟨hinit, hprocs, hcontrols⟩ := hedits
  have hforking := @Tree.forking _ htree
  constructor
  · have hlives := htree.init
    grind
  · have hnone := htree.init_parent
    grind
  · have hstays := htree.init_stays
    grind
  · have hparents := @Tree.parents _ htree
    grind
  · have hchildren := @Tree.children _ htree
    grind
  · have hnone := @Tree.unused _ htree
    grind
  · have hidle := @Tree.idle _ htree
    grind
  · grind
  · have hsingle := @Tree.single _ htree
    grind
  · have hsleepers := @Tree.sleepers _ htree
    grind

/-- A child that has exited is returned to its parent. -/
theorem Tree.reap (htree : Tree table) (hlive : kind (table.proc curproc).state = .live)
    (hdead : (table.proc child).state = .zombie)
    (hedits : Edits table child proc curproc .free table') (hstate : proc.state = .unused)
    (hparent : proc.parent = none) : Tree table' := by
  obtain ⟨hinit, hprocs, hcontrols⟩ := hedits
  have hforking := @Tree.forking _ htree
  have hparents := @Tree.parents _ htree
  constructor
  · have hlives := htree.init
    grind
  · have hnone := htree.init_parent
    grind
  · have hstays := htree.init_stays
    grind
  · grind
  · have hchildren := @Tree.children _ htree
    grind
  · have hnone := @Tree.unused _ htree
    grind
  · have hidle := @Tree.idle _ htree
    grind
  · grind
  · have hsingle := @Tree.single _ htree
    grind
  · have hsleepers := @Tree.sleepers _ htree
    grind

end Edits

/-- Children of a process are handed to the first one; whoever slept on the channel of the
first process is awake if one of these children had exited. -/
structure Hands (table : Table) (curproc : Slot) (handed : List Slot) (table' : Table) :
    Prop where
  initproc : table'.initproc = table.initproc
  control : table'.control = table.control
  parent : ∀ slot, (table'.proc slot).parent =
    if slot ∈ handed ∧ (table.proc slot).parent = some curproc then some table.initproc
    else (table.proc slot).parent
  kind : ∀ slot, kind (table'.proc slot).state = kind (table.proc slot).state
  pid : ∀ slot, (table'.proc slot).pid = (table.proc slot).pid
  sleeping : ∀ slot, (table'.proc slot).state = .sleeping →
    (table.proc slot).state = .sleeping ∧ (table'.proc slot).chan = (table.proc slot).chan
  woken : ∀ slot, (table'.proc slot).state = .sleeping →
    (∃ child ∈ handed, (table.proc child).parent = some curproc ∧
      ProcessTree.kind (table.proc child).state = .dead) →
    (table.proc slot).chan ≠ some (.proc table.initproc)

section Exit

variable {table table' : Table} {curproc : Slot}

theorem hands_nothing : Hands table curproc [] table where
  initproc := rfl
  control := rfl
  parent slot := by simp
  kind _ := rfl
  pid _ := rfl
  sleeping _ hstate := ⟨hstate, rfl⟩
  woken _ _ hchild := by
    obtain ⟨child, hmem, -⟩ := hchild
    cases hmem

theorem Hands.reparent (hhands : Hands table curproc handed table')
    (slot : Slot) : Hands table curproc (slot :: handed) (reparent curproc table' slot) := by
  obtain ⟨hinitproc, hcontrol, hparent, hkind, hpid, hsleeping, hwoken⟩ := hhands
  rw [Processes.reparent]
  by_cases hchild : (table'.proc slot).parent = some curproc
  · dsimp only
    have hprocs : ∀ other, (table'.modify slot fun proc =>
        { proc with parent := some table'.initproc }).proc other =
          if other = slot then { table'.proc slot with parent := some table'.initproc }
          else table'.proc other := update_apply _ _ _
    generalize hgiven : table'.modify slot (fun proc =>
      { proc with parent := some table'.initproc }) = given at hprocs ⊢
    have hgivenInit : given.initproc = table'.initproc := by
      rw [← hgiven]
      rfl
    have hgivenControl : given.control = table'.control := by
      rw [← hgiven]
      rfl
    split_ifs with hzombie
    · have hcalm : Calm given (wakeup1 (some (.proc given.initproc)) given) := calm_wakeup1 _
      refine ⟨hcalm.initproc.trans (hgivenInit.trans hinitproc),
        hcalm.control.trans (hgivenControl.trans hcontrol), ?_, ?_, ?_, ?_, ?_⟩
      · intro other
        rw [hcalm.parent]
        grind
      · intro other
        rw [hcalm.kind]
        grind
      · intro other
        rw [hcalm.pid]
        grind
      · intro other hstate
        obtain ⟨hsame, -⟩ := sleeping_wakeup1 hstate
        grind
      · intro other hstate _
        obtain ⟨hsame, hchan⟩ := sleeping_wakeup1 hstate
        grind
    · refine ⟨hgivenInit.trans hinitproc, hgivenControl.trans hcontrol, ?_, ?_, ?_, ?_, ?_⟩
      · grind
      · grind
      · grind
      · grind
      · intro other hstate hdead
        have hnot : ProcessTree.kind (table.proc slot).state ≠ .dead := by
          rw [← hkind, ne_eq, kind_zombie]
          grind
        grind
  · rw [if_neg hchild]
    refine ⟨hinitproc, hcontrol, ?_, hkind, hpid, hsleeping, ?_⟩
    · grind
    · grind

theorem Hands.reparent_all (hhands : Hands table curproc handed table') (list : List Slot) :
    Hands table curproc (list.reverse ++ handed)
      (list.foldl (Processes.reparent curproc) table') := by
  induction list generalizing handed table' with
  | nil => exact hhands
  | cons slot rest ih =>
    rw [reverse_cons, append_assoc]
    exact ih (hhands.reparent slot)

/-- A process has exited: its children are those of the first one, and whoever waited for
it or for a dead child of it is awake. -/
structure Exits (table : Table) (curproc : Slot) (table' : Table) : Prop where
  initproc : table'.initproc = table.initproc
  control : ∀ slot, table'.control slot =
    if slot = curproc then .free else table.control slot
  parent : ∀ slot, (table'.proc slot).parent =
    if (table.proc slot).parent = some curproc then some table.initproc
    else (table.proc slot).parent
  kind : ∀ slot, kind (table'.proc slot).state =
    if slot = curproc then .dead else ProcessTree.kind (table.proc slot).state
  pid : ∀ slot, (table'.proc slot).pid = (table.proc slot).pid
  sleeping : ∀ slot, (table'.proc slot).state = .sleeping →
    (table.proc slot).state = .sleeping ∧ (table'.proc slot).chan = (table.proc slot).chan
  woken : ∀ slot, (table'.proc slot).state = .sleeping →
    (table.proc slot).chan ≠ (table.proc curproc).parent.map .proc ∧
      ((∃ child, (table.proc child).parent = some curproc ∧
        ProcessTree.kind (table.proc child).state = .dead) →
          (table.proc slot).chan ≠ some (.proc table.initproc))

theorem exits_exitLocked (table : Table) (curproc : Slot) :
    Exits table curproc (exitLocked table curproc) := by
  have hcalm : Calm table (wakeup1 ((table.proc curproc).parent.map .proc) table) := calm_wakeup1 _
  have hhands : Hands (wakeup1 ((table.proc curproc).parent.map .proc) table) curproc _ _ :=
    hands_nothing.reparent_all slots
  have hall : ∀ slot, slot ∈ slots.reverse ++ [] := by
    intro slot
    rw [append_nil, mem_reverse]
    exact mem_finRange slot
  rw [exitLocked]
  generalize slots.foldl (Processes.reparent curproc)
    (wakeup1 ((table.proc curproc).parent.map .proc) table) = given at hhands ⊢
  obtain ⟨hinitproc, hprocs, hcontrols⟩ := edits_goto given curproc
    (fun proc => { proc with state := .zombie }) curproc .free
  generalize (given.modify curproc _).goto curproc .free = table'
    at hprocs hcontrols hinitproc ⊢
  refine ⟨hinitproc.trans (hhands.initproc.trans hcalm.initproc), ?_, ?_, ?_, ?_, ?_, ?_⟩
  · intro slot
    rw [hcontrols, hhands.control, hcalm.control]
  · intro slot
    have hparent := hhands.parent slot
    have hbefore := hcalm.parent slot
    have hinit := hcalm.initproc
    grind
  · intro slot
    have hkind := (hhands.kind slot).trans (hcalm.kind slot)
    grind
  · intro slot
    have hpid := (hhands.pid slot).trans (hcalm.pid slot)
    grind
  · intro slot hstate
    have hslept : (given.proc slot).state = .sleeping := by
      grind
    obtain ⟨hmiddle, hchan⟩ := hhands.sleeping slot hslept
    obtain ⟨hsame, -⟩ := sleeping_wakeup1 hmiddle
    grind
  · intro slot hstate
    have hslept : (given.proc slot).state = .sleeping := by
      grind
    obtain ⟨hmiddle, -⟩ := hhands.sleeping slot hslept
    obtain ⟨hsame, hchan⟩ := sleeping_wakeup1 hmiddle
    refine ⟨hchan, ?_⟩
    rintro ⟨child, hchild, hdead⟩
    have hwoken := hhands.woken slot hslept ⟨child, hall child,
      (hcalm.parent child).trans hchild, (hcalm.kind child).trans hdead⟩
    rw [hsame, hcalm.initproc] at hwoken
    exact hwoken

theorem Tree.exit (htree : Tree table) (hexits : Exits table curproc table')
    (hexiting : table.control curproc = .exiting) : Tree table' := by
  obtain ⟨hinit, hcontrols, hparents', hkinds, -, hsleeping, hwoken⟩ := hexits
  have hstays := htree.init_stays
  have hlives := htree.init
  have hinitParent := htree.init_parent
  have hforking := @Tree.forking _ htree
  have hparents := @Tree.parents _ htree
  have hlive : kind (table.proc curproc).state = .live := by
    by_contra hdead
    rw [htree.idle hdead] at hexiting
    cases hexiting
  constructor
  · grind
  · grind
  · grind
  · grind
  · have hchildren := @Tree.children _ htree
    grind
  · have hnone := @Tree.unused _ htree
    grind
  · have hidle := @Tree.idle _ htree
    grind
  · grind
  · have hsingle := @Tree.single _ htree
    grind
  · have hsleepers := @Tree.sleepers _ htree
    intro slot hwaiting hstate
    obtain ⟨hslept, hchan⟩ := hsleeping slot hstate
    have hbefore : table.control slot = .waiting := by
      grind
    obtain ⟨hself, hnone⟩ := hsleepers hbefore hslept
    refine ⟨hchan.trans hself, ?_⟩
    intro child hchild hdead
    grind

end Exit

section Steps

variable {table table' : Table} {curproc slot child : Slot} {action : Action}

def Quiet : Action → Prop
  | .schedule _ | .yield _ | .sleep _ _ | .wakeup _ | .fault _ | .kill _ _ | .setuid _ _
  | .exec _ _ => True
  | .fork _ | .forkFails _ | .forkCopy _ | .forkReturn _ | .exit _ | .exitLocked _
  | .wait _ => False

theorem calm_kill (table : Table) (pid : ℤ) : Calm table (kill table pid) := by
  cases hfind : slots.find? fun slot => (table.proc slot).pid = pid with
  | none =>
    rw [(kill_none hfind).2]
    exact calm_refl
  | some found =>
    rw [(kill_some hfind).2]
    apply calm_modify
    · rfl
    · rw [mark]
      split_ifs with hsleeping
      · rw [hsleeping]
        rfl
      · rfl
    · rfl
    · intro _ hstate
      rw [mark] at hstate
      split_ifs at hstate with hsleeping
      exact absurd hstate hsleeping

theorem calm_setuid (table : Table) (curproc : Slot) (argument : Option ℤ) :
    Calm table (setuid table curproc argument) := by
  cases argument with
  | none => exact calm_refl
  | some uid =>
    rw [setuid]
    split_ifs
    · exact calm_refl
    · exact calm_modify (by rfl) (by rfl) (by rfl) (by exact fun _ hstate => ⟨hstate, rfl⟩)

theorem calm_exec (table : Table) (curproc : Slot) (path : Option (List Byte)) :
    Calm table (exec table curproc path) := by
  cases path with
  | none => exact calm_refl
  | some path =>
    rw [exec]
    exact calm_modify (by rfl) (by rfl) (by rfl) (by exact fun _ hstate => ⟨hstate, rfl⟩)

theorem calm_step (hquiet : Quiet action) (hstep : step table action = some table') :
    Calm table table' := by
  cases action with
  | schedule slot =>
    obtain ⟨hstate, rfl⟩ := of_guard hstep
    exact calm_modify (by rfl) (by rw [hstate]; rfl) (by rfl) (by exact nofun)
  | yield slot =>
    obtain ⟨hstate, rfl⟩ := of_guard hstep
    exact calm_modify (by rfl) (by rw [hstate]; rfl) (by rfl) (by exact nofun)
  | sleep slot chan =>
    obtain ⟨hat, rfl⟩ := of_guard hstep
    have hstate : (table.proc slot).state = .running := hat.elim And.left And.left
    apply calm_modify (by rfl) (by rw [hstate]; rfl) (by rfl)
    intro hwaiting
    cases hat with
    | inl hfree => exact absurd (hfree.2.symm.trans hwaiting) nofun
    | inr hexiting => exact absurd (hexiting.2.symm.trans hwaiting) nofun
  | wakeup chan =>
    cases hstep
    exact calm_wakeup1 _
  | fault slot =>
    obtain ⟨-, rfl⟩ := of_guard hstep
    exact calm_modify (by rfl) (by rfl) (by rfl) (by exact fun _ hstate => ⟨hstate, rfl⟩)
  | kill slot pid =>
    obtain ⟨-, rfl⟩ := of_guard hstep
    exact calm_kill table pid
  | setuid slot argument =>
    obtain ⟨-, rfl⟩ := of_guard hstep
    exact calm_setuid table slot argument
  | exec slot path =>
    obtain ⟨-, rfl⟩ := of_guard hstep
    exact calm_exec table slot path
  | fork _ | forkFails _ | forkCopy _ | forkReturn _ | exit _ | exitLocked _ | wait _ =>
    cases hquiet

/-- The child that has exited and that `wait` finds. -/
def reapable (table : Table) (curproc : Slot) : Option Slot :=
  slots.find? fun slot =>
    (table.proc slot).parent = some curproc ∧ (table.proc slot).state = .zombie

theorem wait_some (hchild : reapable table curproc = some child) :
    wait table curproc = (table.modify child fun proc =>
      { proc with pid := 0, parent := none, name := [], killed := false,
                  state := .unused }).goto curproc .free := by
  rw [reapable] at hchild
  rw [wait, hchild]

theorem wait_none (hnone : reapable table curproc = none) :
    wait table curproc =
      if (∀ slot, (table.proc slot).parent ≠ some curproc) ∨
          (table.proc curproc).killed then
        table.goto curproc .free
      else
        (table.modify curproc fun proc =>
          { proc with state := .sleeping, chan := some (.proc curproc) }).goto
            curproc .waiting := by
  rw [reapable] at hnone
  rw [wait, hnone]

theorem reapable_eq_some (hchild : reapable table curproc = some child) :
    (table.proc child).parent = some curproc ∧ (table.proc child).state = .zombie := by
  have hfound := find?_some hchild
  rwa [decide_eq_true_eq] at hfound

theorem reapable_eq_none (hnone : reapable table curproc = none)
    (hparent : (table.proc child).parent = some curproc) : (table.proc child).state ≠ .zombie := by
  intro hstate
  have hmissed := find?_eq_none.1 hnone child (mem_finRange child)
  rw [decide_eq_true_eq] at hmissed
  exact hmissed ⟨hparent, hstate⟩

theorem edits_only_goto (table : Table) (curproc : Slot) (control : Control) :
    Edits table curproc (table.proc curproc) curproc control (table.goto curproc control) where
  initproc := rfl
  procs slot := by
    split_ifs with hslot
    · rw [hslot]
      rfl
    · rfl
  controls _ := update_apply ..

theorem kind_running (hstate : state = .running) : kind state = .live := by
  rw [hstate]
  rfl

theorem Tree.wait (htree : Tree table) (hstate : (table.proc curproc).state = .running) :
    Tree (wait table curproc) := by
  cases hfound : reapable table curproc with
  | some child =>
    obtain ⟨-, hzombie⟩ := reapable_eq_some hfound
    rw [wait_some hfound]
    exact htree.reap (kind_running hstate) hzombie (edits_goto ..) rfl rfl
  | none =>
    rw [wait_none hfound]
    split_ifs
    · exact htree.move (kind_running hstate) (edits_only_goto ..) (kind_running hstate) rfl
        nofun nofun nofun
    · refine htree.move (kind_running hstate) (edits_goto ..) (by rfl) (by rfl)
        (by exact nofun) (by exact nofun) ?_
      intro _ _
      refine ⟨rfl, ?_⟩
      intro child hchild hdead
      exact reapable_eq_none hfound hchild (kind_zombie.1 hdead)

/-- The slot that `fork` takes. -/
def forked (table : Table) : Option Slot :=
  slots.find? fun slot => (table.proc slot).state = .unused

/-- `fork` takes a slot that holds no process. -/
theorem fork_cases (table : Table) (curproc : Slot) :
    (forked table = none ∧ fork table curproc = table) ∨
      ∃ child, forked table = some child ∧ (table.proc child).state = .unused ∧ Edits table child
          { table.proc child with state := .embryo, pid := table.nextpid } curproc
          (.forking child false) (fork table curproc) := by
  rw [fork, allocproc, ← forked]
  cases hfind : forked table with
  | none => exact .inl ⟨rfl, rfl⟩
  | some child =>
    refine .inr ⟨child, rfl, by simpa using find?_some hfind, rfl, ?_, ?_⟩
    · exact fun _ => update_apply ..
    · exact fun _ => update_apply ..

/-- The child of a `fork` that returns is in no call. -/
theorem edits_forkReturn (htree : Tree table)
    (hforking : table.control curproc = .forking child true) :
    Edits table child { table.proc child with state := .runnable } curproc .free
      (forkReturn table curproc child) where
  initproc := rfl
  procs _ := update_apply ..
  controls slot := by
    have hidle : table.control child = .free := by
      apply htree.idle
      rw [(htree.forking hforking).1]
      decide
    calc (forkReturn table curproc child).control slot
        = if slot = curproc then .free else
            update table.control child .free slot := update_apply ..
      _ = if slot = curproc then .free else table.control slot := by
          rw [← hidle, update_eq_self]

theorem Tree.step (htree : Tree table) (hstep : step table action = some table') : Tree table' := by
  cases action with
  | schedule _ | yield _ | sleep _ _ | wakeup _ | fault _ | kill _ _ | setuid _ _ | exec _ _ =>
    exact htree.calm (calm_step (by trivial) hstep)
  | fork slot =>
    obtain ⟨hat, rfl⟩ := of_guard hstep
    obtain ⟨-, hsame⟩ | ⟨child, -, hunused, hedits⟩ := fork_cases table slot
    · rw [hsame]
      exact htree
    · exact htree.fork (kind_running hat.1) hunused hedits rfl rfl
  | forkFails slot =>
    obtain ⟨child, hfilling, rfl⟩ := Option.map_eq_some_iff.1 hstep
    exact htree.fill (filling_eq_some hfilling).2 (edits_goto ..) .fails
  | forkCopy slot =>
    obtain ⟨child, hfilling, rfl⟩ := Option.map_eq_some_iff.1 hstep
    exact htree.fill (filling_eq_some hfilling).2 (edits_goto ..) .copies
  | forkReturn slot =>
    obtain ⟨child, hfilling, rfl⟩ := Option.map_eq_some_iff.1 hstep
    have hforking := (filling_eq_some hfilling).2
    exact htree.fill hforking (edits_forkReturn htree hforking) .returns
  | exit slot =>
    obtain ⟨hexits, rfl⟩ := of_guard hstep
    have hlive := kind_running hexits.1.1
    exact htree.move hlive (edits_only_goto ..) hlive rfl nofun (fun _ => hexits.2) nofun
  | exitLocked slot =>
    obtain ⟨hat, rfl⟩ := of_guard hstep
    exact htree.exit (exits_exitLocked table slot) hat.2
  | wait slot =>
    obtain ⟨hat, rfl⟩ := of_guard hstep
    exact htree.wait (hat.elim And.left And.left)

end Steps

end Xv6Users.ProcessTree
