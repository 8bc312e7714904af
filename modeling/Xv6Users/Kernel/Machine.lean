import Xv6Users.Kernel.CallTable

/-!
# Runs of system calls

A machine starts from any disk image with the one process of `userinit`, and its
processes make system calls one at a time.  A call that blocks leaves the state it
blocks in.  Owners can only be changed by root, but for the call
`updateDirOwner`, which does not check its caller.
-/

namespace Xv6Users.Machine

open Function

open Contracts Holders Processes Inodes InodeAccount Moves InodeSpecs Syscalls CallSpecs CallTable

variable {call : Call} {run : Run} {curproc : Slot} {state state' : State}

/-- What is on the disk. -/
structure Image where
  ninodes : ℕ
  disk : ℕ → Dinode
  data : ℕ → List Byte

/-- The kernel before the first process: its tables are zero. -/
def cold (image : Image) : State where
  ninodes := image.ninodes
  disk := image.disk
  data := image.data
  gen _ := 0
  icache _ := ⟨0, 0, none, false, emptyDinode .free⟩
  ftable _ := ⟨.none, 0, false, false, none, 0⟩
  table := Processes.boot
  ofile _ _ := none
  cwd _ := none
  outstanding := 0

/-- `userinit`: the first process starts in the root directory. -/
def startUp : K Unit := do
  let table ← Op.gets State.table
  match allocproc table with
  | none => Op.halt .null
  | some (_, slot) => do
    setTable fun table => userinit.getD table
    let ip ← namei slot [slash]
    setCwd slot ip

def left {α : Type} : Outcome State Stop α → Option State
  | .done _ state => some state
  | .blocked state => some state
  | .halted _ => none

def answer {α : Type} : Outcome State Stop α → Option α
  | .done result _ => some result
  | .blocked _ => none
  | .halted _ => none

theorem answer_eq_some {α : Type} {outcome : Outcome State Stop α} {result : α}
    (hanswer : answer outcome = some result) : ∃ state, outcome = .done result state := by
  cases outcome with
  | done other state =>
    cases hanswer
    exact ⟨state, rfl⟩
  | blocked state => cases hanswer
  | halted reason => cases hanswer

theorem blocked_of_answer {α : Type} {outcome : Outcome State Stop α}
    (hanswer : answer outcome = none) (hleft : (left outcome).isSome) :
    ∃ state, outcome = .blocked state := by
  cases outcome with
  | done result state => cases hanswer
  | blocked state => exact ⟨state, rfl⟩
  | halted reason => cases hleft

def Calls (state : State) (curproc : Slot) (call : Call) (state' : State) : Prop :=
  (state.table.proc curproc).state = .runnable ∧ left (syscall curproc call state) = some state'

inductive Reachable : State → Prop where
  | start {image : Image} {state : State}
      (hstart : left (startUp (cold image)) = some state) : Reachable state
  | step {state state' : State} {curproc : Slot} {call : Call}
      (hstate : Reachable state) (hcall : Calls state curproc call state') :
      Reachable state'

theorem ends_left {α : Type} {op : K α} {rel : State → State → Prop} {stuck : State → Prop}
    {post : α → State → Prop} {inv : State → Prop} (hends : Ends op state rel stuck post)
    (hstuck : ∀ {last}, stuck last → inv last)
    (hpost : ∀ {result last}, post result last → inv last) (hleft : left (op state) = some state') :
    rel state state' ∧ inv state' := by
  unfold Ends at hends
  cases hout : op state with
  | done result last =>
    rw [hout] at hends hleft
    cases hleft
    exact ⟨hends.1, hpost hends.2⟩
  | blocked last =>
    rw [hout] at hends hleft
    cases hleft
    exact ⟨hends.1, hstuck hends.2⟩
  | halted reason =>
    rw [hout] at hleft
    cases hleft

theorem cold_accounted (image : Image) : Accounted 0 (cold image) where
  unique ip jp hip := absurd hip (lt_irrefl 0)
  typed ip hip := absurd hip (lt_irrefl 0)
  counted ip := by
    have hclean : ¬ Dirty (cold image) ip := fun hdirty => lt_irrefl 0 hdirty.1
    have hfiles : holds (cold image) ip = 0 := by
      simp [holds, holders, cold, fileInode]
    exact le_rfl

theorem cold_tidy (image : Image) : Tidy (cold image) :=
  ⟨fun _ _ => rfl, fun _ _ => rfl⟩

variable {image : Image}

/-- The first process runs and holds the root directory. -/
theorem startUp_spec (hacc : run.At 0 (cold image)) :
    run.Does startUp (cold image) (owning ∅) fun _ state' => run.At 0 state' := by
  have houter : (owning ∅).outer := trivial
  refine .gets_bind ?_
  split
  · exact .halt _
  next slot halloc =>
    refine (setTable_spec houter hacc _ (.inr fun _ _ => rfl)).bind
      fun _ started _ hstarted => ?_
    obtain ⟨hstarted, rfl⟩ := hstarted
    refine (namei_spec slot _ (Std.Refl.refl _) hstarted.now).looking.bind
      fun found looked _ hfound => ?_
    obtain ⟨hlooks, hfound, -⟩ := hfound
    have hinner := hlooks.inner id
    have hpass : run.Passes (0 + taken found) 0 (looked.cwd slot) found := by
      rw [hinner.cwd]
      exact fun ip => ⟨by simp [cold], .inr (by simp [cold, taken])⟩
    have hbusy : Idle (looked.table.proc slot) → found = none := by
      intro hidle
      rw [hinner.table] at hidle
      cases (show allocproc Processes.boot = some (_, 0) from rfl).symm.trans halloc
      have hready : ¬ Idle ((userinit.getD Processes.boot).proc 0) := by
        decide +kernel
      exact absurd hidle hready
    exact (setCwd_spec houter hfound.now slot found hpass (.inr hbusy)).mono
      (fun _ => id) fun _ _ _ hset => hset.1.now

theorem Calls.spec {owner : Set ℕ} (hcall : Calls state curproc call state')
    (hacc : Accounted 0 state) (howner : MayOwn state curproc call → owner = Set.univ) :
    Frame (owning owner) state state' ∧ Accounted 0 state' :=
  have hstart : (Run.any state).At 0 state := Run.start (Run.any state) hacc
  ends_left (syscall_spec trivial hstart curproc call howner (fun _ _ => Set.mem_univ _)
    (fun _ => trivial) fun _ => trivial)
    Run.Stuck.accounted Run.At.accounted hcall.2

theorem Reachable.accounted (hstate : Reachable state) : Accounted 0 state := by
  induction hstate with
  | start hstart =>
    rename_i image state
    exact (ends_left (startUp_spec (Run.start (Run.any (cold image)) (cold_accounted image)))
      Run.Stuck.accounted Run.At.accounted hstart).2
  | step _ hcall ih => exact (hcall.spec ih fun _ => rfl).2

/-- The machine after `userinit`, with its first process in the root directory. -/
def booted (image : Image) : State :=
  { cold image with
    icache := update (cold image).icache 0
      ⟨rootIno, 1, none, false, emptyDinode .free⟩
    cwd := update (cold image).cwd 0 (some 0)
    table := userinit.getD Processes.boot }

/-- The states that a booted machine reaches by these steps. -/
inductive ReachedBy (step : State → Slot → Call → State → Prop) (image : Image) :
    State → Prop where
  | start : ReachedBy step image (booted image)
  | step {state state' : State} {curproc : Slot} {call : Call}
      (hstate : ReachedBy step image state) (hstep : step state curproc call state') :
      ReachedBy step image state'

def Returned (state : State) (curproc : Slot) (call : Call) (state' : State) : Prop :=
  (state.table.proc curproc).state = .runnable ∧
    ∃ result, syscall curproc call state = .done result state'

theorem booted_at (hat : run.At 0 (cold image)) : run.At 0 (booted image) :=
  (show run.Does startUp (cold image) (owning ∅) _ from startUp_spec hat).2

/-- A call that may do what it does goes on with the run. -/
theorem Returned.at (hreturned : Returned state curproc call state') (hat : run.At 0 state)
    (htree : run.tree) (hpaths : ∀ path ∈ entered call, path ∈ run.paths)
    (hleaks : Leaks state curproc call → run.leaks)
    (hrights : SetsRights state curproc call → run.rights) : run.At 0 state' := by
  have hdoes := syscall_spec htree hat curproc call (fun _ => rfl) hpaths hleaks hrights
  obtain ⟨-, result, hdone⟩ := hreturned
  unfold Run.Does Ends at hdoes
  rw [hdone] at hdoes
  exact hdoes.2

/-- If references may be forgotten, the run goes on also where a call blocks. -/
theorem Calls.at (hcall : Calls state curproc call state') (hat : run.At 0 state)
    (htree : run.tree) (hpaths : ∀ path ∈ entered call, path ∈ run.paths) (hleaks : run.leaks)
    (hrights : SetsRights state curproc call → run.rights) : run.At 0 state' := by
  have hdoes := syscall_spec htree hat curproc call (fun _ => rfl) hpaths
    (fun _ => hleaks) hrights
  have hforget : ∀ {last}, run.Stuck last → run.At 0 last := by
    rintro last ⟨flight, hstuck⟩
    exact hstuck.weaken hleaks fun _ => Nat.zero_le _
  exact (ends_left hdoes hforget id hcall.2).2

def emptyRoot (mode : UInt32) : Image where
  ninodes := 8
  disk inum := if inum = rootIno then { emptyDinode .dir with nlink := 1, mode }
    else emptyDinode .free
  data inum := if inum = rootIno then
      direntBytes rootIno dot ++ direntBytes rootIno dotdot
    else []

/-- The processes after the first one has called `setuid`. -/
def userTable (uid : ℤ) : Processes.Table :=
  Processes.setuid (userinit.getD Processes.boot) 0 (some uid)

/-- The machine with one process, which is that of a user. -/
def asUid (uid : ℤ) (image : Image) : State :=
  { cold image with
    icache := update (cold image).icache 0
      ⟨rootIno, 1, none, false, emptyDinode .free⟩
    cwd := update (cold image).cwd 0 (some 0)
    table := userTable uid }

theorem asUid_reachable (uid : ℤ) (image : Image) : Reachable (asUid uid image) := by
  have hstart : left (startUp (cold image)) = some (booted image) := rfl
  have hset : left (syscall 0 (.setuid (some uid)) (booted image)) = some (asUid uid image) := rfl
  have hready : ((userinit.getD Processes.boot).proc 0).state = .runnable := by
    decide +kernel
  exact .step (.start hstart) ⟨hready, hset⟩

/-- Calls that processes other than those of root make, all of them `allowed`. -/
inductive UserRun (allowed : Call → Prop) (start : State) : State → Prop where
  | refl : UserRun allowed start start
  | step {state state' : State} {curproc : Slot} {call : Call}
      (hrun : UserRun allowed start state)
      (huser : (state.table.proc curproc).uid ≠ root) (hallowed : allowed call)
      (hcall : Calls state curproc call state') : UserRun allowed start state'

/-- A call other than `updateDirOwner`. -/
def ChecksOwner : Call → Prop
  | .updateDirOwner .. => False
  | _ => True

theorem not_mayOwn (huser : (state.table.proc curproc).uid ≠ root) (hchecks : ChecksOwner call) :
    ¬ MayOwn state curproc call := by
  intro hmay
  cases call with
  | chown path uid gid => exact huser hmay
  | updateDirOwner path uid gid beyond => exact hchecks
  | _ => exact hmay

theorem UserRun.frame {start : State} (hrun : UserRun ChecksOwner start state)
    (hacc : Accounted 0 start) : Frame (owning ∅) start state ∧ Accounted 0 state := by
  induction hrun with
  | refl => exact ⟨Std.Refl.refl start, hacc⟩
  | step _ huser hallowed hcall ih =>
    obtain ⟨hframe, hacc'⟩ := ih
    obtain ⟨hstep, hlast⟩ := hcall.spec hacc'
      fun hmay => absurd hmay (not_mayOwn huser hallowed)
    exact ⟨IsTrans.trans _ _ _ hframe hstep, hlast⟩

def KeepsOwner (state state' : State) (inum : ℕ) : Prop :=
  state'.gen inum = state.gen inum → (recorded state' inum).uid = (recorded state inum).uid ∧
      (recorded state' inum).gid = (recorded state inum).gid

/-- From every reachable state, calls of processes other than root's change no
owner, whatever their arguments, unless `updateDirOwner` is among them. -/
theorem owners_kept {start state : State} (hstart : Reachable start)
    (hrun : UserRun ChecksOwner start state) (inum : ℕ) : KeepsOwner start state inum := by
  intro hgen
  have hframe := (hrun.frame hstart.accounted).1
  exact (hframe.same inum hgen).owner (Set.notMem_empty inum)

/-- User 1000 cannot take the root directory with `chown`. -/
theorem chown_keeps_root :
    ∃ start state, Reachable start ∧
      Calls start 0 (.chown (some [slash]) (some 1000) (some 1000)) state ∧
      (start.table.proc 0).uid ≠ root ∧ KeepsOwner start state rootIno := by
  have hruns : ∃ first ∈ left (startUp (cold (emptyRoot 0o755))),
      ∃ start ∈ left (syscall 0 (.setuid (some 1000)) first),
      ∃ state ∈ left (syscall 0 (.chown (some [slash]) (some 1000) (some 1000)) start),
      (first.table.proc 0).state = .runnable ∧ (start.table.proc 0).state = .runnable ∧
        (start.table.proc 0).uid ≠ root := by
    decide +kernel
  obtain ⟨first, hfirst, start, hstart, state, hstate, hready, hready', huser⟩ := hruns
  have hreachable : Reachable start := .step (.start hfirst) ⟨hready, hstart⟩
  have hchecks : ChecksOwner (.chown (some [slash]) (some 1000) (some 1000)) := trivial
  exact ⟨start, state, hreachable, ⟨hready', hstate⟩, huser,
    owners_kept hreachable (.step .refl huser hchecks ⟨hready', hstate⟩) rootIno⟩

/-- A process of user 1000 becomes the owner of the root directory. -/
theorem updateDirOwner_takes_root :
    ∃ start state, Reachable start ∧ UserRun (fun _ => True) start state ∧
      ¬ KeepsOwner start state rootIno := by
  have hruns : ∃ first ∈ left (startUp (cold (emptyRoot 0o755))),
      ∃ start ∈ left (syscall 0 (.setuid (some 1000)) first),
      ∃ state ∈ left (syscall 0 (.updateDirOwner (some [slash]) (some 1000) (some 1000) []) start),
      (first.table.proc 0).state = .runnable ∧ (start.table.proc 0).state = .runnable ∧
        (start.table.proc 0).uid ≠ root ∧ state.gen rootIno = start.gen rootIno ∧
        (recorded state rootIno).uid ≠ (recorded start rootIno).uid := by
    decide +kernel
  obtain ⟨first, hfirst, start, hstart, state, hstate, hready, hready', huser, hgen,
    hchanged⟩ := hruns
  refine ⟨start, state, .step (.start hfirst) ⟨hready, hstart⟩,
    .step .refl huser trivial ⟨hready', hstate⟩, fun hkeeps => ?_⟩
  exact hchanged (hkeeps hgen).1

end Xv6Users.Machine
