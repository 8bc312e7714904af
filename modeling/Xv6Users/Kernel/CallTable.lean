import Xv6Users.Kernel.CreateSpecs

/-!
# The table of system calls

The contracts of the remaining calls, and of the whole table: from any state that
a booted machine reaches, every call keeps the account of the inode cache, and
changes owners only if root makes it or if it is `updateDirOwner`.
-/

namespace Xv6Users.CallTable

open Function Option Set

open Contracts Holders Processes Inodes InodeAccount Moves InodeSpecs Syscalls CallSpecs CreateSpecs

variable {ip : Ip} {child curproc : Slot}

section Idling

variable {table : Processes.Table} {slot other : Slot}

theorem idle_modify {change : Proc → Proc}
    (hchange : Idle (change (table.proc slot)) → Idle (table.proc slot))
    (hidle : Idle ((table.modify slot change).proc other)) : Idle (table.proc other) := by
  rw [Processes.Table.modify] at hidle
  by_cases hother : other = slot
  · subst hother
    simp only [update_self] at hidle
    exact hchange hidle
  · simpa [hother] using hidle

theorem idle_exec {path : Option (List Byte)}
    (hidle : Idle ((Processes.exec table curproc path).proc other)) : Idle (table.proc other) := by
  cases path with
  | none => exact hidle
  | some path =>
    rw [Processes.exec] at hidle
    exact idle_modify id hidle

theorem idle_setuid {uid : Option ℤ}
    (hidle : Idle ((Processes.setuid table curproc uid).proc other)) : Idle (table.proc other) := by
  cases uid with
  | none => exact hidle
  | some uid =>
    rw [Processes.setuid] at hidle
    split_ifs at hidle
    · exact hidle
    · exact idle_modify id hidle

theorem idle_kill {pid : ℤ} (hidle : Idle ((Processes.kill table pid).proc other)) :
    Idle (table.proc other) := by
  rw [Processes.kill] at hidle
  split at hidle
  · exact hidle
  · refine idle_modify (fun hkilled => ?_) hidle
    rw [Idle] at hkilled ⊢
    split_ifs at hkilled with hsleeps
    · simp at hkilled
    · exact hkilled

theorem idle_fork (hidle : Idle ((Processes.fork table curproc).proc other)) :
    Idle (table.proc other) := by
  rw [Processes.fork] at hidle
  cases halloc : allocproc table with
  | none =>
    rw [halloc] at hidle
    exact hidle
  | some found =>
    obtain ⟨hunused, hproc, -⟩ := allocproc_eq_some halloc
    simp only [halloc, proc_goto, hproc] at hidle
    exact idle_modify (fun _ => .inl hunused) hidle

theorem idle_forkCopy (hidle : Idle ((forkCopy table curproc child).proc other)) :
    Idle (table.proc other) := by
  rw [forkCopy, proc_goto] at hidle
  exact idle_modify id hidle

theorem idle_forkReturn (hidle : Idle ((forkReturn table curproc child).proc other)) :
    Idle (table.proc other) := by
  rw [forkReturn, proc_goto, proc_goto] at hidle
  exact idle_modify (fun hready => by simp [Idle] at hready) hidle

/-- Only the child becomes unused. -/
theorem idle_forkFails (hidle : Idle ((forkFails table curproc child).proc other)) :
    other = child ∨ Idle (table.proc other) := by
  by_cases hother : other = child
  · exact Or.inl hother
  · apply Or.inr
    simpa [forkFails, Processes.Table.modify, hother] using hidle

theorem idle_wakeup1 {chan : Option Chan}
    (hidle : Idle ((wakeup1 chan table).proc other)) : Idle (table.proc other) := by
  simp only [wakeup1] at hidle
  split_ifs at hidle
  · simp [Idle] at hidle
  · exact hidle

theorem idle_reparent (hidle : Idle ((reparent curproc table slot).proc other)) :
    Idle (table.proc other) := by
  rw [reparent] at hidle
  dsimp only at hidle
  split_ifs at hidle
  · exact idle_modify id (idle_wakeup1 hidle)
  · exact idle_modify id hidle
  · exact hidle

theorem idle_foldl_reparent (slots : List Slot)
    (hidle : Idle ((slots.foldl (reparent curproc) table).proc other)) :
    Idle (table.proc other) := by
  induction slots generalizing table with
  | nil => exact hidle
  | cons slot rest ih => exact idle_reparent (ih hidle)

/-- Only the process that exits becomes a zombie. -/
theorem idle_exitLocked (hidle : Idle ((exitLocked table curproc).proc other)) :
    other = curproc ∨ Idle (table.proc other) := by
  by_cases hother : other = curproc
  · exact Or.inl hother
  · apply Or.inr
    simp only [exitLocked, Processes.Table.modify, proc_goto, update_of_ne hother] at hidle
    exact idle_wakeup1 (idle_foldl_reparent slots hidle)

theorem idle_wait (hidle : Idle ((Processes.wait table curproc).proc other)) :
    Idle (table.proc other) := by
  rw [Processes.wait] at hidle
  split at hidle
  next child hfound =>
    have hchild := List.find?_some hfound
    simp only [decide_eq_true_eq] at hchild
    rw [proc_goto] at hidle
    exact idle_modify (fun _ => .inr hchild.2) hidle
  · split_ifs at hidle
    · exact hidle
    · rw [proc_goto] at hidle
      exact idle_modify (fun hsleeps => by simp [Idle] at hsleeps) hidle

end Idling

section Tables

variable {run : Run} {flight : Ip → ℕ} {state : State} {footprint : Footprint}

/-- No slot falls out of use. -/
theorem setTable_kept (houter : footprint.outer) (hacc : run.At flight state)
    (change : Processes.Table → Processes.Table)
    (hkept : ∀ slot, Idle ((change state.table).proc slot) → Idle (state.table.proc slot)) :
    run.Does (setTable change) state footprint fun _ state' =>
      run.After flight flight state state' := by
  refine (setTable_spec houter hacc change ?_).mono (fun _ => id) fun _ _ _ hset => hset.1
  exact hacc.tidy.imp_right fun htidy slot hidle => htidy.dirs slot (hkept slot hidle)

end Tables

section Directories

variable {run : Run} {flight flight' : Ip → ℕ} {state : State} {footprint : Footprint}

/-- `iput` in one equation. -/
theorem iput_eq (ip : Ip) (state : State) :
    iput ip state =
      if (state.icache ip).lock.isSome then .blocked state
      else if (state.icache ip).valid ∧ (state.icache ip).info.nlink = 0 ∧
          (state.icache ip).ref = 1 then
        if state.outstanding < 1 then .halted (.panic "log_write outside of trans")
        else .done () ((State.freed state ip).setInode ip
          fun inode => { inode with ref := inode.ref - 1 })
      else .done () (state.setInode ip fun inode => { inode with ref := inode.ref - 1 }) := by
  simp only [iput, bind, Op.bind, getInode, Op.gets]
  split_ifs with hlock hlast hlog
  · rfl
  · simp only [whenever, if_pos hlast, Op.bind, freeInode_eq, if_pos hlog]
  · simp only [whenever, if_pos hlast, Op.bind, freeInode_eq, if_neg hlog]
    rfl
  · simp only [whenever, if_neg hlast]
    rfl

/-- `iput` does not look at the current directories. -/
theorem iput_withCwd (ip : Ip) (state : State) (cwd : Slot → Option Ip) :
    iput ip { state with cwd } =
      match iput ip state with
      | .done result state' => .done result { state' with cwd }
      | .blocked state' => .blocked { state' with cwd }
      | .halted reason => .halted reason := by
  rw [iput_eq, iput_eq]
  split_ifs
  · rfl
  · rfl
  · rfl
  · rfl

theorem iput_cwd {state' : State} (hput : iput ip state = .done () state') :
    state'.cwd = state.cwd := by
  have hsame := iput_withCwd ip state state.cwd
  rw [show { state with cwd := state.cwd } = state from rfl, hput] at hsame
  simp only [Outcome.done.injEq, true_and] at hsame
  rw [hsame]

/-- The current directory is given back, while the process still points to it, and
then replaced. -/
theorem replaceCwd_spec (houter : footprint.outer) (hacc : run.At flight state)
    (curproc : Slot) (value : Option Ip) (hpass : run.Passes flight flight' none value) :
    run.Does (putCwd curproc >>= fun _ => endOp >>= fun _ => setCwd curproc value) state
      footprint fun _ state' =>
        run.At flight' state' ∧ state'.cwd curproc = value := by
  rw [putCwd, Op.bind_assoc]
  refine .gets_bind ?_
  cases hcwd : state.cwd curproc with
  | none => exact .halt _
  | some ip =>
    have hbusy : run.leaks ∨ ¬ Idle (state.table.proc curproc) := by
      refine hacc.tidy.imp_right fun htidy hidle => ?_
      rw [htidy.dirs curproc hidle] at hcwd
      cases hcwd
    -- Without the pointer of the process its reference is in flight.
    have hmoved : run.Does (setCwd curproc none) state footprint fun _ state' =>
        run.After flight (flight + one ip) state state' ∧
          state' = { state with cwd := update state.cwd curproc none } := by
      refine setCwd_spec houter hacc curproc none ?_ (.inr fun _ => rfl)
      rw [hcwd]
      exact fun jp => ⟨le_rfl, .inr rfl⟩
    obtain ⟨hframe, hmoved, -⟩ := hmoved
    have hput : run.Does (iput ip) _ looks _ := iput_spec hmoved.now
    unfold Run.Does Ends at hput
    rw [iput_withCwd] at hput
    unfold Ends
    simp only [bind, Op.bind]
    cases hout : iput ip state with
    | halted reason => trivial
    | blocked state' =>
      rw [iput_eq] at hout
      split_ifs at hout
      cases hout
      exact ⟨Std.Refl.refl state, hacc.stuck⟩
    | done result state' =>
      rw [hout] at hput
      obtain ⟨hlooks, hput⟩ := hput
      have htable : state'.table = state.table := (hlooks.inner id).table
      have hend : run.Does endOp _ footprint _ := endOp_spec hput.now
      obtain ⟨hframe', hend⟩ := hend
      have hlast : run.Does (setCwd curproc value) _ footprint _ :=
        @setCwd_spec run flight flight' _ footprint houter hend.now curproc value ?_ ?_
      · obtain ⟨hframe'', hlast, -⟩ := hlast
        have hsame := iput_cwd hout
        have hstate : ({ state' with
            outstanding := state'.outstanding - 1
            cwd := update (update state.cwd curproc none)
              curproc value } : State) = { state' with
            outstanding := state'.outstanding - 1
            cwd := update state'.cwd curproc value } := by
          rw [update_idem, hsame]
        change Frame footprint _ { state' with
            outstanding := state'.outstanding - 1
            cwd := update (update state.cwd curproc none)
              curproc value } at hframe''
        replace hlast := hlast.now
        change run.At flight' { state' with
            outstanding := state'.outstanding - 1
            cwd := update (update state.cwd curproc none)
              curproc value } at hlast
        rw [hstate] at hframe'' hlast
        exact ⟨IsTrans.trans _ _ _ hframe (IsTrans.trans _ _ _
          (hlooks.mono (looks_le footprint)) (IsTrans.trans _ _ _ hframe' hframe'')),
          hlast, update_self ..⟩
      · change run.Passes flight flight' (update state.cwd curproc none curproc) value
        rw [update_self]
        exact hpass
      · refine hbusy.imp_right fun hbusy hidle => ?_
        rw [htable] at hidle
        exact absurd hidle hbusy

theorem replaceCwd_bind {β : Type} {next : Unit → K β} {last : β → State → Prop}
    (houter : footprint.outer) (hacc : run.At flight state) (curproc : Slot)
    (value : Option Ip) (hpass : run.Passes flight flight' none value)
    (hnext : ∀ state', run.At flight' state' → state'.cwd curproc = value →
      run.Does (next ()) state' footprint last) :
    run.Does (putCwd curproc >>= fun _ => endOp >>= fun _ =>
      setCwd curproc value >>= next) state footprint last := by
  have hbind : (putCwd curproc >>= fun _ => endOp >>= fun _ =>
      setCwd curproc value >>= next) =
        (putCwd curproc >>= fun _ => endOp >>= fun _ => setCwd curproc value) >>=
          next := by
    simp only [Op.bind_assoc]
  rw [hbind]
  exact (replaceCwd_spec houter hacc curproc value hpass).bind
    fun _ state' _ hset => hnext state' hset.1 hset.2

theorem enterDir_spec (houter : footprint.outer) (hacc : run.At (0 + one ip) state)
    (curproc : Slot) :
    run.Does (enterDir curproc ip) state footprint fun _ state' => run.At 0 state' := by
  refine (ilock_spec hacc curproc (hacc.live (by simp))).bind fun _ locked _ hlock => ?_
  refine .gets_bind ?_
  split_ifs
  · exact putAndEnd_spec hlock.1.now curproc (-1)
  · refine (iunlock_spec hlock.1.now curproc
      (hlock.1.now.live (by simp))).bind fun _ unlocked _ hunlock => ?_
    exact replaceCwd_bind houter hunlock.now curproc (some ip)
      (fun jp => by simp [taken]) fun state' hacc' _ => .pure hacc'

def MayEnter (state : State) (curproc : Slot) (inum : ℕ) : Prop :=
  (state.table.proc curproc).uid = root ∨
    grants executeRight (recorded state inum) (state.table.proc curproc).uid

theorem validateExecute_spec {start : State} (hstart : Frame looks start state)
    (hacc : run.At (flight + one ip) state) (curproc : Slot) :
    run.Does (validateExecute curproc ip) state looks fun result state' =>
      run.After (flight + one ip) (flight + one ip) state state' ∧
        (0 ≤ result ↔ grants executeRight (recorded start (state.icache ip).inum)
          (start.table.proc curproc).uid) := by
  refine .gets_bind ?_
  rw [uid_of_looks hstart]
  refine (ilock_spec hacc curproc (hacc.live (by simp))).bind
    fun _ locked hframe hlock => ?_
  obtain ⟨hlocked, hvalid, hinum⟩ := hlock
  have hlive : Live locked ip := hlocked.now.live (by simp)
  refine .gets_bind ?_
  refine (iunlock_spec hlocked.now curproc hlive).bind fun _ unlocked _ hunlock => ?_
  refine .pure ⟨⟨hunlock.now, hlocked.keeps.trans hunlock.keeps⟩, ?_⟩
  have hlooks : Frame looks start locked := IsTrans.trans _ _ _ hstart hframe
  have hrights := rights_of_looks hlooks (locked.icache ip).inum
  rw [recorded_of_valid hlocked.now.accounted hlive hvalid, hinum] at hrights
  rw [← grants_congr executeRight (start.table.proc curproc).uid hrights.1 hrights.2]
  split_ifs with hyes
  · exact iff_of_true (by norm_num) hyes
  · exact iff_of_false (by norm_num) hyes

/-- A directory that the caller may not enter is not given back. -/
theorem sysChdir_spec (houter : footprint.outer) (hacc : run.At 0 state)
    (curproc : Slot) (path : Option (List Byte))
    (hleaks : ∀ target ∈ path, ∀ inum, (resolve state curproc false target []).1 = some inum →
        ¬ MayEnter state curproc inum → run.leaks) :
    run.Does (sysChdir curproc path) state footprint fun _ state' =>
      run.At 0 state' := by
  refine (beginOp_spec hacc).looking.bind fun _ begun _ hbegin => ?_
  cases path with
  | none => exact endAndFail_spec hbegin.2.now (-1)
  | some path =>
    refine (namei_spec curproc path (hbegin.1.mono (looks_le keepsTree))
      hbegin.2.now).looking.bind fun found looked _ hfound => ?_
    cases found with
    | none => exact endAndFail_spec hfound.2.1.nothing (-1)
    | some ip =>
      have hacc' : run.At (0 + one ip) looked := hfound.2.1.now
      have hlooks : Frame looks state looked := IsTrans.trans _ _ _ hbegin.1 hfound.1
      refine .gets_bind ?_
      rw [uid_of_looks hlooks]
      have hcheck : run.Does (checkWhen ((state.table.proc curproc).uid ≠ root)
          (validateExecute curproc ip)) looked footprint fun allowed state' =>
            run.At (0 + one ip) state' ∧
              (¬ allowed < 0 ∨ ¬ MayEnter state curproc (looked.icache ip).inum) := by
        rw [checkWhen]
        split_ifs with huser
        · refine (validateExecute_spec hlooks hacc' curproc).looking.mono (fun _ => id) ?_
          rintro allowed state' - ⟨-, hafter, hallowed⟩
          refine ⟨hafter.now, or_iff_not_imp_left.2 fun hdenied hmay => ?_⟩
          rw [not_not] at hdenied
          have hgrants := hmay.resolve_left huser
          exact absurd (hallowed.2 hgrants) (not_le.2 hdenied)
        · exact .pure ⟨hacc', .inl (by norm_num)⟩
      refine hcheck.bind fun allowed checked _ hchecked => ?_
      split_ifs with hdenied
      · have hnot := hchecked.2.resolve_left (not_not.2 hdenied)
        have hleaks := hleaks path rfl _ hfound.2.2 hnot
        exact endAndFail_spec (hchecked.1.weaken hleaks fun _ => Nat.zero_le _) (-1)
      · exact enterDir_spec houter hchecked.1 curproc

theorem sysExec_spec (houter : footprint.outer) (hacc : run.At 0 state)
    (curproc : Slot) (path : Option (List Byte)) (loads : Bool) :
    run.Does (sysExec curproc path loads) state footprint fun _ state' =>
      run.At 0 state' := by
  unfold sysExec
  split
  · exact .pure hacc
  next path =>
    refine (beginOp_spec hacc).bind fun _ begun _ hbegin => ?_
    refine (namei_spec curproc path (Std.Refl.refl begun)
      hbegin.now).looking.bind fun found looked _ hfound => ?_
    cases found with
    | none => exact endAndFail_spec hfound.2.1.nothing (-1)
    | some ip =>
      have hacc' : run.At (0 + one ip) looked := hfound.2.1.now
      refine (ilock_spec hacc' curproc (hacc'.live (by simp))).bind
        fun _ locked _ hlock => ?_
      refine (iunlockput_spec hlock.1.now curproc).bind fun _ put _ hput => ?_
      refine (endOp_spec hput.now).bind fun _ ended _ hend => ?_
      split_ifs
      · refine (setTable_kept houter hend.now _ fun _ => idle_exec).bind
          fun _ _ _ hset => ?_
        exact .pure hset.now
      · exact .pure hend.now

end Directories

section Processes

variable {run : Run} {flight : Ip → ℕ} {state : State} {footprint : Footprint}

theorem sysDup_spec (houter : footprint.outer) (hacc : run.At flight state)
    (curproc : Slot) (fd : Option ℤ) :
    run.Does (sysDup curproc fd) state footprint fun _ state' =>
      run.At flight state' := by
  refine .gets_bind ?_
  split
  · exact .pure hacc
  next fd fp _ =>
    refine (fdalloc_spec houter hacc curproc fp).bind fun found described _ hfd => ?_
    cases found with
    | none => exact .pure hfd.1.now
    | some fd =>
      refine (filedup_spec houter hfd.1.now fp).bind fun _ _ _ hdup => ?_
      exact .pure hdup.1.now

theorem sysClose_spec (houter : footprint.outer) (hacc : run.At flight state)
    (curproc : Slot) (fd : Option ℤ) :
    run.Does (sysClose curproc fd) state footprint fun _ state' =>
      run.At flight state' := by
  refine .gets_bind ?_
  split
  · exact .pure hacc
  next fd fp _ =>
    refine (setOfile_spec houter hacc curproc fd none).bind fun _ _ _ hset => ?_
    refine (fileclose_spec houter hset.1.now fp).bind fun _ _ _ hclose => ?_
    exact .pure hclose

theorem sysFsize_spec (hacc : run.At flight state) (curproc : Slot) (fd : Option ℤ) (word : ℤ) :
    run.Does (sysFsize curproc fd word) state footprint fun _ state' =>
      run.At flight state' := by
  refine .gets_bind ?_
  split
  · exact .pure hacc
  · refine .gets_bind ?_
    split
    · exact .pure hacc
    · exact .gets hacc

section

variable (houter : footprint.outer) (hacc : run.At flight state)

include houter hacc

/-- Two files are closed after a failure. -/
theorem closeBoth_spec (rf wf : Fp) :
    run.Does (do fileclose rf; fileclose wf; pure (-1 : ℤ)) state footprint
      fun _ state' => run.At flight state' := by
  refine (fileclose_spec houter hacc rf).bind fun _ _ _ hfirst => ?_
  refine (fileclose_spec houter hfirst wf).bind fun _ _ _ hsecond => ?_
  exact .pure hsecond

theorem installPipe_spec (curproc : Slot) (rf wf : Fp) :
    run.Does (installPipe curproc rf wf) state footprint fun _ state' =>
      run.At flight state' := by
  refine (fdalloc_spec houter hacc curproc rf).bind fun found described _ hfd => ?_
  cases found with
  | none => exact closeBoth_spec houter hfd.1.now rf wf
  | some fd =>
    refine (fdalloc_spec houter hfd.1.now curproc wf).bind
      fun found both _ hboth => ?_
    cases found with
    | none =>
      refine (setOfile_spec houter hboth.1.now curproc fd none).bind
        fun _ _ _ hset => ?_
      exact closeBoth_spec houter hset.1.now rf wf
    | some other => exact .pure hboth.1.now

/-- A new file becomes the end of a pipe. -/
theorem setPipe_spec
    (fp : Fp) (hnone : run.leaks ∨ fileInode (state.ftable fp) = none) (readable : Bool) :
    run.Does (setFile fp (pipeFile readable)) state footprint fun _ state' =>
      run.At flight state' ∧ ∀ other, fileInode (state.ftable other) = none →
        fileInode (state'.ftable other) = none := by
  have hpipe : ∀ file, fileInode (pipeFile readable file) = none := fun file => if_neg nofun
  have hpass : run.Passes flight flight (fileInode (state.ftable fp))
      (fileInode (pipeFile readable (state.ftable fp))) := by
    rw [hpipe]
    refine fun ip => ⟨by simp [taken], hnone.imp_right fun hnone => ?_⟩
    rw [hnone]
  refine (setFile_spec houter hacc fp (pipeFile readable) hpass ⟨?_, ?_⟩).mono (fun _ => id) ?_
  · exact .inr fun _ => hpipe _
  · intro ip hip
    cases hip
  · rintro _ _ - ⟨hset, rfl⟩
    refine ⟨hset.now, fun other hother => ?_⟩
    by_cases hfp : other = fp
    · subst hfp
      simpa [Syscalls.State.setFile] using hpipe _
    · simpa [Syscalls.State.setFile, hfp] using hother

theorem sysPipe_spec (curproc : Slot) (fetched memory : Bool) :
    run.Does (sysPipe curproc fetched memory) state footprint fun _ state' =>
      run.At flight state' := by
  rw [sysPipe]
  split
  · refine (filealloc_spec houter hacc).bind fun found first _ hfirst => ?_
    obtain ⟨hfirst, -, -, hrf⟩ := hfirst
    cases found with
    | none => exact .pure hfirst.now
    | some rf =>
      refine (filealloc_spec houter hfirst.now).bind fun found second _ hsecond => ?_
      obtain ⟨hsecond, -, hsame, hwf⟩ := hsecond
      cases found with
      | none =>
        refine (fileclose_spec houter hsecond.now rf).bind fun _ _ _ hclose => ?_
        exact .pure hclose
      | some wf =>
        split_ifs
        · have hnone := (hrf rf rfl).2
          rw [← hsame] at hnone
          refine (setPipe_spec houter hsecond.now rf hnone true).bind
            fun _ _ _ hread => ?_
          have hnone := (hwf wf rfl).2.imp_right (hread.2 wf)
          refine (setPipe_spec houter hread.1 wf hnone false).bind
            fun _ _ _ hwrite => ?_
          exact installPipe_spec houter hwrite.1 curproc rf wf
        · exact closeBoth_spec houter hsecond.now rf wf
  · exact .pure hacc

end

theorem dupFiles_spec (houter : footprint.outer) (curproc child : Slot)
    (fds : List Fd) (hacc : run.At flight state) :
    run.Does (dupFiles curproc child fds) state footprint fun _ state' =>
      run.At flight state' ∧ state'.cwd = state.cwd ∧ state'.table = state.table := by
  induction fds generalizing state with
  | nil => exact .pure ⟨hacc, rfl, rfl⟩
  | cons fd rest ih =>
    refine .gets_bind ?_
    split
    · exact ih hacc
    next fp _ =>
      refine (filedup_spec houter hacc fp).bind fun _ _ _ hdup => ?_
      refine (setOfile_spec houter hdup.1.now child fd (some fp)).bind
        fun _ _ _ hset => ?_
      obtain ⟨hset, rfl⟩ := hset
      refine (ih hset.now).mono (fun _ => id) ?_
      rintro _ _ - ⟨hnow, hcwd, htable⟩
      exact ⟨hnow, hcwd.trans hdup.2.1, htable.trans hdup.2.2⟩

/-- The child is no longer unused when it gets a directory. -/
theorem not_idle_fork {table : Processes.Table}
    (hchild : (allocproc table).map Prod.snd = some child) :
    ¬ Idle ((forkCopy (Processes.fork table curproc) curproc child).proc child) := by
  obtain ⟨⟨table', found⟩, halloc, heq⟩ := map_eq_some_iff.1 hchild
  cases heq
  obtain ⟨-, hproc, -⟩ := allocproc_eq_some halloc
  simp [Idle, forkCopy, Processes.fork, halloc, Processes.Table.modify, hproc]

section

variable (houter : footprint.outer)

include houter

theorem sysFork_spec (hacc : run.At 0 state) (curproc : Slot) (memory : Bool) :
    run.Does (sysFork curproc memory) state footprint fun _ state' =>
      run.At 0 state' := by
  refine .gets_bind ?_
  split
  · exact .pure hacc
  next child hchild =>
    have hnone : run.leaks ∨ state.cwd child = none := by
      refine hacc.tidy.imp_right fun htidy => htidy.dirs child ?_
      obtain ⟨⟨table', found⟩, halloc, heq⟩ := map_eq_some_iff.1 hchild
      cases heq
      exact .inl (allocproc_eq_some halloc).1
    have hforks : ∀ slot, Idle ((Processes.fork state.table curproc).proc slot) →
        Idle (state.table.proc slot) := fun _ => idle_fork
    refine (setTable_spec houter hacc _ (hacc.tidy.imp_right fun htidy slot hidle =>
      htidy.dirs slot (hforks slot hidle))).bind fun _ forked _ hforked => ?_
    obtain ⟨hforked, rfl⟩ := hforked
    split_ifs
    · refine (setTable_spec houter hforked.now _ (hforked.now.tidy.imp_right
        fun htidy slot hidle => htidy.dirs slot (idle_forkCopy hidle))).bind
          fun _ copied _ hcopied => ?_
      obtain ⟨hcopied, rfl⟩ := hcopied
      refine (dupFiles_spec houter curproc child fds hcopied.now).bind
        fun _ dupped _ hdupped => ?_
      obtain ⟨hdupped, hcwds, htables⟩ := hdupped
      refine .gets_bind ?_
      cases hcwd : dupped.cwd curproc with
      | none => exact .halt _
      | some ip =>
        refine (idup_spec hdupped (hdupped.accounted.live_of_cwd hcwd)).looking.bind ?_
        rintro same retained - ⟨hlooks, rfl, hretained, -⟩
        have hinner := hlooks.inner id
        have hpass : run.Passes (0 + one same) 0 (retained.cwd child) (some same) := by
          refine fun jp => ⟨by simp [taken], hnone.imp_right fun hnone => ?_⟩
          rw [hinner.cwd, hcwds]
          simp only [hnone]
          simp [taken]
        have hbusy : Idle (retained.table.proc child) → some same = none := by
          intro hidle
          rw [hinner.table, htables] at hidle
          exact absurd hidle (not_idle_fork hchild)
        refine (setCwd_spec houter hretained.now child (some same) hpass
          (.inr hbusy)).bind fun _ moved _ hmoved => ?_
        refine (setTable_kept houter hmoved.1.now _ fun _ => idle_forkReturn).bind
          fun _ returned _ hreturned => ?_
        exact .gets hreturned.now
    · refine (setTable_spec houter hforked.now _ ?_).bind fun _ _ _ hfailed => ?_
      · refine hforked.now.tidy.elim .inl fun htidy => hnone.imp_right ?_
        intro hnone slot hidle
        cases idle_forkFails hidle with
        | inl hslot => rw [hslot]; exact hnone
        | inr hidle => exact htidy.dirs slot hidle
      · exact .pure hfailed.1.now

theorem closeFiles_spec (curproc : Slot) (fds : List Fd) (hacc : run.At flight state) :
    run.Does (closeFiles curproc fds) state footprint fun _ state' =>
      run.At flight state' := by
  induction fds generalizing state with
  | nil => exact .pure hacc
  | cons fd rest ih =>
    refine .gets_bind ?_
    split
    · exact ih hacc
    next fp _ =>
      refine (fileclose_spec houter hacc fp).bind fun _ _ _ hclose => ?_
      refine (setOfile_spec houter hclose curproc fd none).bind fun _ _ _ hset => ?_
      exact ih hset.1.now

theorem sysExit_spec (hacc : run.At 0 state) (curproc : Slot) :
    run.Does (sysExit curproc) state footprint fun _ state' => run.At 0 state' := by
  refine .gets_bind ?_
  split_ifs
  · exact .halt _
  · refine (closeFiles_spec houter curproc fds hacc).bind fun _ closed _ hclosed => ?_
    refine (beginOp_spec hclosed).bind fun _ begun _ hbegin => ?_
    refine replaceCwd_bind houter hbegin.now curproc none (passes_refl run 0 none)
      fun state' hacc' hcwd => ?_
    refine (setTable_spec houter hacc' _ ?_).bind fun _ _ _ hexit => ?_
    · refine hacc'.tidy.imp_right fun htidy slot hidle => ?_
      cases idle_exitLocked hidle with
      | inl hslot => rw [hslot]; exact hcwd
      | inr hidle => exact htidy.dirs slot hidle
    · exact .pure hexit.1.now

theorem sysWait_spec (hacc : run.At 0 state) (curproc : Slot) :
    run.Does (sysWait curproc) state footprint fun _ state' => run.At 0 state' := by
  refine .gets_bind ?_
  split_ifs
  · exact .block hacc.stuck
  · refine (setTable_kept houter hacc _ fun _ => idle_wait).bind fun _ _ _ hwait => ?_
    exact .pure hwait.now

theorem sysRead_spec (hacc : run.At flight state)
    (curproc : Slot) (fd : Option ℤ) (n : Option ℕ) (answer : Option ℤ) :
    run.Does (sysRead curproc fd n answer) state footprint fun _ state' =>
      run.At flight state' := by
  refine .gets_bind ?_
  split
  · exact fileread_spec houter hacc curproc _ _ answer
  · exact .pure hacc

end

theorem sysWrite_spec (htree : run.tree) (houter : footprint.outer)
    (hdata : footprint.data = univ) (hacc : run.At flight state) (curproc : Slot)
    (fd : Option ℤ) (src : Option (List Byte)) (answer : Option ℤ) (device : Bool) :
    run.Does (sysWrite curproc fd src answer device) state footprint fun _ state' =>
      run.At flight state' := by
  refine .gets_bind ?_
  split
  · exact filewrite_spec htree houter hdata hacc curproc _ _ answer device
  · exact .pure hacc

theorem sysFstat_spec (hacc : run.At flight state) (curproc : Slot)
    (fd : Option ℤ) (fetched : Bool) :
    run.Does (sysFstat curproc fd fetched) state footprint fun _ state' =>
      run.At flight state' := by
  refine .gets_bind ?_
  split
  · exact filestat_spec hacc curproc _
  · exact .pure hacc

theorem sysMknod_spec (htree : run.tree) (hfresh : footprint.fresh = univ)
    (hacc : run.At 0 state) (curproc : Slot) (path : Option (List Byte))
    (major minor : Option ℤ) (stale : List Byte) (hpaths : ∀ name ∈ path, name ∈ run.paths)
    (hleaks : ∀ name ∈ path, major.isSome → minor.isSome →
      (state.table.proc curproc).uid ≠ root → ∀ inum,
        (resolve state curproc true name stale).1 = some inum → run.leaks)
    (hdata : ∀ name ∈ path, ((state.table.proc curproc).uid ≠ root →
        Permitted writeRight state curproc name stale) →
      ∀ inum, (resolve state curproc true name []).1 = some inum → inum ∈ footprint.data) :
    run.Does (sysMknod curproc path major minor stale) state footprint fun _ state' =>
      run.At 0 state' := by
  unfold sysMknod
  split
  · exact createAndPut_spec htree hfresh hacc curproc path .dev _ _ stale hpaths
      (fun name hname => hleaks name hname rfl rfl) hdata
  · exact createAndPut_spec htree hfresh hacc curproc none .dev 0 0 stale (by simp)
      (by simp) (by simp)

end Processes

def owning (owner : Set ℕ) : Footprint :=
  ⟨univ, univ, owner, univ, True⟩

def MayOwn (state : State) (curproc : Slot) : Call → Prop
  | .chown .. => (state.table.proc curproc).uid = root
  | .updateDirOwner .. => True
  | _ => False

/-- The path in which a call may enter a name. -/
def entered : Call → Option (List Byte)
  | .open path _ _ => path
  | .mknod path _ _ _ => path
  | .mkdir path _ => path
  | .link _ new => new
  | _ => none

def Leads (state : State) (curproc : Slot) (parent : Bool) (path stale : List Byte) : Prop :=
  ∃ inum, (resolve state curproc parent path stale).1 = some inum

/-- The calls that take a reference which they do not give back. -/
def Leaks (state : State) (curproc : Slot) : Call → Prop
  | .chmod (some path) (some _) _ => Leads state curproc false path []
  | .chown (some path) (some _) (some _) => Leads state curproc false path []
  | .updateDirOwner (some path) (some _) (some _) _ => Leads state curproc false path []
  | .open (some path) (some omode) stale =>
    (state.table.proc curproc).uid ≠ root ∧ LooksUp omode ∧ Leads state curproc true path stale
  | .mkdir (some path) stale =>
    (state.table.proc curproc).uid ≠ root ∧ Leads state curproc true path stale
  | .mknod (some path) (some _) (some _) stale =>
    (state.table.proc curproc).uid ≠ root ∧ Leads state curproc true path stale
  | .chdir (some path) =>
    ∃ inum, (resolve state curproc false path []).1 = some inum ∧ ¬ MayEnter state curproc inum
  | _ => False

/-- The calls that set the owner or the mode of a cached inode only. -/
def SetsRights (state : State) (curproc : Slot) : Call → Prop
  | .chmod (some path) (some _) _ => Leads state curproc false path []
  | .chown (some path) (some _) (some _) =>
    (state.table.proc curproc).uid = root ∧ Leads state curproc false path []
  | .updateDirOwner (some path) (some _) (some _) _ => Leads state curproc false path []
  | _ => False

/-- Every call goes on with the run, and only some change owners. -/
theorem syscall_spec {run : Run} {state : State} {owner : Set ℕ} (htree : run.tree)
    (hacc : run.At 0 state) (curproc : Slot) (call : Call)
    (howner : MayOwn state curproc call → owner = univ)
    (hpaths : ∀ path ∈ entered call, path ∈ run.paths)
    (hleaks : Leaks state curproc call → run.leaks)
    (hrights : SetsRights state curproc call → run.rights) :
    run.Does (syscall curproc call) state (owning owner) fun _ state' =>
      run.At 0 state' := by
  have houter : (owning owner).outer := trivial
  cases call with
  | fork memory => exact sysFork_spec houter hacc curproc memory
  | exit => exact sysExit_spec houter hacc curproc
  | wait => exact sysWait_spec houter hacc curproc
  | pipe fetched memory => exact sysPipe_spec houter hacc curproc fetched memory
  | read fd n answer => exact sysRead_spec houter hacc curproc fd n answer
  | kill pid =>
    cases pid with
    | none => exact .pure hacc
    | some pid =>
      refine .gets_bind ?_
      refine (setTable_kept houter hacc _ fun _ => idle_kill).bind
        fun _ _ _ hkill => ?_
      exact .pure hkill.now
  | exec path loads => exact sysExec_spec houter hacc curproc path loads
  | fstat fd fetched => exact sysFstat_spec hacc curproc fd fetched
  | chdir path =>
    refine sysChdir_spec houter hacc curproc path ?_
    rintro _ rfl inum hresolve hdenied
    exact hleaks ⟨inum, hresolve, hdenied⟩
  | dup fd => exact sysDup_spec houter hacc curproc fd
  | getpid => exact .gets hacc
  | sbrk answer => exact .pure hacc
  | sleep answer => exact respond_spec hacc answer
  | uptime answer => exact .pure hacc
  | «open» path omode stale =>
    refine (sysOpen_spec htree rfl houter hacc curproc path omode stale hpaths ?_
      fun _ _ _ _ _ => mem_univ _).mono (fun _ => id) fun _ _ _ hopen => hopen.1
    rintro _ rfl _ rfl huser hlooks inum hresolve
    exact hleaks ⟨huser, hlooks, inum, hresolve⟩
  | write fd src answer device =>
    exact sysWrite_spec htree houter rfl hacc curproc fd src answer device
  | mknod path major minor stale =>
    refine sysMknod_spec htree rfl hacc curproc path major minor stale hpaths ?_
      fun _ _ _ _ _ => mem_univ _
    rintro _ rfl hmajor hminor huser inum hresolve
    obtain ⟨major, rfl⟩ := isSome_iff_exists.1 hmajor
    obtain ⟨minor, rfl⟩ := isSome_iff_exists.1 hminor
    exact hleaks ⟨huser, inum, hresolve⟩
  | unlink path => exact sysUnlink_spec htree hacc curproc path fun _ _ _ _ _ _ _ => mem_univ _
  | link old new => exact sysLink_spec htree hacc curproc old new hpaths fun _ _ _ _ => mem_univ _
  | mkdir path stale =>
    refine createAndPut_spec htree rfl hacc curproc path .dir 0 0 stale hpaths ?_
      fun _ _ _ _ _ => mem_univ _
    rintro _ rfl huser inum hresolve
    exact hleaks ⟨huser, inum, hresolve⟩
  | close fd => exact sysClose_spec houter hacc curproc fd
  | fsize fd word => exact sysFsize_spec hacc curproc fd word
  | echoOnOff answer => exact .pure hacc
  | clear answer => exact .pure hacc
  | getuid => exact .gets hacc
  | geteuid => exact .gets hacc
  | setuid uid =>
    refine .gets_bind ?_
    refine (setTable_kept houter hacc _ fun _ => idle_setuid).bind fun _ _ _ hset => ?_
    exact .pure hset.now
  | chmod path mode nullUid =>
    refine sysChmod_spec rfl hacc curproc path mode nullUid ?_
    rintro _ rfl hmode inum hresolve
    obtain ⟨mode, rfl⟩ := isSome_iff_exists.1 hmode
    exact ⟨hleaks ⟨inum, hresolve⟩, hrights ⟨inum, hresolve⟩⟩
  | chown path uid gid =>
    have hroot : (state.table.proc curproc).uid = root → (owning owner).owner = univ := howner
    refine sysChown_spec hroot hacc path uid gid ?_
    rintro _ rfl huid hgid inum hresolve
    obtain ⟨uid, rfl⟩ := isSome_iff_exists.1 huid
    obtain ⟨gid, rfl⟩ := isSome_iff_exists.1 hgid
    exact ⟨hleaks ⟨inum, hresolve⟩, fun hroot => hrights ⟨hroot, inum, hresolve⟩⟩
  | updateDirOwner path uid gid beyond =>
    refine sysUpdateDirOwner_spec (howner trivial) hacc curproc path uid gid beyond ?_
    rintro _ rfl huid hgid inum hresolve
    obtain ⟨uid, rfl⟩ := isSome_iff_exists.1 huid
    obtain ⟨gid, rfl⟩ := isSome_iff_exists.1 hgid
    exact ⟨hleaks ⟨inum, hresolve⟩, hrights ⟨inum, hresolve⟩⟩

end Xv6Users.CallTable
