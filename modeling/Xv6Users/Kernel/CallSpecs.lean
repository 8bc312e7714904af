import Xv6Users.Kernel.InodeSpecs

/-!
# What the system calls keep

Contracts for the handlers of `kernel/sysfile.c` and of the calls beside it.
Every call keeps the account of the inode cache, also where it blocks, and stays
within a footprint: only a call by root changes owners, apart from
`updateDirOwner`.
-/

namespace Xv6Users.CallSpecs

open Contracts Holders Processes Inodes InodeAccount Moves InodeSpecs Syscalls Function Set

section Aside

variable {run : Run} {flight flight' : Ip → ℕ} {state state' : State}
  {footprint : Footprint}

/-- A change of holders only; the references in flight make up for it. -/
theorem aside_spec (hacc : Accounted flight state)
    (hicache : state'.icache = state.icache) (hdisk : state'.disk = state.disk)
    (hdata : state'.data = state.data) (hgen : state'.gen = state.gen)
    (hholds : ∀ ip, holds state' ip + flight' ip ≤ holds state ip + flight ip)
    (hinner : ¬ footprint.outer → Inner state state') :
    Frame footprint state state' ∧ After flight flight' state state' := by
  have hrecorded : ∀ inum, recorded state' inum = recorded state inum := by
    intro inum
    simp only [recorded, State.cached, hicache, hdisk]
  have hdirty : ∀ ip, Dirty state' ip ↔ Dirty state ip := by
    intro ip
    simp only [Dirty, Live, hicache, hdisk]
  refine ⟨⟨fun inum => by rw [hgen], fun inum _ => by rw [hgen], fun inum _ => ?_,
    hinner⟩, ⟨?_, ?_, fun ip => ?_⟩, fun ip _ => by rw [hicache]; exact ⟨rfl, id⟩⟩
  · exact ⟨.inl (by rw [hrecorded]), fun _ => .inl (by rw [hdata]),
      fun _ => by rw [hrecorded]; exact ⟨rfl, rfl⟩, fun _ => by rw [hrecorded]⟩
  · simp only [Live, hicache]
    exact hacc.unique
  · simp only [Live, hicache, hdisk]
    exact hacc.typed
  · have hcount := hacc.counted ip
    have hle := hholds ip
    simp only [hdirty, hicache]
    omega

/-- A change that not even the holders notice. -/
theorem unseen_spec (hacc : Accounted flight state)
    (hicache : state'.icache = state.icache) (hdisk : state'.disk = state.disk)
    (hdata : state'.data = state.data) (hgen : state'.gen = state.gen)
    (hftable : state'.ftable = state.ftable) (hcwd : state'.cwd = state.cwd)
    (hinner : ¬ footprint.outer → state'.ofile = state.ofile ∧ state'.table = state.table) :
    Frame footprint state state' ∧ After flight flight state state' := by
  refine aside_spec hacc hicache hdisk hdata hgen (fun ip => ?_) fun houter => ?_
  · rw [holds, holds, hftable, hcwd]
  · exact ⟨hftable, (hinner houter).1, hcwd, (hinner houter).2,
      fun ip _ => by rw [hicache]; exact ⟨rfl, id⟩⟩

theorem beginOp_spec (hacc : run.At flight state) :
    run.Does beginOp state footprint fun _ state' =>
      run.After flight flight state state' := by
  refine .gets_bind ?_
  split_ifs
  · exact .block hacc.stuck
  · have hspec := hacc.move (.log (state.outstanding + 1))
      (@unseen_spec _ _ _ footprint hacc.accounted rfl rfl rfl rfl rfl rfl fun _ => ⟨rfl, rfl⟩)
    exact .modify hspec.1 hspec.2

theorem endOp_spec (hacc : run.At flight state) :
    run.Does endOp state footprint fun _ state' =>
      run.After flight flight state state' := by
  have hspec := hacc.move (.log (state.outstanding - 1))
    (@unseen_spec _ _ _ footprint hacc.accounted rfl rfl rfl rfl rfl rfl fun _ => ⟨rfl, rfl⟩)
  exact .modify hspec.1 hspec.2

/-- No process starts to hold a directory in a slot that is not in use. -/
theorem setTable_spec (houter : footprint.outer) (hacc : run.At flight state)
    (change : Processes.Table → Processes.Table)
    (hdirs : run.leaks ∨ ∀ slot, Idle ((change state.table).proc slot) → state.cwd slot = none) :
    run.Does (setTable change) state footprint fun _ state' =>
      run.After flight flight state state' ∧
        state' = { state with table := change state.table } := by
  have hspec := hacc.move (.setTable hdirs)
    (@unseen_spec _ _ _ footprint hacc.accounted
      rfl rfl rfl rfl rfl rfl fun hnot => absurd houter hnot)
  exact .modify hspec.1 ⟨hspec.2, rfl⟩

theorem setOfile_spec (houter : footprint.outer) (hacc : run.At flight state)
    (curproc : Slot) (fd : Fd) (fp : Option Fp) :
    run.Does (setOfile curproc fd fp) state footprint fun _ state' =>
      run.After flight flight state state' ∧
        state' = Syscalls.State.setOfile state curproc fd fp := by
  have hspec := hacc.move (.setOfile curproc fd fp)
    (@unseen_spec _ _ _ footprint hacc.accounted
      rfl rfl rfl rfl rfl rfl fun hnot => absurd houter hnot)
  exact .modify hspec.1 ⟨hspec.2, rfl⟩

theorem taken_apply (found : Option Ip) (ip : Ip) :
    taken found ip = if found = some ip then 1 else 0 := by
  cases found with
  | none => simp [taken]
  | some jp => simp [taken, one, Pi.single_apply, eq_comm]

theorem holds_setFile (state : State) (fp : Fp) (change : File → File) (ip : Ip) :
    holds (Syscalls.State.setFile state fp change) ip + taken (fileInode (state.ftable fp)) ip =
      holds state ip + taken (fileInode (change (state.ftable fp))) ip := by
  have hupdate : (fun other => fileInode
      ((Syscalls.State.setFile state fp change).ftable other)) =
      update (fun other => fileInode (state.ftable other)) fp
        (fileInode (change (state.ftable fp))) := by
    funext other
    by_cases hother : other = fp
    · subst hother
      simp [Syscalls.State.setFile]
    · simp [Syscalls.State.setFile, hother]
  have hcount := holders_update (fun other => fileInode (state.ftable other)) fp
    (fileInode (change (state.ftable fp))) ip
  rw [taken_apply, taken_apply, holds, holds, hupdate]
  change _ + holders state.cwd ip + _ = _
  omega

/-- A file slot changes; references in flight pass to it or come from it. -/
theorem setFile_spec (houter : footprint.outer) (hacc : run.At flight state)
    (fp : Fp) (change : File → File)
    (hpass : run.Passes flight flight' (fileInode (state.ftable fp))
      (fileInode (change (state.ftable fp))))
    (hfile : Refiled run state (state.ftable fp) (change (state.ftable fp))) :
    run.Does (setFile fp change) state footprint fun _ state' =>
      run.After flight flight' state state' ∧ state' = Syscalls.State.setFile state fp change := by
  have hholds : ∀ ip, holds (Syscalls.State.setFile state fp change) ip + flight' ip ≤
      holds state ip + flight ip := by
    intro ip
    have hholds := holds_setFile state fp change ip
    have hle := (hpass ip).1
    omega
  have hspec := hacc.move (.setFile hpass hfile)
    (@aside_spec _ _ _ _ footprint hacc.accounted rfl rfl rfl rfl hholds
      fun hnot => absurd houter hnot)
  exact .modify hspec.1 ⟨hspec.2, rfl⟩

theorem holds_setCwd (state : State) (curproc : Slot) (value : Option Ip) (ip : Ip) :
    holds { state with cwd := update state.cwd curproc value } ip +
        taken (state.cwd curproc) ip =
      holds state ip + taken value ip := by
  have hcount := holders_update state.cwd curproc value ip
  rw [taken_apply, taken_apply, holds, holds]
  dsimp only
  omega

theorem setCwd_spec (houter : footprint.outer) (hacc : run.At flight state)
    (curproc : Slot) (value : Option Ip)
    (hpass : run.Passes flight flight' (state.cwd curproc) value)
    (hbusy : run.leaks ∨ (Idle (state.table.proc curproc) → value = none)) :
    run.Does (setCwd curproc value) state footprint fun _ state' =>
      run.After flight flight' state state' ∧
        state' = { state with cwd := update state.cwd curproc value } := by
  have hholds : ∀ ip, holds { state with
      cwd := update state.cwd curproc value } ip + flight' ip ≤
        holds state ip + flight ip := by
    intro ip
    have hholds := holds_setCwd state curproc value ip
    have hle := (hpass ip).1
    omega
  have hspec := hacc.move (.setCwd hpass hbusy)
    (@aside_spec _ _ _ _ footprint hacc.accounted rfl rfl rfl rfl hholds
      fun hnot => absurd houter hnot)
  exact .modify hspec.1 ⟨hspec.2, rfl⟩

/-- A holder that keeps its inode. -/
theorem passes_refl (run : Run) (flight : Ip → ℕ) (value : Option Ip) :
    run.Passes flight flight value value := fun _ => ⟨le_rfl, .inr rfl⟩

end Aside

variable {ip : Ip} {fp : Fp} {state' : State}

section Files

variable {run : Run} {flight flight' kept : Ip → ℕ} {state : State} {footprint : Footprint}

theorem live_of_file (hacc : run.At flight state)
    (hfile : fileInode (state.ftable fp) = some ip) : Live state ip := by
  have hholder : 1 ≤ holders (fun fp => fileInode (state.ftable fp)) ip := one_le_holders hfile
  exact hacc.accounted.live_of_holds (hholder.trans (Nat.le_add_right _ _))

/-- Looking leaves the open files alone. -/
theorem live_of_file_looks (hacc : run.At flight state') (hlooks : Frame looks state state')
    (hfile : fileInode (state.ftable fp) = some ip) : Live state' ip := by
  rw [← (hlooks.inner id).ftable] at hfile
  exact live_of_file hacc hfile

section

variable (houter : footprint.outer) (hacc : run.At flight state)

include houter hacc

/-- A file slot keeps its inode and its rights. -/
theorem setFile_same (fp : Fp) {change : File → File}
    (hsame : fileInode (change (state.ftable fp)) = fileInode (state.ftable fp))
    (hwritable : (change (state.ftable fp)).writable = (state.ftable fp).writable)
    (hused : (change (state.ftable fp)).ref ≤ 0 → (state.ftable fp).ref ≤ 0) :
    run.Does (setFile fp change) state footprint fun _ state' =>
      run.After flight flight state state' ∧ state' = Syscalls.State.setFile state fp change := by
  refine setFile_spec houter hacc fp change ?_ ⟨?_, ?_⟩
  · rw [hsame]
    exact passes_refl run flight _
  · refine hacc.tidy.imp_right fun htidy hfree => ?_
    rw [hsame]
    exact htidy.files fp (hused hfree)
  · intro ip hip hwrites
    rw [hsame] at hip
    rw [hwritable] at hwrites
    exact .inl ⟨hip, hwrites⟩

/-- The new file has one reference and points to no inode yet. -/
theorem filealloc_spec :
    run.Does filealloc state footprint fun found state' =>
      run.After flight flight state state' ∧ state'.icache = state.icache ∧
        (∀ fp, fileInode (state'.ftable fp) = fileInode (state.ftable fp)) ∧
        ∀ fp ∈ found, (state'.ftable fp).ref = 1 ∧
          (run.leaks ∨ fileInode (state'.ftable fp) = none) := by
  refine .gets_bind ?_
  split
  · exact .pure ⟨hacc.after, rfl, fun _ => rfl, by simp⟩
  next fp hfound =>
    have hfree : (state.ftable fp).ref = 0 := by
      simpa using List.find?_some hfound
    refine (setFile_same houter hacc fp rfl rfl fun _ => hfree.le).bind
      fun _ state' _ hset => ?_
    obtain ⟨hafter, rfl⟩ := hset
    have hsame : ∀ other, fileInode ((Syscalls.State.setFile state fp
        fun file => { file with ref := 1 }).ftable other) =
          fileInode (state.ftable other) := by
      intro other
      by_cases hother : other = fp
      · subst hother
        simp [Syscalls.State.setFile, fileInode]
      · simp [Syscalls.State.setFile, hother]
    refine .pure ⟨hafter, rfl, hsame, ?_⟩
    intro other hother
    cases hother
    refine ⟨by simp [Syscalls.State.setFile], hacc.tidy.imp_right fun htidy => ?_⟩
    rw [hsame]
    exact htidy.files fp hfree.le

theorem filedup_spec (fp : Fp) :
    run.Does (filedup fp) state footprint fun _ state' =>
      run.After flight flight state state' ∧ state'.cwd = state.cwd ∧
        state'.table = state.table := by
  refine .gets_bind ?_
  split_ifs with hunused
  · exact .halt _
  · have hused : (state.ftable fp).ref + 1 ≤ 0 → (state.ftable fp).ref ≤ 0 := by omega
    refine (setFile_same houter hacc fp rfl rfl hused).mono (fun _ => id) ?_
    rintro _ _ - ⟨hafter, rfl⟩
    exact ⟨hafter, rfl, rfl⟩

end

theorem closeInode_spec (file : File) (hacc : run.At (kept + taken (fileInode file)) state) :
    run.Does (closeInode file) state footprint fun _ state' =>
      run.At kept state' := by
  rw [closeInode]
  split
  next ip htype hip =>
    rw [fileInode, htype, if_pos rfl, hip] at hacc
    refine (beginOp_spec hacc).bind fun _ begun _ hbegin => ?_
    refine (iput_spec hbegin.now).bind fun _ put _ hput => ?_
    exact (endOp_spec hput.now).mono (fun _ => id) fun _ _ _ hend => hend.now
  next => exact .halt _
  next hother hnone =>
    have hnone : fileInode file = none := by
      rw [fileInode]
      split_ifs with htype
      · cases hip : file.ip with
        | none => rfl
        | some ip => exact absurd hip (hother ip htype)
      · rfl
    rw [hnone] at hacc
    exact .pure hacc.nothing

theorem fileclose_spec (houter : footprint.outer) (hacc : run.At flight state) (fp : Fp) :
    run.Does (fileclose fp) state footprint fun _ state' => run.At flight state' := by
  refine .gets_bind ?_
  split_ifs with hunused hothers
  · exact .halt _
  · have hused : (state.ftable fp).ref - 1 ≤ 0 → (state.ftable fp).ref ≤ 0 := by omega
    exact (setFile_same houter hacc fp rfl rfl hused).mono (fun _ => id)
      fun _ _ _ hset => hset.1.now
  · have hnone : ∀ file : File, fileInode { file with ref := 0, type := .none } = none := by
      intro file
      simp [fileInode]
    refine (setFile_spec houter hacc fp _ (fun ip => ?_) ⟨?_, ?_⟩).bind
      fun _ closed _ hset => closeInode_spec (state.ftable fp) hset.1.now
    · exact ⟨le_rfl, .inr rfl⟩
    · exact .inr fun _ => hnone _
    · intro ip hip
      cases hip

/-- Where the file at `fp` refers to an inode, that inode is locked and unlocked. -/
theorem readi_spec (hacc : run.At flight state) (curproc : Slot)
    (hlive : Live state ip) (off n : ℕ) (answer : Option ℤ) :
    run.Does (readi curproc ip off n answer) state footprint fun _ state' =>
      state' = state := by
  refine .gets_bind ?_
  split
  · cases answer with
    | none =>
      refine (iunlock_spec hacc curproc hlive).bind fun _ _ _ hunlock => ?_
      exact .block hunlock.now.stuck
    | some answer => exact .pure rfl
  · refine .gets_bind ?_
    split
    · exact .pure rfl
    · exact .pure rfl

/-- The offset of a file moves. -/
theorem advance_spec (houter : footprint.outer) (hacc : run.At flight state) (fp : Fp) (r : ℤ) :
    run.Does (whenever (0 < r)
      (setFile fp fun file => { file with off := file.off + r.toNat })) state footprint
      fun _ state' => run.At flight state' ∧
        fileInode (state'.ftable fp) = fileInode (state.ftable fp) ∧
        (state'.ftable fp).writable = (state.ftable fp).writable := by
  rw [whenever]
  split_ifs
  · refine (setFile_same houter hacc fp rfl rfl id).mono (fun _ => id) ?_
    rintro _ _ - ⟨hset, rfl⟩
    refine ⟨hset.now, ?_⟩
    simp [Syscalls.State.setFile, fileInode]
  · exact .pure ⟨hacc, rfl, rfl⟩

theorem respond_spec (hacc : run.At flight state) (answer : Option ℤ) :
    run.Does (respond answer) state footprint fun _ state' => run.At flight state' := by
  cases answer with
  | none => exact .block hacc.stuck
  | some answer => exact .pure hacc

theorem fileread_spec (houter : footprint.outer) (hacc : run.At flight state)
    (curproc : Slot) (fp : Fp) (n : ℕ) (answer : Option ℤ) :
    run.Does (fileread curproc fp n answer) state footprint fun _ state' =>
      run.At flight state' := by
  refine .gets_bind ?_
  split
  · exact .pure hacc
  split
  · exact respond_spec hacc answer
  next ip htype hip =>
    have hfile : fileInode (state.ftable fp) = some ip := by
      rw [fileInode, htype, if_pos rfl, hip]
    refine (ilock_spec hacc curproc (live_of_file hacc hfile)).looking.bind
      fun _ locked _ hlock => ?_
    rw [← (hlock.1.inner id).ftable] at hfile
    have hlive := live_of_file hlock.2.1.now hfile
    refine (readi_spec hlock.2.1.now curproc hlive _ n answer).bind
      fun r same _ hsame => ?_
    subst hsame
    refine (advance_spec houter hlock.2.1.now fp r).bind fun _ moved _ hmoved => ?_
    have hlive := live_of_file hmoved.1 (hmoved.2.1.trans hfile)
    refine (iunlock_spec hmoved.1 curproc hlive).bind
      fun _ _ _ hunlock => ?_
    exact .pure hunlock.now
  · exact .halt _
  · exact .halt _

section

variable (htree : run.tree) (houter : footprint.outer) (hdata : footprint.data = univ)

include htree houter hdata

/-- An open file can be written anywhere. -/
theorem writeChunk_spec (hacc : run.At flight state) (curproc : Slot)
    (hfile : fileInode (state.ftable fp) = some ip)
    (hwritable : (state.ftable fp).writable) (device : Bool) (chunk : List Byte) :
    run.Does (writeChunk curproc fp ip device chunk) state footprint fun _ state' =>
      run.At flight state' ∧ fileInode (state'.ftable fp) = some ip ∧
        (state'.ftable fp).writable := by
  refine (beginOp_spec hacc).looking.bind fun _ begun _ hbegin => ?_
  have hlive := live_of_file_looks hbegin.2.now hbegin.1 hfile
  refine (ilock_spec hbegin.2.now curproc hlive).looking.bind
    fun _ locked _ hlock => ?_
  have hlooks := IsTrans.trans _ _ _ hbegin.1 hlock.1
  have hlive := live_of_file_looks hlock.2.1.now hlooks hfile
  rw [← (hlooks.inner id).ftable] at hfile hwritable
  refine .gets_bind ?_
  refine (writei_spec htree hlock.2.1.now hlive hlock.2.2.1 (hdata ▸ mem_univ _)
    (fun _ => .file hfile hwritable chunk _) _).inner.bind fun r written _ hwritten => ?_
  rw [← hwritten.1.ftable] at hfile hwritable
  refine (advance_spec houter hwritten.2.now fp r).bind fun _ moved _ hmoved => ?_
  rw [← hmoved.2.1] at hfile
  rw [← hmoved.2.2] at hwritable
  have hlive := live_of_file hmoved.1 hfile
  refine (iunlock_spec hmoved.1 curproc hlive).looking.bind
    fun _ unlocked _ hunlock => ?_
  refine (endOp_spec hunlock.2.now).looking.bind fun _ ended _ hend => ?_
  have hsame := (hunlock.1.inner id).trans (hend.1.inner id)
  rw [← hsame.ftable] at hfile hwritable
  exact .pure ⟨hend.2.now, hfile, hwritable⟩

theorem filewriteLoop_spec (curproc : Slot)
    (device : Bool) (fuel : ℕ) (src : List Byte) (hacc : run.At flight state)
    (hfile : fileInode (state.ftable fp) = some ip) (hwritable : (state.ftable fp).writable) :
    run.Does (filewriteLoop curproc fp ip device fuel src) state footprint
      fun _ state' => run.At flight state' := by
  induction fuel generalizing state src with
  | zero => exact .pure hacc
  | succ fuel ih =>
    rw [filewriteLoop]
    split_ifs
    · exact .pure hacc
    · refine (writeChunk_spec htree houter hdata hacc curproc hfile hwritable device
        _).bind fun r written _ hwritten => ?_
      split_ifs
      · exact .pure hwritten.1
      · exact .halt _
      · exact ih _ hwritten.1 hwritten.2.1 hwritten.2.2

theorem filewrite_spec (hacc : run.At flight state) (curproc : Slot) (fp : Fp) (src : List Byte)
    (answer : Option ℤ) (device : Bool) :
    run.Does (filewrite curproc fp src answer device) state footprint fun _ state' =>
      run.At flight state' := by
  refine .gets_bind ?_
  split
  · exact .pure hacc
  next hwritable =>
    split
    · exact respond_spec hacc answer
    next ip htype hip =>
      have hfile : fileInode (state.ftable fp) = some ip := by
        rw [fileInode, htype, if_pos rfl, hip]
      refine (filewriteLoop_spec htree houter hdata curproc device _ src hacc hfile
        (by simpa using hwritable)).bind fun _ _ _ hwritten => ?_
      exact .pure hwritten
    · exact .halt _
    · exact .halt _

end

theorem filestat_spec (hacc : run.At flight state) (curproc : Slot) (fp : Fp) :
    run.Does (filestat curproc fp) state footprint fun _ state' =>
      run.At flight state' := by
  refine .gets_bind ?_
  split
  next ip htype hip =>
    have hfile : fileInode (state.ftable fp) = some ip := by
      rw [fileInode, htype, if_pos rfl, hip]
    refine (ilock_spec hacc curproc (live_of_file hacc hfile)).looking.bind
      fun _ locked _ hlock => ?_
    refine (iunlock_spec hlock.2.1.now curproc
      (live_of_file_looks hlock.2.1.now hlock.1 hfile)).bind
        fun _ _ _ hunlock => ?_
    exact .pure hunlock.now
  · exact .halt _
  · exact .pure hacc

end Files

section Owners

variable {run : Run} {flight kept : Ip → ℕ} {state : State} {ip : Ip} {footprint : Footprint}

/-- A change of owner or mode that keeps the rest; the reference is not given back. -/
theorem setLocked_spec (hleaks : run.leaks) (hrights : run.rights) (curproc : Slot)
    (change : Dinode → Dinode)
    (hinfo : ∀ info, change info = { info with
      uid := (change info).uid, gid := (change info).gid, mode := (change info).mode })
    (hacc : run.At (kept + one ip) state)
    (howner : (state.icache ip).inum ∈ footprint.owner ∨
      ∀ info, (change info).uid = info.uid ∧ (change info).gid = info.gid)
    (hmode : (state.icache ip).inum ∈ footprint.mode ∨ ∀ info, (change info).mode = info.mode) :
    run.Does (setLocked curproc (some ip) change) state footprint fun _ state' =>
      run.After kept kept state state' ∧ ∃ info,
        (recorded state' (state.icache ip).inum).uid = (change info).uid ∧
        (recorded state' (state.icache ip).inum).gid = (change info).gid := by
  have hkept : ∀ jp, kept jp ≤ (kept + one ip) jp := by simp
  refine (ilock_spec hacc curproc (hacc.live (by simp))).bind
    fun _ locked _ hlock => ?_
  obtain ⟨hlocked, hvalid, hinum⟩ := hlock
  have hlive : Live locked ip := hlocked.now.live (by simp)
  rw [← hinum] at howner hmode ⊢
  have htype : (change (locked.icache ip).info).type = (locked.icache ip).info.type := by
    rw [hinfo]
  have hspec := hlocked.now.move (.setRights hleaks hrights hvalid (hinfo _))
    (setRights_spec footprint hlocked.now.accounted hvalid htype
      (howner.imp_right fun h => h _) (hmode.imp_right fun h => h _))
  refine .modify_bind hspec.1 ?_
  have hlive' : Live (locked.setInode ip fun inode =>
      { inode with info := change (locked.icache ip).info }) ip := by
    rw [Live, icache_setInode_self]
    exact hlive
  refine (iunlock_spec hspec.2.now curproc hlive').looking.mono (fun _ => id)
    fun _ state' _ hunlock => ⟨⟨hunlock.2.now, ?_⟩, ?_⟩
  · exact ((hlocked.keeps.weaken hkept).trans hspec.2.keeps).trans hunlock.2.keeps
  · have hnow := recorded_setInfo hlocked.now.accounted hlive hvalid
      (change (locked.icache ip).info) (locked.icache ip).inum
    rw [if_pos rfl] at hnow
    have hsame := (hunlock.1.same (locked.icache ip).inum
      (hunlock.1.gen_eq _ (notMem_empty _))).owner (notMem_empty _)
    refine ⟨(locked.icache ip).info, ?_⟩
    rw [hsame.1, hsame.2]
    exact ⟨congrArg Dinode.uid hnow, congrArg Dinode.gid hnow⟩

/-- The caller is the same after looking. -/
theorem uid_of_looks (hlooks : Frame looks state state') (curproc : Slot) :
    (state'.table.proc curproc).uid = (state.table.proc curproc).uid := by
  rw [(hlooks.inner id).table]

theorem changeOwnerGroup_spec (hleaks : run.leaks) (hrights : run.rights)
    (curproc : Slot) (uid gid : ℤ) (hacc : run.At (kept + one ip) state)
    (howner : (state.icache ip).inum ∈ footprint.owner) :
    run.Does (changeOwnerGroup curproc uid gid (some ip)) state footprint fun _ state' =>
      run.After kept kept state state' ∧ (recorded state' (state.icache ip).inum).uid = uid ∧
        (recorded state' (state.icache ip).inum).gid = gid := by
  refine (setLocked_spec hleaks hrights curproc (fun info => { info with uid, gid })
    (fun _ => rfl) hacc (.inl howner) (.inr fun _ => rfl)).mono (fun _ => id) ?_
  rintro _ state' _ ⟨hafter, _, huid, hgid⟩
  exact ⟨hafter, huid, hgid⟩

/-- A path that leads somewhere may leak and set rights. -/
theorem sysChmod_spec (hmode : footprint.mode = univ) (hacc : run.At 0 state)
    (curproc : Slot) (path : Option (List Byte)) (mode : Option UInt32) (nullUid : ℤ)
    (hfound : ∀ target ∈ path, mode.isSome → ∀ inum,
      (resolve state curproc false target []).1 = some inum → run.leaks ∧ run.rights) :
    run.Does (sysChmod curproc path mode nullUid) state footprint fun _ state' =>
      run.At 0 state' := by
  unfold sysChmod
  split
  next path mode =>
    refine (namei_spec curproc path (Std.Refl.refl state) hacc).looking.bind
      fun found looked _ hnamei => ?_
    have hacc' := hnamei.2.1.now
    cases found with
    | none =>
      refine .pure_bind (.gets_bind ?_)
      split
      · exact .pure hacc'.nothing
      · exact .halt _
    | some ip =>
      obtain ⟨hleaks, hrights⟩ := hfound path rfl rfl _ hnamei.2.2
      refine .gets_bind (.gets_bind ?_)
      split
      · exact .pure (hacc'.weaken hleaks fun _ => Nat.zero_le _)
      · refine (setLocked_spec hleaks hrights curproc (fun info => { info with mode })
          (fun _ => rfl) hacc' (.inr fun _ => ⟨rfl, rfl⟩)
          (.inl (hmode ▸ mem_univ _))).bind fun _ _ _ hset => ?_
        exact .pure hset.1.now
  next => exact .pure hacc

theorem sysChown_spec {curproc : Slot}
    (howner : (state.table.proc curproc).uid = root → footprint.owner = univ)
    (hacc : run.At 0 state) (path : Option (List Byte)) (uid gid : Option ℤ)
    (hfound : ∀ target ∈ path, uid.isSome → gid.isSome → ∀ inum,
      (resolve state curproc false target []).1 = some inum →
        run.leaks ∧ ((state.table.proc curproc).uid = root → run.rights)) :
    run.Does (sysChown curproc path uid gid) state footprint fun _ state' =>
      run.At 0 state' := by
  unfold sysChown
  split
  next path uid gid =>
    refine (namei_spec curproc path (Std.Refl.refl state) hacc).looking.bind
      fun found looked _ hnamei => ?_
    have hacc' := hnamei.2.1.now
    refine .gets_bind ?_
    rw [uid_of_looks hnamei.1]
    cases found with
    | none =>
      split_ifs with hroot
      · exact .pure hacc'.nothing
      · exact .halt _
    | some ip =>
      obtain ⟨hleaks, hrights⟩ := hfound path rfl rfl rfl _ hnamei.2.2
      split_ifs with hroot
      · exact .pure (hacc'.weaken hleaks fun _ => Nat.zero_le _)
      · rw [not_not] at hroot
        refine (changeOwnerGroup_spec hleaks (hrights hroot) curproc uid gid hacc'
          (howner hroot ▸ mem_univ _)).bind fun _ _ _ hset => ?_
        exact .pure hset.1.now
  next => exact .pure hacc

theorem updateLoop_spec (hleaks : run.leaks) (hrights : run.rights)
    (howner : footprint.owner = univ) (curproc : Slot) (uid gid : ℤ) (dp : Ip)
    (beyond : List Byte) (offs : List ℕ) (hacc : run.At 0 state) :
    run.Does (updateLoop curproc uid gid dp beyond offs) state footprint fun _ state' =>
      run.At 0 state' := by
  induction offs generalizing state with
  | nil => exact .pure hacc
  | cons off rest ih =>
    refine .gets_bind (.gets_bind ?_)
    split
    · exact .halt _
    · refine (namei_spec curproc _ (Std.Refl.refl state) hacc).looking.bind
        fun found looked _ hfound => ?_
      cases found with
      | none => exact .halt _
      | some ip =>
        refine (changeOwnerGroup_spec hleaks hrights curproc uid gid hfound.2.1.now
          (howner ▸ mem_univ _)).bind fun _ _ _ hset => ?_
        exact ih hset.1.now

theorem sysUpdateDirOwner_spec (howner : footprint.owner = univ)
    (hacc : run.At 0 state) (curproc : Slot) (path : Option (List Byte))
    (uid gid : Option ℤ) (beyond : List Byte)
    (hfound : ∀ target ∈ path, uid.isSome → gid.isSome → ∀ inum,
      (resolve state curproc false target []).1 = some inum → run.leaks ∧ run.rights) :
    run.Does (sysUpdateDirOwner curproc path uid gid beyond) state footprint
      fun _ state' => run.At 0 state' := by
  unfold sysUpdateDirOwner
  split
  next path uid gid =>
    refine (namei_spec curproc path (Std.Refl.refl state) hacc).looking.bind
      fun found looked _ hnamei => ?_
    cases found with
    | none => exact .halt _
    | some dp =>
      obtain ⟨hleaks, hrights⟩ := hfound path rfl rfl rfl _ hnamei.2.2
      refine (changeOwnerGroup_spec hleaks hrights curproc uid gid hnamei.2.1.now
        (howner ▸ mem_univ _)).bind fun _ changed _ hset => ?_
      refine .gets_bind ?_
      refine (updateLoop_spec hleaks hrights howner curproc uid gid dp beyond _
        hset.1.now).bind fun _ _ _ hdone => ?_
      exact .pure hdone
  next => exact .pure hacc

end Owners

section Links

variable {run : Run} {flight kept : Ip → ℕ} {state start : State} {dp ip : Ip}
  {footprint : Footprint}

theorem updateLinks_spec (htree : run.tree) (hacc : run.At flight state)
    (hlive : Live state ip) (hvalid : (state.icache ip).valid) (count : ℤ) :
    run.Does (updateLinks ip count) state footprint fun _ state' =>
      run.After flight flight state state' :=
  storeInfo_spec htree hacc hlive hvalid (addLinks count) (fun _ => rfl)
    (fun _ => ⟨rfl, rfl⟩) (.inr fun _ => rfl)

/-- The end of an operation that gives one locked inode back. -/
theorem putAndEnd_spec (hacc : run.At (kept + one ip) state) (curproc : Slot) (result : ℤ) :
    run.Does (do iunlockput curproc ip; endOp; pure result) state footprint
      fun _ state' => run.At kept state' := by
  refine (iunlockput_spec hacc curproc).bind fun _ _ _ hput => ?_
  refine (endOp_spec hput.now).bind fun _ _ _ hend => ?_
  exact .pure hend.now

theorem undoLink_spec (htree : run.tree) (hacc : run.At (kept + one ip) state) (curproc : Slot) :
    run.Does (undoLink curproc ip) state footprint fun _ state' =>
      run.At kept state' := by
  refine (ilock_spec hacc curproc (hacc.live (by simp))).bind
    fun _ locked _ hlock => ?_
  refine (updateLinks_spec htree hlock.1.now (hlock.1.now.live (by simp))
    hlock.2.1 (-1)).bind fun _ _ _ hupdate => ?_
  exact putAndEnd_spec hupdate.now curproc (-1)

/-- Only the directory of the new name is written. -/
theorem linkParent_spec (htree : run.tree) (hstart : Frame keepsTree start state)
    (hacc : run.At (kept + one ip) state) (curproc : Slot) {new : List Byte}
    (hnew : new ∈ run.paths)
    (hdata : ∀ inum, (resolve start curproc true new []).1 = some inum → inum ∈ footprint.data) :
    run.Does (linkParent curproc ip new) state footprint fun _ state' =>
      run.At kept state' := by
  refine (namex_spec curproc new true [] hstart hacc).looking.bind
    fun found looked _ hfound => ?_
  obtain ⟨found, name⟩ := found
  obtain ⟨-, hafter, hresolve⟩ := hfound
  cases found with
  | none => exact undoLink_spec htree hafter.nothing curproc
  | some dp =>
    have hacc' : run.At (kept + one ip + one dp) looked := hafter.now
    refine (ilock_spec hacc' curproc (hacc'.live (by simp))).bind
      fun _ locked _ hlock => ?_
    refine .gets_bind ?_
    have hwritten : (locked.icache dp).inum ∈ footprint.data := by
      apply hdata
      rw [hresolve, hlock.2.2]
      rfl
    have hname : run.Names name := .inr (.inr ⟨new, hnew, resolve_mem hresolve⟩)
    refine (dirlink_spec htree hlock.1.now (by simp) hlock.2.1 hwritten hname _).bind
      fun linked written _ hlink => ?_
    refine (iunlockput_spec hlink.now curproc).bind fun _ put _ hput => ?_
    split_ifs
    · exact undoLink_spec htree hput.now curproc
    · refine (iput_spec hput.now).bind fun _ _ _ hput' => ?_
      refine (endOp_spec hput'.now).bind fun _ _ _ hend => ?_
      exact .pure hend.now

theorem endAndFail_spec (hacc : run.At flight state) (result : ℤ) :
    run.Does (do endOp; pure result) state footprint fun _ state' =>
      run.At flight state' := by
  refine (endOp_spec hacc).bind fun _ _ _ hend => ?_
  exact .pure hend.now

theorem sysLink_spec (htree : run.tree) (hacc : run.At 0 state) (curproc : Slot)
    (old new : Option (List Byte)) (hpaths : ∀ path ∈ new, path ∈ run.paths)
    (hdata : ∀ path ∈ new, ∀ inum,
      (resolve state curproc true path []).1 = some inum → inum ∈ footprint.data) :
    run.Does (sysLink curproc old new) state footprint fun _ state' =>
      run.At 0 state' := by
  unfold sysLink
  split
  next old new =>
    refine (beginOp_spec hacc).looking.bind fun _ begun _ hbegin => ?_
    refine (namei_spec curproc old (Std.Refl.refl begun) hbegin.2.now).looking.bind
      fun found looked _ hfound => ?_
    cases found with
    | none => exact endAndFail_spec hfound.2.1.nothing (-1)
    | some ip =>
      have hacc' : run.At (0 + one ip) looked := hfound.2.1.now
      refine (ilock_spec hacc' curproc (hacc'.live (by simp))).looking.bind
        fun _ locked _ hlock => ?_
      obtain ⟨hlook, hlocked, hvalid, -⟩ := hlock
      refine .gets_bind ?_
      split_ifs
      · exact putAndEnd_spec hlocked.now curproc (-1)
      · refine (updateLinks_spec htree hlocked.now
          (hlocked.now.live (by simp)) hvalid 1).looking.bind
            fun _ counted _ hcount => ?_
        refine (iunlock_spec hcount.2.now curproc (hcount.2.now.live (by simp))).looking.bind
            fun _ unlocked _ hunlock => ?_
        have hframe : Frame looks state unlocked :=
          IsTrans.trans _ _ _ hbegin.1 (IsTrans.trans _ _ _ hfound.1
            (IsTrans.trans _ _ _ hlook (IsTrans.trans _ _ _ hcount.1 hunlock.1)))
        exact linkParent_spec htree (hframe.mono (looks_le keepsTree)) hunlock.2.now
          curproc (hpaths new rfl) (hdata new rfl)
  next => exact .pure hacc

theorem isdirempty_spec (dp : Ip) :
    run.Does (isdirempty dp) state footprint fun _ state' => state' = state := by
  refine .gets_bind (.gets_bind ?_)
  split
  · exact .halt _
  · exact .pure rfl

theorem isOccupied_spec (ip : Ip) :
    run.Does (isOccupied ip) state footprint fun _ state' => state' = state := by
  refine .gets_bind ?_
  split_ifs
  · refine (isdirempty_spec ip).bind ?_
    rintro empty _ - rfl
    exact .pure rfl
  · exact .pure rfl

/-- Only the directory is written. -/
theorem clearEntry_spec (htree : run.tree) (hacc : run.At (kept + one dp + one ip) state)
    (curproc : Slot) (hdp : (state.icache dp).valid) (hip : (state.icache ip).valid)
    (hdata : (state.icache dp).inum ∈ footprint.data) {off : ℕ}
    (hclear : Rewritten run state dp (splice (state.data (state.icache dp).inum)
      (List.replicate direntSize 0) off)) :
    run.Does (clearEntry curproc dp ip off) state footprint fun _ state' =>
      run.At kept state' := by
  have hone : 1 ≤ (kept + one dp + one ip) dp := by
    simp only [Pi.add_apply, one_self]
    omega
  refine (writei_spec htree hacc (hacc.live hone) hdp hdata (fun _ => hclear) 0).bind
    fun written _ _ hwrite => ?_
  split_ifs
  · exact .halt _
  refine .gets_bind ?_
  have hlinks : ∀ state', run.After (kept + one dp + one ip) (kept + one dp + one ip)
      state state' → run.Does (whenever ((state'.icache ip).info.type = .dir)
        (updateLinks dp (-1))) state' footprint fun _ state'' =>
          run.After (kept + one dp + one ip) (kept + one dp + one ip) state state'' := by
    intro state' hafter
    rw [whenever]
    split_ifs
    · refine (updateLinks_spec htree hafter.now (hafter.now.live hone)
        ((hafter.keeps dp hone).2 hdp).1 (-1)).mono (fun _ => id) ?_
      intro _ _ _ hupdate
      exact ⟨hupdate.now, hafter.keeps.trans hupdate.keeps⟩
    · exact .pure hafter
  refine (hlinks _ hwrite).bind fun _ counted _ hcount => ?_
  have hacc' : run.At (kept + one ip + one dp) counted := by
    rw [add_right_comm]
    exact hcount.now
  refine (iunlockput_spec hacc' curproc).bind fun _ put _ hput => ?_
  have hvalid := (hcount.keeps ip (by simp)).2 hip
  have hvalid := (hput.keeps ip (by simp)).2 hvalid.1
  refine (updateLinks_spec htree hput.now (hput.now.live (by simp)) hvalid.1
    (-1)).bind fun _ _ _ hupdate => ?_
  exact putAndEnd_spec hupdate.now curproc 0

theorem sysUnlink_spec (htree : run.tree) (hacc : run.At 0 state) (curproc : Slot)
    (path : Option (List Byte))
    (hdata : ∀ target ∈ path, ∀ inum name,
      resolve state curproc true target [] = (some inum, name) →
        name ≠ dot → name ≠ dotdot → inum ∈ footprint.data) :
    run.Does (sysUnlink curproc path) state footprint fun _ state' =>
      run.At 0 state' := by
  unfold sysUnlink
  split
  · exact .pure hacc
  next path =>
    refine (beginOp_spec hacc).looking.bind fun _ begun _ hbegin => ?_
    refine (namex_spec curproc path true [] (hbegin.1.mono (looks_le keepsTree))
      hbegin.2.now).looking.bind fun found looked _ hfound => ?_
    obtain ⟨found, name⟩ := found
    obtain ⟨-, hafter, hresolve⟩ := hfound
    cases found with
    | none => exact endAndFail_spec hafter.nothing (-1)
    | some dp =>
      have hacc' : run.At (0 + one dp) looked := hafter.now
      refine (ilock_spec hacc' curproc (hacc'.live (by simp))).bind
        fun _ locked _ hlock => ?_
      split_ifs with hdots
      · exact putAndEnd_spec hlock.1.now curproc (-1)
      rw [not_or] at hdots
      have hwritten : (locked.icache dp).inum ∈ footprint.data := by
        apply hdata path rfl _ name _ hdots.1 hdots.2
        rw [hresolve, hlock.2.2]
        rfl
      refine (dirlookup_spec hlock.1.now name).looking.bind
        fun entry entered _ hentry => ?_
      obtain ⟨hlooks, hentry, hdir, -, -, hentryAt⟩ := hentry
      have hdp := hentry.keeps dp (by simp)
      cases entry with
      | none => exact putAndEnd_spec hentry.nothing curproc (-1)
      | some entry =>
        obtain ⟨ip, off⟩ := entry
        have hacc'' : run.At (0 + one dp + one ip) entered := hentry.now
        refine (ilock_spec hacc'' curproc (hacc''.live (by simp))).looking.bind
          fun _ both _ hboth => ?_
        obtain ⟨hlooks', hboth, hvalid, -⟩ := hboth
        have hdp' := hboth.keeps dp (by simp)
        refine .gets_bind ?_
        split_ifs
        · exact .halt _
        refine (isOccupied_spec ip).bind ?_
        rintro occupied _ - rfl
        split_ifs
        · refine (iunlockput_spec hboth.now curproc).bind
            fun _ _ _ hput => ?_
          exact putAndEnd_spec hput.now curproc (-1)
        · -- The directory is as it was when the entry was found.
          have hdpvalid := hdp.2 hlock.2.1
          have hdpvalid' := hdp'.2 hdpvalid.1
          have hsame := (loaded_eq hboth.now.accounted
            ((IsTrans.trans _ _ _ hlooks hlooks' : Frame looks locked _).mono
              (looks_le keepsTree)) (hboth.now.live (by simp)) hdpvalid'.1).2
          rw [hdp'.1, hdp.1] at hsame
          rw [← hsame, ← hdp.1, ← hdp'.1] at hentryAt
          refine clearEntry_spec htree hboth.now curproc hdpvalid'.1 hvalid ?_
            (.clear (hdpvalid'.2.trans (hdpvalid.2.trans hdir)) hentryAt)
          rw [hdp'.1, hdp.1]
          exact hwritten

end Links

end Xv6Users.CallSpecs
