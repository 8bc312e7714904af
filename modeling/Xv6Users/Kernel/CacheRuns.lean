import Xv6Users.Kernel.Machine

/-!
# The inode cache over whole runs

What all system calls keep of the inode cache, in whatever order they are made: an inode
has one slot at most, and its copy is written through.
-/

namespace Xv6Users.CacheRuns

open Function
open Processes Inodes InodeAccount Moves Syscalls CallTable Machine

variable {run : Run} {flight flight' : Ip → ℕ} {state state' : State} {ip : Ip}
  {rights : Prop} {change : Inode → Inode}

/-- A copy agrees with the disk; if `rights` may be set in the cache only, the owner and
the mode can differ. -/
structure Synced (rights : Prop) (state : State) (ip : Ip) : Prop where
  fields : (state.icache ip).info = { state.disk (state.icache ip).inum with
    uid := (state.icache ip).info.uid
    gid := (state.icache ip).info.gid
    mode := (state.icache ip).info.mode }
  rights : rights ∨ (state.icache ip).info = state.disk (state.icache ip).inum

def WrittenThrough (rights : Prop) (state : State) : Prop :=
  ∀ ip, Live state ip → (state.icache ip).valid → Synced rights state ip

theorem Synced.of_eq (hinfo : (state.icache ip).info = state.disk (state.icache ip).inum) :
    Synced rights state ip :=
  ⟨by rw [hinfo], .inr hinfo⟩

theorem Synced.congr (hsynced : Synced rights state ip)
    (hinfo : (state'.icache ip).info = (state.icache ip).info)
    (hdisk : state'.disk (state'.icache ip).inum = state.disk (state.icache ip).inum) :
    Synced rights state' ip := by
  constructor <;> rw [hinfo, hdisk]
  · exact hsynced.fields
  · exact hsynced.rights

/-- Only one slot changes, and the disk does not change under another one. -/
theorem WrittenThrough.slot (hall : WrittenThrough rights state)
    (hothers : ∀ jp, jp ≠ ip → state'.icache jp = state.icache jp)
    (hdisk : ∀ jp, jp ≠ ip → Live state jp →
      state'.disk (state.icache jp).inum = state.disk (state.icache jp).inum)
    (hself : Live state' ip → (state'.icache ip).valid → Synced rights state' ip) :
    WrittenThrough rights state' := by
  intro jp hlive hvalid
  by_cases hjp : jp = ip
  · subst hjp
    exact hself hlive hvalid
  · have hslot := hothers jp hjp
    rw [Live, hslot] at hlive
    rw [hslot] at hvalid
    refine (hall jp hlive hvalid).congr (by rw [hslot]) ?_
    rw [hslot, hdisk jp hjp hlive]

/-- A change of the count or the lock. -/
theorem WrittenThrough.setInode (hall : WrittenThrough rights state)
    (hsame : ∀ inode, change inode =
      { inode with ref := (change inode).ref, lock := (change inode).lock })
    (hlive : Live (state.setInode ip change) ip → Live state ip) :
    WrittenThrough rights (state.setInode ip change) := by
  have hslot : (state.setInode ip change).icache ip = { state.icache ip with
      ref := (change (state.icache ip)).ref, lock := (change (state.icache ip)).lock } :=
    icache_setInode_self.trans (hsame _)
  refine hall.slot (fun _ => icache_setInode_of_ne) (fun _ _ _ => rfl) fun hlive' hvalid => ?_
  rw [hslot] at hvalid
  exact (hall ip (hlive hlive') hvalid).congr (by rw [hslot]) (by rw [hslot]; rfl)

/-- No other slot has the inode of a slot that is written through. -/
theorem disk_writeThrough (hacc : Accounted flight state) (hlive : Live state ip) {info : Dinode}
    {valid : Bool} {jp : Ip} (hjp : jp ≠ ip) (hother : Live state jp) :
    (State.writeThrough state ip info valid).disk (state.icache jp).inum =
      state.disk (state.icache jp).inum :=
  disk_writeThrough_of_ne fun hinum => hjp (hacc.unique jp ip hother hlive hinum)

theorem writtenThrough_move (hacc : Accounted flight state)
    (hall : WrittenThrough run.rights state) (hmove : Move run flight state flight' state') :
    WrittenThrough run.rights state' := by
  cases hmove with
  | lock hlive lock => exact hall.setInode (fun _ => rfl) fun _ => hlive
  | retain hlive => exact hall.setInode (fun _ => rfl) fun _ => hlive
  | drop hkept =>
    refine hall.setInode (fun _ => rfl) fun hlive => ?_
    rw [Live, icache_setInode_self] at hlive
    exact (sub_one_lt _).trans' hlive
  | recycle hempty hnone =>
    refine hall.slot (fun _ => icache_setInode_of_ne) (fun _ _ _ => rfl) fun _ hvalid => ?_
    rw [icache_setInode_self] at hvalid
    cases hvalid
  | load hlive hinvalid htype =>
    refine hall.slot (fun _ => icache_setInode_of_ne) (fun _ _ _ => rfl) fun _ _ => .of_eq ?_
    rw [icache_setInode_self]
    rfl
  | setRights hleaks hrights hvalid hinfo =>
    rename_i ip info
    refine hall.slot (fun _ => icache_setInode_of_ne) (fun _ _ _ => rfl) fun hlive _ =>
      ⟨?_, .inl hrights⟩
    rw [Live, icache_setInode_self] at hlive
    rw [icache_setInode_self]
    change info = { state.disk (state.icache ip).inum with
      uid := info.uid, gid := info.gid, mode := info.mode }
    have hfields := (hall ip hlive hvalid).fields
    rw [hfields] at hinfo
    exact hinfo
  | free hlive hvalid hunlinked hlast hheld =>
    refine hall.slot (fun _ => icache_writeThrough_of_ne) (fun _ => disk_writeThrough hacc hlive)
      fun _ hvalid => ?_
    cases (congrArg Inode.valid icache_writeThrough_self).symm.trans hvalid
  | store htree hlive hvalid htype =>
    refine hall.slot (fun _ => icache_writeThrough_of_ne) (fun _ => disk_writeThrough hacc hlive)
      fun _ _ => .of_eq ?_
    rw [icache_writeThrough_self, disk_writeThrough_self]
  | allocate htree hfree type =>
    intro jp hlive hvalid
    have htyped := hacc.typed jp hlive hvalid
    refine (hall jp hlive hvalid).congr rfl (update_of_ne (fun hnew => ?_) ..)
    exact htyped.2 (htyped.1.trans (hnew ▸ hfree))
  | _ => exact fun jp hlive hvalid => (hall jp hlive hvalid).congr rfl rfl

/-- A call of a process that runs; whether it may set an owner or a mode in the cache
only is left open. -/
def CallsIf (rights : Prop) (state : State) (curproc : Slot) (call : Call) (state' : State) :
    Prop :=
  Calls state curproc call state' ∧ (SetsRights state curproc call → rights)

def within (rights : Prop) (start : State) : Run :=
  { Run.any start with rights }

/-- In every state that system calls reach, on every disk, an inode has one slot in the
cache, and its copy has the type, the device numbers and the link count that are on disk.  It
has also the owner and the mode if no `chmod`, `chown` or `updateDirOwner` has set them. -/
theorem cache_writes_through {image : Image} {state : State} {ip : Ip} (rights : Prop)
    (hstate : ReachedBy (CallsIf rights) image state) (hlive : Live state ip) :
    (∀ jp, Live state jp → (state.icache jp).inum = (state.icache ip).inum → jp = ip) ∧
      ((state.icache ip).valid → Synced rights state ip) := by
  have hat : (within rights (cold image)).At 0 state := by
    clear hlive
    induction hstate with
    | start => exact booted_at (Run.start (within rights (cold image)) (cold_accounted image))
    | step _ hstep ih => exact hstep.1.at ih trivial (fun _ _ => Set.mem_univ _) trivial hstep.2
  refine ⟨fun jp hjp => hat.accounted.unique jp ip hjp hlive, ?_⟩
  refine hat.reaches.invariant ?_ writtenThrough_move ip hlive
  intro jp hjp
  exact absurd hjp (lt_irrefl 0)

/-- `chdir` loads the root directory. -/
theorem chdir_root :
    ∃ state ∈ left (syscall 0 (.chdir (some [slash])) (booted (emptyRoot 0o755))),
      ((booted (emptyRoot 0o755)).table.proc 0).state = .runnable ∧ 0 < (state.icache 0).ref ∧
        (state.icache 0).valid := by
  decide +kernel

theorem chdir_writes_through : ∃ state, Synced False state 0 ∧ (state.icache 0).valid := by
  obtain ⟨state, hstate, hready, hlive, hvalid⟩ := chdir_root
  exact ⟨state, (cache_writes_through False (.step .start ⟨⟨hready, hstate⟩, id⟩) hlive).2 hvalid,
    hvalid⟩

end Xv6Users.CacheRuns
