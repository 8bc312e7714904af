import Xv6Users.Kernel.Machine

/-!
# Reference counts

Between system calls the reference count of a cached inode is the number of open
files and current directories that point to it, as long as no call forgets a
reference.  The calls that do are those that change owners and modes, those that
check a directory for a user, and `chdir` where it is refused.
-/

namespace Xv6Users.References

open Contracts Holders Processes Inodes InodeAccount Moves InodeSpecs Syscalls CallSpecs CallTable
open Machine Finset

def openFiles (state : State) (ip : Ip) : Finset Fp :=
  univ.filter fun fp => (state.ftable fp).type = .inode ∧
    0 < (state.ftable fp).ref ∧ (state.ftable fp).ip = some ip

/-- The processes whose current directory an inode is. -/
def workers (state : State) (ip : Ip) : Finset Slot :=
  univ.filter fun slot =>
    ¬ Idle (state.table.proc slot) ∧ state.cwd slot = some ip

/-- Every reference belongs to an open file or to a process. -/
def Balanced (state : State) : Prop :=
  ∀ ip, (state.icache ip).ref = ((openFiles state ip).card + (workers state ip).card : ℕ)
  deriving Decidable

def Exact (flight : Ip → ℕ) (state : State) : Prop :=
  ∀ ip, (state.icache ip).ref = ((holds state ip + flight ip : ℕ) : ℤ)

section Moves

variable {run : Run} {flight flight' : Ip → ℕ} {state state' : State} {ip : Ip}

theorem Exact.congr (hexact : Exact flight state)
    (href : ∀ ip, (state'.icache ip).ref = (state.icache ip).ref)
    (hholds : ∀ ip, holds state' ip + flight' ip = holds state ip + flight ip) :
    Exact flight' state' := by
  intro ip
  rw [href, hholds]
  exact hexact ip

/-- The references of one slot change. -/
theorem Exact.setInode (hexact : Exact flight state) {change : Inode → Inode}
    (hslot : (change (state.icache ip)).ref = ((holds state ip + flight' ip : ℕ) : ℤ))
    (hothers : ∀ jp, jp ≠ ip → flight' jp = flight jp) :
    Exact flight' (state.setInode ip change) := by
  intro jp
  rw [holds_setInode]
  by_cases hjp : jp = ip
  · subst hjp
    rw [icache_setInode_self, hslot]
  · rw [icache_setInode_of_ne hjp, hothers jp hjp]
    exact hexact jp

theorem exact_move (hleaks : ¬ run.leaks) (hexact : Exact flight state)
    (hmove : Move run flight state flight' state') : Exact flight' state' := by
  cases hmove with
  | leak hleak => exact absurd hleak hleaks
  | setRights hleak => exact absurd hleak hleaks
  | lock hlive lock => exact hexact.congr (read_setInode Inode.ref rfl) fun _ => rfl
  | load hlive hinvalid htype => exact hexact.congr (read_setInode Inode.ref rfl) fun _ => rfl
  | free => exact hexact.congr (fun jp => (slot_writeThrough jp).1) fun _ => rfl
  | store => exact hexact.congr (fun jp => (slot_writeThrough jp).1) fun _ => rfl
  | retain hlive =>
    rename_i ip
    refine hexact.setInode ?_ fun jp hjp => by simp [hjp]
    have hbefore := hexact ip
    simp only [Pi.add_apply, one_self]
    omega
  | recycle hempty hnone =>
    rename_i ip inum
    refine hexact.setInode ?_ fun jp hjp => by simp [hjp]
    have hbefore := hexact ip
    simp only [Pi.add_apply, one_self]
    omega
  | drop hkept =>
    rename_i ip
    refine hexact.setInode ?_ fun jp hjp => by simp [hjp]
    have hbefore := hexact ip
    simp only [Pi.add_apply, one_self] at hbefore
    push_cast at hbefore ⊢
    omega
  | setFile hpass hfile =>
    rename_i fp change
    refine hexact.congr (fun _ => rfl) fun ip => ?_
    have hholds := holds_setFile state fp change ip
    have hpassed := (hpass ip).2.resolve_left hleaks
    omega
  | setCwd hpass hbusy =>
    rename_i curproc value
    refine hexact.congr (fun _ => rfl) fun ip => ?_
    have hholds := holds_setCwd state curproc value ip
    have hpassed := (hpass ip).2.resolve_left hleaks
    omega
  | _ => exact hexact

theorem exact_at (hleaks : ¬ run.leaks) (hat : run.At flight state)
    (hstart : Exact 0 run.origin) : Exact flight state :=
  hat.reaches.invariant hstart fun _ => exact_move hleaks

end Moves

variable {state : State}

/-- What is not in use holds nothing, so the holders are those in use. -/
theorem Exact.balanced (hexact : Exact 0 state) (htidy : Tidy state) : Balanced state := by
  intro ip
  have hfiles : openFiles state ip =
      univ.filter fun fp => fileInode (state.ftable fp) = some ip := by
    ext fp
    simp only [openFiles, mem_filter, mem_univ, true_and]
    constructor
    · rintro ⟨htype, -, hip⟩
      rw [fileInode, if_pos htype, hip]
    · intro hheld
      rw [fileInode] at hheld
      split_ifs at hheld with htype
      refine ⟨htype, not_le.1 fun hfree => ?_, hheld⟩
      have hnone := htidy.files fp hfree
      rw [fileInode, if_pos htype, hheld] at hnone
      cases hnone
  have hworkers : workers state ip = univ.filter fun slot => state.cwd slot = some ip := by
    ext slot
    simp only [workers, mem_filter, mem_univ, true_and, and_iff_right_iff_imp]
    intro hcwd hidle
    rw [htidy.dirs slot hidle] at hcwd
    cases hcwd
  have hcount := hexact ip
  rw [Pi.zero_apply, add_zero, holds, holders, holders] at hcount
  rw [hcount, hfiles, hworkers]

def careful (image : Image) : Run where
  origin := cold image
  leaks := False
  rights := True
  tree := True
  paths := Set.univ
  tidy := .inr (cold_tidy image)

theorem cold_exact (image : Image) : Exact 0 (cold image) := by
  intro ip
  simp [holds, holders, cold, fileInode]

/-- A call that returns and takes no reference that it does not give back. -/
def GivesBack (state : State) (curproc : Slot) (call : Call) (state' : State) : Prop :=
  Returned state curproc call state' ∧ ¬ Leaks state curproc call

theorem careful_at {image : Image}
    (hstate : ReachedBy GivesBack image state) : (careful image).At 0 state := by
  induction hstate with
  | start => exact booted_at (Run.start (careful image) (cold_accounted image))
  | step _ hstep ih =>
    exact hstep.1.at ih trivial (fun _ _ => Set.mem_univ _)
      (fun hleaks => absurd hleaks hstep.2) fun _ => trivial

/-- On every disk image, in every state that calls reach of which none is among
those that leak, each reference count is the number of open files and processes
that hold the inode. -/
theorem balanced_of_givesBack {image : Image} {state : State}
    (hstate : ReachedBy GivesBack image state) : Balanced state := by
  have hat := careful_at hstate
  have hexact := exact_at id hat (cold_exact image)
  exact hexact.balanced (hat.tidy.resolve_left id)

/-- Root opens the root directory: its two references are a file and a process. -/
theorem open_balanced :
    ∃ state, ReachedBy GivesBack (emptyRoot 0o755) state ∧
      (state.icache 0).ref = 2 ∧ Balanced state := by
  have hruns : ∃ result state, syscall 0 (.open (some [slash]) (some oRdonly) [])
      (booted (emptyRoot 0o755)) = .done result state ∧ (state.icache 0).ref = 2 := ⟨_, _, rfl, rfl⟩
  have hready : ((booted (emptyRoot 0o755)).table.proc 0).state = .runnable ∧
      ((booted (emptyRoot 0o755)).table.proc 0).uid = root := by
    decide +kernel
  obtain ⟨result, state, hdone, href⟩ := hruns
  have hgives : GivesBack (booted (emptyRoot 0o755)) 0
      (.open (some [slash]) (some oRdonly) []) state :=
    ⟨⟨hready.1, result, hdone⟩, fun hleaks => hleaks.1 hready.2⟩
  exact ⟨state, .step .start hgives, href, balanced_of_givesBack (.step .start hgives)⟩

/-- After root has changed the mode of the root directory, one of its two
references belongs to nobody. -/
theorem chmod_unbalanced :
    ∃ state, ReachedBy Returned (emptyRoot 0o755) state ∧ ¬ Balanced state := by
  have hruns : ∃ result state, syscall 0 (.chmod (some [slash]) (some 0o700) 0)
      (booted (emptyRoot 0o755)) = .done result state ∧ (state.icache 0).ref = 2 ∧
        (openFiles state 0).card + (workers state 0).card = 1 := ⟨_, _, rfl, rfl, by decide +kernel⟩
  have hready : ((booted (emptyRoot 0o755)).table.proc 0).state = .runnable := by
    decide +kernel
  obtain ⟨result, state, hdone, href, hholders⟩ := hruns
  refine ⟨state, .step .start ⟨hready, result, hdone⟩, fun hbalanced => ?_⟩
  have hcount := hbalanced 0
  rw [href, hholders] at hcount
  exact absurd hcount (by norm_num)

end Xv6Users.References
