import Xv6Users.Kernel.Machine

/-!
# Changes of modes

`sys_chmod` compares the caller with the owner in the cache entry that `namei`
returns, before the entry is locked and so before it is loaded.  It follows the
recorded owner exactly if that word agrees with it as far as the caller is
concerned.  After a path that leads nowhere the word is read through a null
pointer.
-/

namespace Xv6Users.ModeChange

open Contracts Processes Inodes InodeAccount Moves InodeSpecs Syscalls CallSpecs CreateSpecs Machine

variable {looked : State} {ip : Ip}

section Locked

variable {state : State} {ip : Ip}

/-- An entry that nobody locks and that can be loaded. -/
def Ready (state : State) (ip : Ip) : Prop :=
  (state.icache ip).lock = none ∧
    ((state.icache ip).valid ∨ (state.disk (state.icache ip).inum).type ≠ .free)
  deriving Decidable

theorem setLocked_done_iff (curproc : Slot) (change : Dinode → Dinode) (hlive : Live state ip) :
    (∃ state', setLocked curproc (some ip) change state = .done () state') ↔ Ready state ip := by
  have href : ¬ (state.icache ip).ref < 1 := by
    unfold Live at hlive
    omega
  cases hlock : (state.icache ip).lock with
  | some holder =>
    simp [setLocked, ilock, getInode, Op.gets, bind, Op.bind, href, hlock, Op.block, Ready]
  | none =>
    cases hvalid : (state.icache ip).valid with
    | true =>
      simp [setLocked, ilock, iunlock, loadInode, getInode, setInode, Op.gets,
        Op.modify, bind, Op.bind, href, hlock, hvalid, Ready, State.setInode, pure,
        Op.pure]
    | false =>
      by_cases htype : (state.disk (state.icache ip).inum).type = .free
      · simp [setLocked, ilock, loadInode, getInode, setInode, Op.gets,
          Op.modify, bind, Op.bind, href, hlock, hvalid, Ready, State.setInode,
          htype, kpanic, Op.halt]
      · simp [setLocked, ilock, iunlock, loadInode, getInode, setInode, Op.gets,
          Op.modify, bind, Op.bind, href, hlock, hvalid, Ready, State.setInode,
          htype]

end Locked

section Chmod

variable {state : State} (curproc : Slot) (path : List Byte) (mode : UInt32) (nullUid : ℤ)

def OwnedBy (state : State) (curproc : Slot) (path : List Byte) (uid : ℤ) : Prop :=
  ∃ inum, (resolve state curproc false path []).1 = some inum ∧ (recorded state inum).uid = uid

/-- `sys_chmod` succeeds for the owner, and otherwise fails and changes no mode. -/
def FollowsOwner (state : State) : Prop :=
  ((∃ state', sysChmod curproc (some path) (some mode) nullUid state = .done 1 state') ↔
    OwnedBy state curproc path (state.table.proc curproc).uid) ∧
  (¬ OwnedBy state curproc path (state.table.proc curproc).uid → ∃ state',
    sysChmod curproc (some path) (some mode) nullUid state = .done (-1) state' ∧
      ∀ inum, (recorded state' inum).mode = (recorded state inum).mode)

/-- What `namei` returns tells the owner: the word in the entry is the caller
exactly if the recorded owner is, and the owner's entry can be locked. -/
def TellsOwner (uid nullUid : ℤ) : Outcome State Stop (Option Ip) → Prop
  | .done none _ => uid ≠ nullUid
  | .done (some ip) looked =>
    (uid = (looked.icache ip).info.uid ↔ (recorded looked (looked.icache ip).inum).uid = uid) ∧
    ((recorded looked (looked.icache ip).inum).uid = uid → Ready looked ip)
  | .blocked _ => False
  | .halted _ => False

instance (uid nullUid : ℤ) :
    ∀ outcome, Decidable (TellsOwner uid nullUid outcome)
  | .done none _ => inferInstanceAs (Decidable (_ ≠ _))
  | .done (some _) _ => inferInstanceAs (Decidable ((_ ↔ _) ∧ (_ → _)))
  | .blocked _ => inferInstanceAs (Decidable False)
  | .halted _ => inferInstanceAs (Decidable False)

variable {curproc path}

/-- `namei` keeps owners and modes and finds what the path stands for. -/
theorem namei_done (hacc : Accounted 0 state) {found : Option Ip}
    (hnamei : namei curproc path state = .done found looked) :
    Frame looks state looked ∧ Accounted (taken found) looked ∧
      (resolve state curproc false path []).1 = found.map fun ip => (looked.icache ip).inum := by
  have hspec := namei_spec curproc path (Std.Refl.refl state)
    (Run.start (Run.any state) hacc)
  unfold Run.Does Ends at hspec
  rw [hnamei] at hspec
  obtain ⟨hframe, hafter, hresolve⟩ := hspec
  rw [zero_add] at hafter
  exact ⟨hframe, hafter.now.accounted, hresolve⟩

theorem sysChmod_none (hnamei : namei curproc path state = .done none looked) :
    sysChmod curproc (some path) (some mode) nullUid state =
      if (looked.table.proc curproc).uid ≠ nullUid ∧
        (looked.table.proc curproc).uid ≠ root then .done (-1) looked
      else .halted (.panic "ilock") := by
  simp only [sysChmod, bind, Op.bind, hnamei, ownerWord, pure, Op.pure, procUid, Op.gets]
  split_ifs <;> rfl

theorem sysChmod_some (hnamei : namei curproc path state = .done (some ip) looked) :
    sysChmod curproc (some path) (some mode) nullUid state =
      if (looked.table.proc curproc).uid ≠ (looked.icache ip).info.uid ∧
        (looked.table.proc curproc).uid ≠ root then .done (-1) looked
      else (setLocked curproc (some ip) (fun info => { info with mode }) >>=
        fun _ => pure 1) looked := by
  simp only [sysChmod, bind, Op.bind, hnamei, ownerWord, procUid, Op.gets]
  split_ifs <;> rfl

theorem setLocked_one_iff (change : Dinode → Dinode) (hlive : Live state ip) :
    (∃ state', (setLocked curproc (some ip) change >>= fun _ => pure 1 : K ℤ) state =
      .done 1 state') ↔ Ready state ip := by
  rw [← setLocked_done_iff curproc change hlive]
  change (∃ state', Op.bind _ _ _ = _) ↔ _
  rw [Op.bind]
  cases setLocked curproc (some ip) change state with
  | done result state' => simp [pure, Op.pure]
  | blocked state' => simp
  | halted reason => simp

/-- An outcome that is neither success nor failure satisfies nobody. -/
theorem not_followsOwner (hnone : ∀ result state',
      sysChmod curproc (some path) (some mode) nullUid state ≠ .done result state') :
    ¬ FollowsOwner curproc path mode nullUid state := by
  rintro ⟨hsucceeds, hfails⟩
  by_cases howned : OwnedBy state curproc path (state.table.proc curproc).uid
  · obtain ⟨state', hdone⟩ := hsucceeds.2 howned
    exact hnone 1 state' hdone
  · obtain ⟨state', hdone, -⟩ := hfails howned
    exact hnone (-1) state' hdone

theorem setLocked_one_ne (change : Dinode → Dinode) (state' : State) :
    (setLocked curproc (some ip) change >>= fun _ => pure 1 : K ℤ) state ≠
      .done (-1) state' := by
  change Op.bind _ _ _ ≠ _
  rw [Op.bind]
  cases setLocked curproc (some ip) change state with
  | done result state' => simp [pure, Op.pure]
  | blocked state' => simp
  | halted reason => simp

theorem followsOwner_none (hacc : Accounted 0 state) (huser : (state.table.proc curproc).uid ≠ root)
    (hnamei : namei curproc path state = .done none looked) :
    FollowsOwner curproc path mode nullUid state ↔ (state.table.proc curproc).uid ≠ nullUid := by
  obtain ⟨hframe, -, hresolve⟩ := namei_done hacc hnamei
  have huid := uid_of_looks hframe curproc
  have hcall := sysChmod_none mode nullUid hnamei
  have hnot : ¬ OwnedBy state curproc path (state.table.proc curproc).uid := by
    rintro ⟨inum, hinum, -⟩
    rw [hresolve] at hinum
    cases hinum
  rw [huid] at hcall
  by_cases hnull : (state.table.proc curproc).uid = nullUid
  · rw [if_neg fun h => h.1 hnull] at hcall
    refine iff_of_false (not_followsOwner mode nullUid ?_) fun h => h hnull
    intro result state' hdone
    rw [hcall] at hdone
    cases hdone
  · rw [if_pos ⟨hnull, huser⟩] at hcall
    refine iff_of_true ⟨iff_of_false ?_ hnot, fun _ => ?_⟩ hnull
    · rintro ⟨state', hdone⟩
      rw [hcall] at hdone
      cases hdone
    · exact ⟨looked, hcall, fun inum => (rights_of_looks hframe inum).2⟩

theorem followsOwner_some (hacc : Accounted 0 state) (huser : (state.table.proc curproc).uid ≠ root)
    (hnamei : namei curproc path state = .done (some ip) looked) :
    FollowsOwner curproc path mode nullUid state ↔
      TellsOwner (state.table.proc curproc).uid nullUid (.done (some ip) looked) := by
  obtain ⟨hframe, hacc', hresolve⟩ := namei_done hacc hnamei
  have huid := uid_of_looks hframe curproc
  have hlive : Live looked ip := hacc'.live (by simp [taken])
  have howned : OwnedBy state curproc path (state.table.proc curproc).uid ↔
      (recorded looked (looked.icache ip).inum).uid = (state.table.proc curproc).uid := by
    rw [OwnedBy, hresolve, (rights_of_looks hframe _).1]
    simp
  have hcall := sysChmod_some mode nullUid hnamei
  rw [huid] at hcall
  rw [FollowsOwner, howned, TellsOwner]
  by_cases hword : (state.table.proc curproc).uid = (looked.icache ip).info.uid
  · rw [if_neg fun h => h.1 hword] at hcall
    have hnever : ∀ state', sysChmod curproc (some path) (some mode) nullUid state ≠
        .done (-1) state' := by
      rw [hcall]
      exact setLocked_one_ne _
    rw [hcall, setLocked_one_iff _ hlive, iff_true_left hword]
    constructor
    · rintro ⟨hready, hfails⟩
      refine ⟨?_, hready.2⟩
      by_contra hother
      obtain ⟨state', hdone, -⟩ := hfails hother
      exact hnever state' (hcall.trans hdone)
    · rintro ⟨hown, hready⟩
      exact ⟨iff_of_true (hready hown) hown, fun hother => absurd hown hother⟩
  · rw [if_pos ⟨hword, huser⟩] at hcall
    rw [hcall, iff_false_left hword]
    constructor
    · rintro ⟨hsucceeds, -⟩
      have hother : ¬ (recorded looked (looked.icache ip).inum).uid =
          (state.table.proc curproc).uid := by
        intro hown
        obtain ⟨state', hdone⟩ := hsucceeds.2 hown
        cases hdone
      exact ⟨hother, fun hown => absurd hown hother⟩
    · rintro ⟨hother, -⟩
      refine ⟨iff_of_false ?_ hother, fun _ => ⟨looked, rfl, ?_⟩⟩
      · rintro ⟨state', hdone⟩
        cases hdone
      · exact fun inum => (rights_of_looks hframe inum).2

end Chmod

/-- A root directory with a file `a` of user 1000 and a file `b` of root. -/
def twoOwners : Image where
  ninodes := 8
  disk inum := match inum with
    | 1 => { emptyDinode .dir with nlink := 1 }
    | 2 => { emptyDinode .file with nlink := 1, uid := 1000 }
    | 3 => { emptyDinode .file with nlink := 1 }
    | _ => emptyDinode .free
  data inum := if inum = rootIno then direntBytes 2 [97] ++ direntBytes 3 [98] else []

end Xv6Users.ModeChange
