import Xv6Users.Kernel.Machine

/-!
# The owner of a directory

`updateDirOwner` sets the owner of a directory and of the inodes that the names in its slots
lead to from the current directory of the caller.  The references that it takes are never
given back, so the directory keeps its slot of the cache.
-/

namespace Xv6Users.DirOwner

open List

open Contracts Processes Inodes InodeAccount Moves InodeSpecs CallSpecs Syscalls Directories Machine

section Pinned

variable {state : State} {dp ip : Ip} {d k : ℕ} {change : Inode → Inode} {curproc : Slot}

/-- A loaded slot with a reference more than the `k` that an operation may give back. -/
structure Pinned (dp : Ip) (d k : ℕ) (state : State) : Prop where
  inum : (state.icache dp).inum = d
  valid : (state.icache dp).valid
  kept : (k : ℤ) + 1 ≤ (state.icache dp).ref

theorem pinned_setInode (hother : ip ≠ dp → Pinned dp d k state)
    (hself : ip = dp → (change (state.icache dp)).inum = d ∧ (change (state.icache dp)).valid ∧
      (k : ℤ) + 1 ≤ (change (state.icache dp)).ref) : Pinned dp d k (state.setInode ip change) := by
  by_cases hip : ip = dp
  · subst hip
    obtain ⟨hinum, hvalid, hkept⟩ := hself rfl
    constructor <;> rwa [icache_setInode_self]
  · have hpinned := hother hip
    have hsame : (state.setInode ip change).icache dp = state.icache dp :=
      icache_setInode_of_ne (Ne.symm hip)
    constructor <;> rw [hsame]
    exacts [hpinned.inum, hpinned.valid, hpinned.kept]

theorem Pinned.retain (hpinned : Pinned dp d k state) (ip : Ip) :
    Leaves (retain ip) state fun _ state' => Pinned dp d (k + one ip dp) state' := by
  refine .gets_bind ?_
  split_ifs
  · exact .halt
  · apply Leaves.modify
    apply pinned_setInode
    · intro hne
      rwa [one_of_ne hne.symm]
    · rintro rfl
      have hkept := hpinned.kept
      refine ⟨hpinned.inum, hpinned.valid, ?_⟩
      rw [one_self]
      push_cast
      omega

theorem Pinned.iget (hpinned : Pinned dp d k state) (inum : ℕ) :
    Leaves (iget inum) state fun ip state' => Pinned dp d (k + one ip dp) state' := by
  refine .gets_bind ?_
  split
  · exact (hpinned.retain _).bind fun _ _ hretained => .pure hretained
  next ip hfound =>
    have hempty : state.empty = some ip := congrArg Prod.snd hfound
    have hzero : (state.icache ip).ref = 0 := by
      simpa using find?_some hempty
    have hne : ip ≠ dp := by
      rintro rfl
      have hkept := hpinned.kept
      omega
    have hset : Leaves (setInode ip fun inode => { inode with inum, ref := 1, valid := false })
        state fun _ state' => Pinned dp d k state' :=
      .modify (pinned_setInode (fun _ => hpinned) fun heq => absurd heq hne)
    refine hset.bind fun _ state' hpinned' => .pure ?_
    rwa [one_of_ne hne.symm]
  · exact .halt

theorem Pinned.ilock (hpinned : Pinned dp d k state) (ip : Ip) :
    Leaves (ilock curproc (some ip)) state fun _ state' => Pinned dp d k state' := by
  refine .gets_bind ?_
  split_ifs
  · exact .halt
  · exact .block
  have hlock : Leaves (setInode ip fun inode => { inode with lock := some curproc }) state
      fun _ state' => Pinned dp d k state' :=
    .modify (pinned_setInode (fun _ => hpinned) fun _ =>
      ⟨hpinned.inum, hpinned.valid, hpinned.kept⟩)
  refine hlock.bind fun _ locked hlocked => ?_
  refine .gets_bind ?_
  split_ifs with hvalid
  · exact .pure hlocked
  · refine .gets_bind ?_
    split_ifs
    · exact .halt
    · apply Leaves.modify
      apply pinned_setInode (fun _ => hlocked)
      rintro rfl
      exact absurd hlocked.valid hvalid

/-- A lock pins the slot. -/
theorem ilock_pins (hinum : (state.icache dp).inum = d) :
    Leaves (ilock curproc (some dp)) state fun _ state' => Pinned dp d 0 state' := by
  refine .gets_bind ?_
  split_ifs with href
  · exact .halt
  · exact .block
  have hlock : Leaves (setInode dp fun inode => { inode with lock := some curproc }) state
      fun _ state' => (state'.icache dp).inum = d ∧ 1 ≤ (state'.icache dp).ref := by
    apply Leaves.modify
    rw [icache_setInode_self]
    exact ⟨hinum, not_lt.1 href⟩
  refine hlock.bind fun _ locked hlocked => ?_
  obtain ⟨hinum', href'⟩ := hlocked
  refine .gets_bind ?_
  split_ifs with hvalid
  · exact .pure ⟨hinum', hvalid, href'⟩
  · refine .gets_bind ?_
    split_ifs
    · exact .halt
    · exact .modify (pinned_setInode (fun hne => absurd rfl hne) fun _ =>
        ⟨hinum', rfl, href'⟩)

theorem Pinned.iunlock (hpinned : Pinned dp d k state) (ip : Ip) :
    Leaves (iunlock curproc ip) state fun _ state' => Pinned dp d k state' := by
  refine .gets_bind ?_
  split_ifs
  · exact .halt
  · exact .modify (pinned_setInode (fun _ => hpinned) fun _ =>
      ⟨hpinned.inum, hpinned.valid, hpinned.kept⟩)

/-- Another slot may be freed, this one is not. -/
theorem Pinned.freeInode (hpinned : Pinned dp d k state) (hne : ip ≠ dp) :
    Leaves (freeInode ip) state fun _ state' => Pinned dp d k state' := by
  intro result state' hdone
  rw [freeInode_eq] at hdone
  split_ifs at hdone
  cases hdone
  have hsame : (State.freed state ip).icache dp = state.icache dp :=
    icache_writeThrough_of_ne hne.symm
  constructor <;> rw [hsame]
  exacts [hpinned.inum, hpinned.valid, hpinned.kept]

theorem Pinned.iput (hpinned : Pinned dp d (k + one ip dp) state) :
    Leaves (iput ip) state fun _ state' => Pinned dp d k state' := by
  refine .gets_bind ?_
  split_ifs
  · exact .block
  have hfree : Leaves (whenever ((state.icache ip).valid ∧ (state.icache ip).info.nlink = 0 ∧
      (state.icache ip).ref = 1) (Inodes.freeInode ip)) state fun _ state' =>
        Pinned dp d (k + one ip dp) state' := by
    rw [whenever]
    split_ifs with hlast
    · apply hpinned.freeInode
      rintro rfl
      have hkept := hpinned.kept
      rw [one_self] at hkept
      omega
    · exact .pure hpinned
  refine hfree.bind fun _ state' hstill => ?_
  apply Leaves.modify
  apply pinned_setInode
  · intro hne
    rwa [one_of_ne hne.symm] at hstill
  · rintro rfl
    have hkept := hstill.kept
    rw [one_self] at hkept
    exact ⟨hstill.inum, hstill.valid, by dsimp only; omega⟩

theorem Pinned.iunlockput (hpinned : Pinned dp d (k + one ip dp) state) :
    Leaves (iunlockput curproc ip) state fun _ state' => Pinned dp d k state' :=
  (hpinned.iunlock ip).bind fun _ _ hunlocked => hunlocked.iput

theorem Pinned.dirlookup (hpinned : Pinned dp d k state) (jp : Ip) (name : List Byte) :
    Leaves (dirlookup jp name) state fun found state' =>
      Pinned dp d (k + taken (found.map Prod.fst) dp) state' := by
  refine .gets_bind ?_
  split_ifs
  · exact .halt
  refine .gets_bind ?_
  split
  · exact .halt
  · exact .pure hpinned
  · exact (hpinned.iget _).bind fun _ _ hgot => .pure hgot

theorem Pinned.namexLoop (parent : Bool) (elems : List (List Byte)) (name : List Byte)
    (hpinned : Pinned dp d (k + one ip dp) state) :
    Leaves (namexLoop curproc parent elems ip name) state fun found state' =>
      Pinned dp d (k + taken found.1 dp) state' := by
  induction elems generalizing state ip name with
  | nil =>
    cases parent with
    | false => exact .pure hpinned
    | true => exact hpinned.iput.bind fun _ _ hput => .pure hput
  | cons elem rest ih =>
    refine (hpinned.ilock ip).bind fun _ locked hlocked => ?_
    refine .gets_bind ?_
    split_ifs
    · exact hlocked.iunlockput.bind fun _ _ hput => .pure hput
    · exact (hlocked.iunlock ip).bind fun _ _ hunlocked => .pure hunlocked
    · refine (hlocked.dirlookup ip elem).bind fun found looked hlooked => ?_
      rw [add_right_comm] at hlooked
      cases found with
      | none => exact hlooked.iunlockput.bind fun _ _ hput => .pure hput
      | some entry => exact hlooked.iunlockput.bind fun _ _ hput => ih elem hput

theorem Pinned.namei (hpinned : Pinned dp d k state) (path : List Byte) :
    Leaves (namei curproc path) state fun found state' =>
      Pinned dp d (k + taken found dp) state' := by
  have hstart : Leaves (startInode curproc path) state fun ip state' =>
      Pinned dp d (k + one ip dp) state' := by
    rw [startInode]
    split_ifs
    · exact hpinned.iget rootIno
    · refine .gets_bind ?_
      cases state.cwd curproc with
      | none => exact .halt
      | some ip => exact (hpinned.retain ip).bind fun _ _ hretained => .pure hretained
  have hnamex : Leaves (namex curproc path false []) state fun found state' =>
      Pinned dp d (k + taken found.1 dp) state' :=
    hstart.bind fun _ _ hstarted => hstarted.namexLoop false (elements path) []
  exact hnamex.bind fun _ _ hfound => .pure hfound

/-- The rest of `changeOwnerGroup`. -/
theorem Pinned.setOwner (hpinned : Pinned dp d k state) (uid gid : ℤ) (ip : Ip) :
    Leaves (do
      setInode ip fun inode => { inode with info := { inode.info with uid, gid } }
      Inodes.iunlock curproc ip) state fun _ state' => Pinned dp d k state' := by
  have hset : Leaves (setInode ip fun inode => { inode with info := { inode.info with uid, gid } })
      state fun _ state' => Pinned dp d k state' :=
    .modify (pinned_setInode (fun _ => hpinned) fun _ =>
      ⟨hpinned.inum, hpinned.valid, hpinned.kept⟩)
  exact hset.bind fun _ _ hchanged => hchanged.iunlock ip

theorem Pinned.changeOwnerGroup (hpinned : Pinned dp d k state) (uid gid : ℤ) (ip : Ip) :
    Leaves (changeOwnerGroup curproc uid gid (some ip)) state fun _ state' =>
      Pinned dp d k state' := (hpinned.ilock ip).bind fun _ _ hlocked => hlocked.setOwner uid gid ip

theorem changeOwnerGroup_pins (hinum : (state.icache dp).inum = d) (uid gid : ℤ) :
    Leaves (changeOwnerGroup curproc uid gid (some dp)) state fun _ state' =>
      Pinned dp d 0 state' := (ilock_pins hinum).bind fun _ _ hlocked => hlocked.setOwner uid gid dp

end Pinned

variable {path : List Byte} {middle : State}

section Owners

variable {run : Run} {start state state' : State} {curproc : Slot} {uid gid : ℤ} {dp ip : Ip}
  {d : ℕ} {kept : Ip → ℕ} {beyond : List Byte}

def owner (state : State) (inum : ℕ) : ℤ × ℤ :=
  ((recorded state inum).uid, (recorded state inum).gid)

/-- These inodes have the new owner, the others have theirs. -/
structure Owned (uid gid : ℤ) (inums : List ℕ) (state state' : State) : Prop where
  changed : ∀ inum ∈ inums, owner state' inum = (uid, gid)
  others : ∀ inum ∉ inums, owner state' inum = owner state inum

theorem owner_of_looks (hlooks : Frame looks state state') (inum : ℕ) :
    owner state' inum = owner state inum := by
  have hsame := (hlooks.same inum (hlooks.gen_eq inum (Set.notMem_empty inum))).owner
    (Set.notMem_empty inum)
  exact Prod.ext hsame.1 hsame.2

theorem Owned.cons {first : ℕ} {rest : List ℕ}
    (hfirst : Owned uid gid [first] state middle) (hrest : Owned uid gid rest middle state') :
    Owned uid gid (first :: rest) state state' := by
  constructor
  · intro inum hmem
    by_cases hlater : inum ∈ rest
    · exact hrest.changed inum hlater
    · rw [hrest.others inum hlater]
      exact hfirst.changed inum (mem_singleton.2 ((mem_cons.1 hmem).resolve_right hlater))
  · intro inum hnot
    rw [mem_cons, not_or] at hnot
    rw [hrest.others inum hnot.2]
    exact hfirst.others inum fun hmem => hnot.1 (mem_singleton.1 hmem)

theorem Owned.looks_first {inums : List ℕ} (hlooks : Frame looks state middle)
    (howned : Owned uid gid inums middle state') : Owned uid gid inums state state' :=
  ⟨howned.changed, fun inum hnot => (howned.others inum hnot).trans (owner_of_looks hlooks inum)⟩

/-- The inode behind a slot changes hands. -/
theorem changeOwnerGroup_owned (hleaks : run.leaks) (hrights : run.rights) (curproc : Slot)
    (uid gid : ℤ) (hacc : run.At (kept + one ip) state) :
    run.Does (changeOwnerGroup curproc uid gid (some ip)) state keepsTree fun _ state' =>
      run.After kept kept state state' ∧ Owned uid gid [(state.icache ip).inum] state state' := by
  have hspec : run.Does (changeOwnerGroup curproc uid gid (some ip)) state
      ⟨∅, ∅, {(state.icache ip).inum}, ∅, False⟩ _ :=
    changeOwnerGroup_spec hleaks hrights curproc uid gid hacc (Set.mem_singleton _)
  refine hspec.mono ?_ ?_
  · exact fun _ => .mono ⟨le_rfl, le_rfl, Set.subset_univ _, Set.subset_univ _, id⟩
  · rintro _ state' hframe ⟨hafter, huid, hgid⟩
    refine ⟨hafter, ?_, ?_⟩
    · intro inum hmem
      rw [mem_singleton.1 hmem]
      exact Prod.ext huid hgid
    · intro inum hnot
      have hsame := (hframe.same inum (hframe.gen_eq inum (Set.notMem_empty inum))).owner
        fun hmem => hnot (mem_singleton.2 hmem)
      exact Prod.ext hsame.1 hsame.2

def named (state : State) (curproc : Slot) (d : ℕ) (beyond : List Byte) (offs : List ℕ) : List ℕ :=
  offs.filterMap fun off => (direntPath (state.data d) off beyond).bind fun path =>
    (resolve state curproc false path []).1

theorem named_cons {off inum : ℕ} (offs : List ℕ)
    (hpath : direntPath (state.data d) off beyond = some path)
    (hresolve : (resolve state curproc false path []).1 = some inum) :
    named state curproc d beyond (off :: offs) = inum :: named state curproc d beyond offs := by
  rw [named, filterMap_cons, hpath, Option.bind_some, hresolve]
  rfl

/-- The directory is in its slot, with the bytes it had. -/
theorem Pinned.data_eq {k : ℕ} {flight : Ip → ℕ} (hpinned : Pinned dp d k state)
    (hacc : Accounted flight state) (hstart : Frame keepsTree start state) :
    state.data (state.icache dp).inum = start.data d := by
  have hlive : Live state dp := by
    have hkept := hpinned.kept
    rw [Live]
    omega
  have hdata := (loaded_eq hacc hstart hlive hpinned.valid).2
  rwa [hpinned.inum] at hdata ⊢

/-- The loop gives away what the names lead to. -/
theorem updateLoop_owned (hleaks : run.leaks) (hrights : run.rights) (offs : List ℕ)
    (hstart : Frame keepsTree start state) (hacc : run.At 0 state) (hpinned : Pinned dp d 0 state) :
    run.Does (updateLoop curproc uid gid dp beyond offs) state keepsTree fun _ state' =>
      Owned uid gid (named start curproc d beyond offs) state state' := by
  induction offs generalizing state with
  | nil => exact .pure ⟨fun _ hmem => absurd hmem not_mem_nil, fun _ _ => rfl⟩
  | cons off rest ih =>
    refine .gets_bind (.gets_bind ?_)
    rw [hpinned.data_eq hacc.accounted hstart]
    split
    · exact .halt _
    next path hpath =>
    have hnamei : run.Does (namei curproc path) state looks _ :=
      .and (namei_spec curproc path hstart hacc) (hpinned.namei path)
    refine hnamei.looking.bind fun found looked hframe hfound => ?_
    obtain ⟨hlooks, ⟨hafter, hresolve⟩, hpinned'⟩ := hfound
    cases found with
    | none => exact .halt _
    | some ip =>
      rw [named_cons rest hpath hresolve]
      have hpinned'' : Pinned dp d 0 looked :=
        ⟨hpinned'.inum, hpinned'.valid, by have := hpinned'.kept; push_cast at this ⊢; omega⟩
      have hchange := Ends.and
        (changeOwnerGroup_owned hleaks hrights curproc uid gid hafter.now)
        (hpinned''.changeOwnerGroup uid gid ip)
      refine hchange.bind fun _ changed hframe' hchanged => ?_
      obtain ⟨⟨hafter', howned⟩, hpinned''⟩ := hchanged
      have hbefore : Frame keepsTree start changed :=
        IsTrans.trans _ _ _ hstart (IsTrans.trans _ _ _ hframe hframe')
      refine (ih hbefore hafter'.now hpinned'').mono (fun _ => id) ?_
      intro _ state' _ hrest
      exact (howned.cons hrest).looks_first hlooks

def touched (state : State) (curproc : Slot) (d : ℕ) (beyond : List Byte) : List ℕ :=
  d :: named state curproc d beyond ((offsets (state.data d).length).drop 2)

theorem sysUpdateDirOwner_owned (hleaks : run.leaks) (hrights : run.rights)
    (hacc : run.At 0 state) (hd : (resolve state curproc false path []).1 = some d) :
    run.Does (sysUpdateDirOwner curproc (some path) (some uid) (some gid) beyond) state keepsTree
      fun _ state' => Owned uid gid (touched state curproc d beyond) state state' := by
  have hstart : Frame keepsTree state state := Std.Refl.refl state
  refine (namei_spec curproc path hstart hacc).looking.bind fun found looked hframe hfound => ?_
  obtain ⟨hlooks, hafter, hresolve⟩ := hfound
  cases found with
  | none => exact .halt _
  | some dp =>
    have hinum : (looked.icache dp).inum = d := by
      rw [hd] at hresolve
      exact (Option.some.inj hresolve).symm
    have hchange := Ends.and
      (changeOwnerGroup_owned hleaks hrights curproc uid gid hafter.now)
      (changeOwnerGroup_pins hinum uid gid)
    refine hchange.bind fun _ changed hframe' hchanged => ?_
    obtain ⟨⟨hafter', howned⟩, hpinned⟩ := hchanged
    have hbefore : Frame keepsTree state changed := IsTrans.trans _ _ _ hframe hframe'
    rw [hinum] at howned
    refine .gets_bind ?_
    rw [hpinned.data_eq hafter'.now.accounted hbefore]
    refine (updateLoop_owned hleaks hrights _ hbefore hafter'.now hpinned).bind
      fun _ last _ hrest => ?_
    exact .pure ((howned.cons hrest).looks_first hlooks)

end Owners

section Calls

variable {state state' : State} {curproc : Slot} {uid gid : ℤ} {d : ℕ} {path beyond : List Byte}

/-- The directory, and what its entries name. -/
def meant (state : State) (d : ℕ) : List ℕ :=
  d :: ((entries (state.data d)).filter fun de =>
    de.inum ≠ 0 ∧ de.name ≠ dot ∧ de.name ≠ dotdot).map Dirent.inum

/-- Each inode that is given away without being meant, and each that is meant without being
given away, has that owner already. -/
def Matches (state : State) (curproc : Slot) (uid gid : ℤ) (d : ℕ) (beyond : List Byte) : Prop :=
  ∀ inum, (inum ∈ touched state curproc d beyond ↔ inum ∈ meant state d) ∨
    owner state inum = (uid, gid)

/-- In every reachable state, a call sets the owner of a directory and of what its entries
name, and of nothing else, exactly if the names in the slots lead to what the entries name. -/
theorem updateDirOwner_owns_iff (hstate : Reachable state)
    (hd : (resolve state curproc false path []).1 = some d)
    (hcall : sysUpdateDirOwner curproc (some path) (some uid) (some gid) beyond state =
      .done 1 state') :
    Owned uid gid (meant state d) state state' ↔ Matches state curproc uid gid d beyond := by
  have howned : Owned uid gid (touched state curproc d beyond) state state' := by
    have hdoes : (Run.any state).Does
        (sysUpdateDirOwner curproc (some path) (some uid) (some gid) beyond) state keepsTree _ :=
      sysUpdateDirOwner_owned trivial trivial (Run.start (Run.any state) hstate.accounted) hd
    exact (Ends.of_done hdoes hcall).2
  constructor
  · intro hmeant inum
    by_cases htouched : inum ∈ touched state curproc d beyond
    · by_cases hin : inum ∈ meant state d
      · exact .inl (iff_of_true htouched hin)
      · right
        rw [← hmeant.others inum hin]
        exact howned.changed inum htouched
    · by_cases hin : inum ∈ meant state d
      · right
        rw [← howned.others inum htouched]
        exact hmeant.changed inum hin
      · exact .inl (iff_of_false htouched hin)
  · intro hmatches
    constructor
    · intro inum hin
      by_cases htouched : inum ∈ touched state curproc d beyond
      · exact howned.changed inum htouched
      · rw [howned.others inum htouched]
        exact (hmatches inum).resolve_left fun hiff => htouched (hiff.2 hin)
    · intro inum hout
      by_cases htouched : inum ∈ touched state curproc d beyond
      · rw [howned.changed inum htouched]
        exact ((hmatches inum).resolve_left fun hiff => hout (hiff.1 htouched)).symm
      · exact howned.others inum htouched

end Calls

/-- The files `/b` and `/a/b`. -/
def twoNames : Image where
  ninodes := 8
  disk inum := match inum with
    | 1 => { emptyDinode .dir with nlink := 1 }
    | 2 => { emptyDinode .dir with nlink := 1 }
    | 3 => { emptyDinode .file with nlink := 1 }
    | 4 => { emptyDinode .file with nlink := 1 }
    | _ => emptyDinode .free
  data inum := match inum with
    | 1 => direntBytes 1 dot ++ direntBytes 1 dotdot ++ direntBytes 3 [98] ++ direntBytes 2 [97]
    | 2 => direntBytes 2 dot ++ direntBytes 1 dotdot ++ direntBytes 4 [98]
    | _ => []

/-- From the root directory, `/a` is given away together with `/b`. -/
theorem updateDirOwner_takes_other : ∃ (state state' : State), Reachable state ∧
    (resolve state 0 false [slash, 97] []).1 = some 2 ∧
      sysUpdateDirOwner 0 (some [slash, 97]) (some 1000) (some 1000) [] state = .done 1 state' ∧
      ¬ Owned 1000 1000 (meant state 2) state state' := by
  have hruns : ∃ state ∈ left (startUp (cold twoNames)), ∃ state' ∈ left (sysUpdateDirOwner 0
      (some [slash, 97]) (some 1000) (some 1000) [] state),
      (resolve state 0 false [slash, 97] []).1 = some 2 ∧
        answer (sysUpdateDirOwner 0 (some [slash, 97]) (some 1000) (some 1000) [] state) = some 1 ∧
        4 ∈ meant state 2 ∧ owner state' 4 ≠ (1000, 1000) := by
    decide +kernel
  obtain ⟨state, hstart, state', hleft, hresolve, hanswer, hmeant, howner⟩ := hruns
  obtain ⟨last, hdone⟩ := answer_eq_some hanswer
  rw [hdone] at hleft
  cases hleft
  exact ⟨state, state', .start hstart, hresolve, hdone, fun howned =>
    howner (howned.changed 4 hmeant)⟩

/-- From the root directory, the root directory itself is given away as it should. -/
theorem updateDirOwner_owns_root : ∃ (state state' : State), Reachable state ∧
    (resolve state 0 false [slash] []).1 = some 1 ∧
      sysUpdateDirOwner 0 (some [slash]) (some 1000) (some 1000) [] state = .done 1 state' ∧
      Owned 1000 1000 (meant state 1) state state' := by
  have hruns : ∃ state ∈ left (startUp (cold twoNames)),
      (resolve state 0 false [slash] []).1 = some 1 ∧
        answer (sysUpdateDirOwner 0 (some [slash]) (some 1000) (some 1000) [] state) = some 1 ∧
        touched state 0 1 [] = meant state 1 := by
    decide +kernel
  obtain ⟨state, hstart, hresolve, hanswer, hsame⟩ := hruns
  obtain ⟨last, hdone⟩ := answer_eq_some hanswer
  have hmatches : Matches state 0 1000 1000 1 [] := by
    intro inum
    rw [hsame]
    exact .inl Iff.rfl
  exact ⟨state, last, .start hstart, hresolve, hdone,
    (updateDirOwner_owns_iff (.start hstart) hresolve hdone).2 hmatches⟩

end Xv6Users.DirOwner
