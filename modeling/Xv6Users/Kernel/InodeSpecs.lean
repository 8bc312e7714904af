import Xv6Users.Kernel.Directories
import Xv6Users.Kernel.Moves

/-!
# What the inode layer keeps

Contracts for the functions of `kernel/fs.c`: each keeps the account of the
inode cache and stays within its footprint.  A path lookup changes nothing and
finds what the recorded directories say.
-/

namespace Xv6Users.InodeSpecs

open Contracts Holders Processes Inodes InodeAccount Moves Syscalls Directories Function

variable {name stale : List Byte} {start state' : State} {found : ℕ}

section Cache

variable {run : Run} {flight kept : Ip → ℕ} {state : State} {ip : Ip}
  {footprint : Footprint}

theorem logWrite_spec : run.Does logWrite state footprint fun _ state' => state' = state := by
  refine .gets_bind ?_
  split_ifs
  · exact .halt _
  · exact .pure rfl

theorem iupdate_spec (htree : run.tree) (hacc : run.At flight state) (hlive : Live state ip)
    (hvalid : (state.icache ip).valid) :
    run.Does (iupdate ip) state footprint fun _ state' =>
      run.After flight flight state state' ∧ state'.data = state.data := by
  refine logWrite_spec.bind fun _ state' _ hstate => ?_
  subst hstate
  refine .gets_bind ?_
  have hsame : State.writeThrough state' ip (state'.icache ip).info true =
      state'.setDisk (state'.icache ip).inum (state'.icache ip).info := by
    have hslot : update state'.icache ip
        { state'.icache ip with valid := true } = state'.icache := by
      rw [← hvalid]
      exact update_eq_self ip _
    simp only [State.writeThrough, State.setInode, State.setDisk, hslot]
  have hspec := hacc.move (.store htree hlive hvalid rfl)
    (writeThrough_spec footprint hacc.accounted hlive hvalid
      (rfl : rights (state'.icache ip).info = _))
  rw [hsame] at hspec
  exact .modify hspec.1 ⟨hspec.2, rfl⟩

/-- The cached copy is changed and written to disk. -/
theorem storeInfo_spec (htree : run.tree) (hacc : run.At flight state)
    (hlive : Live state ip) (hvalid : (state.icache ip).valid) (change : Dinode → Dinode)
    (htype : ∀ info, (change info).type = info.type)
    (howner : ∀ info, (change info).uid = info.uid ∧ (change info).gid = info.gid)
    (hmode : (state.icache ip).inum ∈ footprint.mode ∨ ∀ info, (change info).mode = info.mode) :
    run.Does (do
      setInode ip fun inode => { inode with info := change inode.info }
      iupdate ip) state footprint fun _ state' => run.After flight flight state state' := by
  have heq : (do
      setInode ip fun inode => { inode with info := change inode.info }
      iupdate ip : K Unit) state =
        if state.outstanding < 1 then .halted (.panic "log_write outside of trans")
        else .done () (State.writeThrough state ip (change (state.icache ip).info) true) := by
    by_cases hlog : state.outstanding < 1
    · simp [iupdate, logWrite, hlog, bind, Op.bind, Op.gets, setInode,
        Op.modify, State.setInode, kpanic, Op.halt]
    · simp only [iupdate, logWrite, hlog, bind, Op.bind, Op.gets, setInode,
        Op.modify, State.setInode, pure, Op.pure, getInode, State.writeThrough,
        State.setDisk, if_false, update_self]
      rw [← hvalid]
  have hspec := hacc.move (.store htree hlive hvalid (htype _))
    (storeRights_spec footprint hacc.accounted hlive hvalid (htype _) (.inr (howner _))
      (hmode.imp_right fun hsame => hsame _))
  unfold Run.Does Ends
  rw [heq]
  split_ifs
  · trivial
  · exact hspec

section

variable (hacc : run.At flight state)

include hacc

theorem retain_spec (hlive : Live state ip) :
    run.Does (retain ip) state footprint fun _ state' =>
      run.After flight (flight + one ip) state state' ∧
        (state'.icache ip).inum = (state.icache ip).inum := by
  refine .gets_bind ?_
  split_ifs
  · exact .halt _
  · have hspec := hacc.move (.retain hlive) (addRef_spec footprint hacc.accounted hlive)
    exact .modify hspec.1 ⟨hspec.2, by rw [icache_setInode_self]⟩

theorem idup_spec (hlive : Live state ip) :
    run.Does (idup (some ip)) state footprint fun jp state' =>
      jp = ip ∧ run.After flight (flight + one ip) state state' ∧
        (state'.icache ip).inum = (state.icache ip).inum := by
  refine (retain_spec hacc hlive).bind fun _ state' _ hretain => ?_
  exact .pure ⟨rfl, hretain⟩

theorem iget_spec (inum : ℕ) :
    run.Does (iget inum) state footprint fun ip state' =>
      run.After flight (flight + one ip) state state' ∧ (state'.icache ip).inum = inum := by
  refine .gets_bind ?_
  split
  next ip _ hfound =>
    obtain ⟨hcached, -⟩ := Prod.mk.injEq .. ▸ hfound
    obtain ⟨hlive, hinum⟩ := cached_eq_some hcached
    refine (retain_spec hacc hlive).bind fun _ state' _ hafter => ?_
    exact .pure ⟨hafter.1, hafter.2.trans hinum⟩
  next ip hfound =>
    obtain ⟨hcached, hempty⟩ := Prod.mk.injEq .. ▸ hfound
    have href : (state.icache ip).ref = 0 := by
      simpa using List.find?_some hempty
    have hnone := cached_eq_none.1 hcached
    have hspec := hacc.move (.recycle href hnone)
      (recycle_spec footprint hacc.accounted href hnone)
    refine .modify_bind hspec.1 (.pure ⟨hspec.2, ?_⟩)
    rw [icache_setInode_self]
  next => exact .halt _

theorem loadInode_spec (hlive : Live state ip) :
    run.Does (loadInode ip) state footprint fun _ state' =>
      run.After flight flight state state' ∧ (state'.icache ip).valid ∧
        (state'.icache ip).inum = (state.icache ip).inum := by
  refine .gets_bind ?_
  split_ifs with hvalid
  · exact .pure ⟨hacc.after, hvalid, rfl⟩
  · refine .gets_bind ?_
    split_ifs with htype
    · exact .halt _
    · have hinvalid : (state.icache ip).valid = false := by simpa using hvalid
      have hspec := hacc.move (.load hlive hinvalid htype)
        (load_spec footprint hacc.accounted hlive hinvalid htype)
      refine .modify hspec.1 ⟨hspec.2, ?_⟩
      rw [icache_setInode_self]
      exact ⟨rfl, rfl⟩

theorem ilock_spec (curproc : Slot) (hlive : Live state ip) :
    run.Does (ilock curproc (some ip)) state footprint fun _ state' =>
      run.After flight flight state state' ∧ (state'.icache ip).valid ∧
        (state'.icache ip).inum = (state.icache ip).inum := by
  refine .gets_bind ?_
  split_ifs
  · exact .halt _
  · exact .block hacc.stuck
  · have hspec := hacc.move (.lock hlive (some curproc))
      (setLock_spec footprint hacc.accounted hlive (some curproc))
    refine .modify_bind hspec.1 ?_
    have hlive' : Live (state.setInode ip fun inode =>
        { inode with lock := some curproc }) ip := by
      rw [Live, icache_setInode_self]
      exact hlive
    refine (loadInode_spec hspec.2.now hlive').mono (fun _ => id) ?_
    intro _ state' _ hload
    exact ⟨⟨hload.1.now, hspec.2.keeps.trans hload.1.keeps⟩, hload.2.1,
      hload.2.2.trans (by rw [icache_setInode_self])⟩

theorem iunlock_spec (curproc : Slot) (hlive : Live state ip) :
    run.Does (iunlock curproc ip) state footprint fun _ state' =>
      run.After flight flight state state' := by
  refine .gets_bind ?_
  split_ifs
  · exact .halt _
  · have hspec := hacc.move (.lock hlive none)
      (setLock_spec footprint hacc.accounted hlive none)
    exact .modify hspec.1 hspec.2

end

theorem iput_spec (hacc : run.At (kept + one ip) state) :
    run.Does (iput ip) state footprint fun _ state' =>
      run.After kept kept state state' := by
  have hlive : Live state ip := hacc.live (by simp)
  refine .gets_bind ?_
  split_ifs
  · exact .block hacc.stuck
  · have hfree : run.Does (whenever ((state.icache ip).valid ∧
        (state.icache ip).info.nlink = 0 ∧ (state.icache ip).ref = 1)
          (freeInode ip)) state footprint fun _ state' =>
            run.After kept (kept + one ip) state state' ∧
              ¬ ((state'.icache ip).valid ∧ (state'.icache ip).info.nlink = 0 ∧
                (state'.icache ip).ref = 1) := by
      rw [whenever]
      split_ifs with hlast
      · obtain ⟨hvalid, hunlinked, href⟩ := hlast
        have hnone : kept ip = 0 ∧ holds state ip = 0 := by
          have hcount := hacc.accounted.counted ip
          simp only [Pi.add_apply, one_self] at hcount
          split_ifs at hcount <;> omega
        have hspec := hacc.move (.free hlive hvalid hunlinked href hnone.2)
          (freed_spec footprint hacc.accounted hlive hvalid hnone.1 hnone.2)
        have hgone : ¬ ((State.freed state ip).icache ip).valid := by
          change ¬ ((State.writeThrough state ip _ false).icache ip).valid
          rw [icache_writeThrough_self]
          exact Bool.false_ne_true
        unfold Run.Does Ends
        rw [freeInode_eq]
        split_ifs
        · trivial
        · exact ⟨hspec.1, hspec.2, fun hvalid => hgone hvalid.1⟩
      · exact .pure ⟨hacc.after, hlast⟩
    refine hfree.bind fun _ state' _ hfreed => ?_
    obtain ⟨hafter, hkept⟩ := hfreed
    have hspec := hafter.now.move (.drop hkept)
      (dropRef_spec footprint hafter.now.accounted)
    exact .modify hspec.1 ⟨hspec.2.now, hafter.keeps.trans hspec.2.keeps⟩

theorem iunlockput_spec (hacc : run.At (kept + one ip) state) (curproc : Slot) :
    run.Does (iunlockput curproc ip) state footprint fun _ state' =>
      run.After kept kept state state' := by
  refine (iunlock_spec hacc curproc (hacc.live (by simp))).bind
    fun _ state' _ hafter => ?_
  refine (iput_spec hafter.now).mono (fun _ => id) ?_
  intro _ state'' _ hafter'
  exact ⟨hafter'.now, (hafter.keeps.weaken fun jp => by simp).trans hafter'.keeps⟩

theorem ialloc_spec (htree : run.tree) (hacc : run.At flight state)
    (hfresh : footprint.fresh = Set.univ) (type : FileType) :
    run.Does (ialloc type) state footprint fun ip state' =>
      run.After flight (flight + one ip) state state' ∧
        state.gen (state'.icache ip).inum < state'.gen (state'.icache ip).inum ∧
        ((recorded state' (state'.icache ip).inum).type = type ∨
          (recorded state' (state'.icache ip).inum).type = .free) := by
  refine .gets_bind ?_
  split
  · exact .halt _
  next inum hfound =>
    have hfree : (state.disk inum).type = .free := by
      have hfound := List.find?_some hfound
      simp only [decide_eq_true_eq] at hfound
      exact hfound.2
    refine logWrite_spec.bind fun _ state' _ hstate => ?_
    subst hstate
    obtain ⟨hframe, hafter⟩ := hacc.move (.allocate htree hfree type)
      (allocate_spec hacc.accounted hfree (hfresh ▸ Set.mem_univ inum) type)
    refine .modify_bind hframe ?_
    refine (iget_spec hafter.now inum).looking.mono (fun _ => id) ?_
    rintro ip state'' - ⟨hlooks, hget, hinum⟩
    rw [hinum]
    refine ⟨⟨hget.now, hafter.keeps.trans hget.keeps⟩, ?_, ?_⟩
    · refine lt_of_lt_of_le ?_ (hlooks.gen_le inum)
      simp [State.allocate]
    · have hsame := hlooks.same inum (hlooks.gen_eq inum (Set.notMem_empty inum))
      rw [← recorded_allocate_self hacc.accounted hfree type]
      exact hsame.type

end Cache

section Directories

variable {run : Run} {flight kept : Ip → ℕ} {state : State} {dp ip : Ip}
  {footprint : Footprint}

def lookup (state : State) (inum : ℕ) (name : List Byte) : Option ℕ :=
  match findDirent (state.data inum) name (offsets (state.data inum).length) with
  | some (some (_, found)) => some found
  | _ => none

/-- A name that is not found leaves the state as it is. -/
theorem dirlookup_spec (hacc : run.At flight state) (name : List Byte) :
    run.Does (dirlookup dp name) state footprint fun found state' =>
      run.After flight (flight + taken (found.map Prod.fst)) state state' ∧
        (state.icache dp).info.type = .dir ∧
        lookup state (state.icache dp).inum name =
          (found.map fun entry => (state'.icache entry.1).inum) ∧
        (found = none → state' = state) ∧
        findDirent (state.data (state.icache dp).inum) name
            (offsets (state.data (state.icache dp).inum).length) =
          some (found.map fun entry => (entry.2, (state'.icache entry.1).inum)) := by
  refine .gets_bind ?_
  split_ifs with htype
  · exact .halt _
  have hdir : (state.icache dp).info.type = .dir := not_not.1 htype
  refine .gets_bind ?_
  split
  · exact .halt _
  next hnone =>
    refine .pure ⟨⟨by simpa [taken] using hacc, .refl _ _⟩, hdir, ?_, fun _ => rfl,
      hnone⟩
    simp [lookup, hnone]
  next off inum hfound =>
    refine (iget_spec hacc inum).bind fun ip state' _ hget => ?_
    refine .pure ⟨hget.1, hdir, ?_, by simp, ?_⟩
    · simp [lookup, hfound, hget.2]
    · simp [hfound, hget.2]

theorem writei_spec (htree : run.tree) (hacc : run.At flight state)
    (hlive : Live state ip) (hvalid : (state.icache ip).valid)
    (hdata : (state.icache ip).inum ∈ footprint.data) {src : List Byte} {off : ℕ}
    (hbytes : off + src.length ≤ maxFileSize → Rewritten run state ip
      (splice (state.data (state.icache ip).inum) src off)) (answer : ℤ) :
    run.Does (writei ip src off answer) state footprint fun _ state' =>
      run.After flight flight state state' := by
  refine .gets_bind ?_
  split
  · exact .pure hacc.after
  refine .gets_bind ?_
  split
  · exact .pure hacc.after
  next hfits =>
  split
  · exact .pure hacc.after
  refine logWrite_spec.bind fun _ state' _ hstate => ?_
  subst hstate
  have hend : off + src.length ≤ maxFileSize := by omega
  obtain ⟨hframe, hafter⟩ := hacc.move (.write htree hlive hvalid (hbytes hend))
    (setData_spec hacc.accounted hdata _)
  refine .modify_bind hframe ?_
  have hgrow : run.Does (whenever (off + src.length >
      (state'.data (state'.icache ip).inum).length) (iupdate ip))
        (state'.setData (state'.icache ip).inum
          (splice (state'.data (state'.icache ip).inum) src off)) footprint
        fun _ state'' => run.After flight flight state' state'' := by
    rw [whenever]
    split_ifs
    · refine (iupdate_spec htree hafter.now hlive hvalid).mono (fun _ => id) ?_
      intro _ state'' _ hupdate
      exact ⟨hupdate.1.now, hafter.keeps.trans hupdate.1.keeps⟩
    · exact .pure hafter
  exact hgrow.bind fun _ _ _ hgrown => .pure hgrown

theorem dirlink_spec (htree : run.tree) (hacc : run.At flight state) (hflight : 1 ≤ flight dp)
    (hvalid : (state.icache dp).valid) (hdata : (state.icache dp).inum ∈ footprint.data)
    (hname : run.Names name) (inum : ℕ) :
    run.Does (dirlink dp name inum) state footprint fun _ state' =>
      run.After flight flight state state' := by
  refine (dirlookup_spec hacc name).bind fun found state' _ hfound => ?_
  obtain ⟨hafter, hdir, -, hsame, hentry⟩ := hfound
  cases found with
  | some entry =>
    refine (iput_spec hafter.now).bind fun _ state'' _ hput => ?_
    exact .pure ⟨hput.now, hafter.keeps.trans hput.keeps⟩
  | none =>
    cases hsame rfl
    refine .gets_bind (.gets_bind ?_)
    split
    · exact .halt _
    next off hunused =>
      refine (writei_spec htree hacc (hacc.live hflight) hvalid hdata
        (fun hfits => .link inum hname hdir hentry hunused
          (by rwa [length_direntBytes] at hfits)) 0).bind
        fun written state'' _ hwrite => ?_
      split_ifs
      · exact .pure hwrite
      · exact .halt _

end Directories

section Paths

variable {run : Run} {flight kept : Ip → ℕ} {state : State} {ip : Ip}
  {footprint : Footprint}

/-- Where the elements of a path lead from a directory, by the recorded types
and the bytes of the directories; with the name that is in the buffer then. -/
def walk (state : State) (parent : Bool) :
    List (List Byte) → ℕ → List Byte → Option ℕ × List Byte
  | [], inum, name => (if parent then none else some inum, name)
  | elem :: rest, inum, _ =>
    if (recorded state inum).type ≠ .dir then (none, elem)
    else if parent ∧ rest = [] then (some inum, elem)
    else
      match lookup state inum elem with
      | none => (none, elem)
      | some next => walk state parent rest next elem

def startIno (state : State) (curproc : Slot) (path : List Byte) : Option ℕ :=
  if path.head? = some slash then some rootIno
  else (state.cwd curproc).map fun ip => (state.icache ip).inum

/-- What a path stands for: the inode, or with `parent` the directory of the
last element, and the name buffer. -/
def resolve (state : State) (curproc : Slot) (parent : Bool)
    (path name : List Byte) : Option ℕ × List Byte :=
  match startIno state curproc path with
  | none => (none, name)
  | some inum => walk state parent (elements path) inum name

theorem walk_mem {elems : List (List Byte)} {start : ℕ}
    (hwalk : walk state true elems start stale = (some found, name)) : name ∈ elems := by
  induction elems generalizing start stale with
  | nil => simp [walk] at hwalk
  | cons elem rest ih =>
    rw [walk] at hwalk
    split_ifs at hwalk with hdir hlast
    · cases hwalk
    · cases hwalk
      exact .head _
    · split at hwalk
      · cases hwalk
      · exact .tail _ (ih hwalk)

/-- The name that a parent is found for is an element of the path. -/
theorem resolve_mem {curproc : Slot} {path : List Byte}
    (hresolve : resolve state curproc true path stale = (some found, name)) :
    name ∈ elements path := by
  rw [resolve] at hresolve
  split at hresolve
  · cases hresolve
  · exact walk_mem hresolve

/-- An inode that is still there has its type and its bytes. -/
theorem unchanged_of_keepsTree (hframe : Frame keepsTree state state')
    {inum : ℕ} (hthere : (recorded state' inum).type ≠ .free) :
    (recorded state' inum).type = (recorded state inum).type ∧
      state'.data inum = state.data inum := by
  have hsame := hframe.same inum (hframe.gen_eq inum (Set.notMem_empty inum))
  exact ⟨hsame.type.resolve_right hthere, (hsame.data (Set.notMem_empty inum)).resolve_right hthere⟩

/-- A loaded inode is there, and what was recorded before is in the cache. -/
theorem loaded_eq (hacc : Accounted flight state')
    (hframe : Frame keepsTree state state') (hlive : Live state' ip)
    (hvalid : (state'.icache ip).valid) :
    (state'.icache ip).info.type = (recorded state (state'.icache ip).inum).type ∧
      state'.data (state'.icache ip).inum = state.data (state'.icache ip).inum := by
  have hshown : recorded state' (state'.icache ip).inum = (state'.icache ip).info := by
    rw [recorded_of_live hacc hlive, shown, if_pos hvalid]
  have hthere := (hacc.typed ip hlive hvalid).2
  rw [← hshown] at hthere ⊢
  exact unchanged_of_keepsTree hframe hthere

/-- The loop follows the directories as they were recorded in a state from
which the tree was kept. -/
theorem namexLoop_spec (curproc : Slot) (parent : Bool) (elems : List (List Byte))
    (hstart : Frame keepsTree start state) (hacc : run.At (kept + one ip) state)
    (name : List Byte) :
    run.Does (namexLoop curproc parent elems ip name) state looks
      fun found state' =>
        run.After kept (kept + taken found.1) state state' ∧
          walk start parent elems (state.icache ip).inum name =
            (found.1.map fun jp => (state'.icache jp).inum, found.2) := by
  induction elems generalizing state ip name with
  | nil =>
    cases parent with
    | false =>
      refine .pure ⟨⟨hacc, .refl _ _⟩, ?_⟩
      simp [walk]
    | true =>
      refine (iput_spec hacc).bind fun _ state' _ hput => ?_
      refine .pure ⟨⟨by simpa [taken] using hput.now,
        hput.keeps⟩, ?_⟩
      simp [walk]
  | cons elem rest ih =>
    have hone : 1 ≤ (kept + one ip) ip := by simp
    refine (ilock_spec hacc curproc (hacc.live hone)).bind
      fun _ locked hframe hlock => ?_
    refine .gets_bind ?_
    have hkeep : ∀ jp, kept jp ≤ (kept + one ip) jp := by simp
    have hbefore := IsTrans.trans _ _ _ hstart (hframe.mono (looks_le keepsTree))
    obtain ⟨htype, hdata⟩ := loaded_eq hlock.1.now.accounted hbefore
      (hlock.1.now.live hone) hlock.2.1
    have hinum := hlock.2.2
    rw [hinum] at htype hdata
    split_ifs with hnotdir hlast
    · -- Not a directory.
      refine (iunlockput_spec hlock.1.now curproc).bind
        fun _ state' _ hput => ?_
      refine .pure ⟨⟨by simpa [taken] using hput.now,
        (hlock.1.keeps.weaken hkeep).trans hput.keeps⟩, ?_⟩
      rw [walk, ← htype, if_pos hnotdir]
      rfl
    · -- One level early for the parent.
      refine (iunlock_spec hlock.1.now curproc (hlock.1.now.live hone)).bind
        fun _ state' _ hunlock => ?_
      refine .pure ⟨⟨hunlock.now, (hlock.1.keeps.trans hunlock.keeps).weaken hkeep⟩, ?_⟩
      rw [walk, ← htype, if_neg hnotdir, if_pos hlast]
      simp [(hunlock.keeps ip hone).1, hinum]
    · refine (dirlookup_spec hlock.1.now elem).bind
        fun found looked hframe' hfound => ?_
      obtain ⟨hafter, -, hlookup, -, -⟩ := hfound
      have hsame : lookup start (state.icache ip).inum elem =
          found.map fun entry => (looked.icache entry.1).inum := by
        rw [← hlookup, hinum, lookup, lookup, hdata]
      rw [walk, ← htype, if_neg hnotdir, if_neg hlast, hsame]
      cases found with
      | none =>
        have hacc' : run.At (kept + one ip) looked := by
          simpa [taken] using hafter.now
        refine (iunlockput_spec hacc' curproc).bind
          fun _ state' _ hput => ?_
        refine .pure ⟨⟨by simpa [taken] using hput.now,
          ((hlock.1.keeps.trans hafter.keeps).weaken hkeep).trans hput.keeps⟩, rfl⟩
      | some entry =>
        have hacc' : run.At (kept + one entry.1 + one ip) looked := by
          rw [add_right_comm]
          exact hafter.now
        refine (iunlockput_spec hacc' curproc).bind
          fun _ state' hframe'' hput => ?_
        have hnext : (state'.icache entry.1).inum =
            (looked.icache entry.1).inum := (hput.keeps entry.1 (by simp)).1
        have hlooks : Frame looks locked state' := IsTrans.trans _ _ _ hframe' hframe''
        refine (ih (IsTrans.trans _ _ _ hbefore (hlooks.mono (looks_le keepsTree)))
          hput.now elem).mono
          (fun _ => id) ?_
        intro result last _ hresult
        rw [hnext] at hresult
        refine ⟨⟨hresult.1.now, ?_⟩, hresult.2⟩
        exact ((hlock.1.keeps.trans hafter.keeps).weaken hkeep).trans
          ((hput.keeps.weaken (by simp)).trans hresult.1.keeps)

theorem startInode_spec (curproc : Slot) (path : List Byte) (hacc : run.At flight state) :
    run.Does (startInode curproc path) state footprint fun ip state' =>
      run.After flight (flight + one ip) state state' ∧
        startIno state curproc path = some (state'.icache ip).inum := by
  rw [startInode, startIno]
  split_ifs
  · refine (iget_spec hacc rootIno).mono (fun _ => id) ?_
    intro ip state' _ hget
    exact ⟨hget.1, by rw [hget.2]⟩
  · refine .gets_bind ?_
    cases hcwd : state.cwd curproc with
    | none => exact .halt _
    | some ip =>
      refine (idup_spec hacc (hacc.accounted.live_of_cwd hcwd)).mono (fun _ => id) ?_
      rintro _ state' - ⟨rfl, hafter, hinum⟩
      exact ⟨hafter, by simp [hinum]⟩

/-- A path starts from the same inode as long as current directories are kept. -/
theorem startIno_eq (hinner : Inner start state) (curproc : Slot) (path : List Byte) :
    startIno state curproc path = startIno start curproc path := by
  rw [startIno, startIno, hinner.cwd]
  split_ifs
  · rfl
  · cases hcwd : start.cwd curproc with
    | none => rfl
    | some ip =>
      have hheld : 1 ≤ holds start ip := (one_le_holders hcwd).trans (Nat.le_add_left _ _)
      simp [(hinner.held ip hheld).1]

theorem namex_spec (curproc : Slot) (path : List Byte) (parent : Bool) (name : List Byte)
    (hstart : Frame keepsTree start state) (hacc : run.At flight state) :
    run.Does (namex curproc path parent name) state looks fun found state' =>
      run.After flight (flight + taken found.1) state state' ∧
        resolve start curproc parent path name =
          (found.1.map fun jp => (state'.icache jp).inum, found.2) := by
  refine (startInode_spec curproc path hacc).bind
    fun ip state' hframe hstarted => ?_
  refine (namexLoop_spec curproc parent (elements path)
    (IsTrans.trans _ _ _ hstart (hframe.mono (looks_le keepsTree)))
    hstarted.1.now name).mono (fun _ => id) ?_
  intro found last _ hfound
  refine ⟨⟨hfound.1.now, hstarted.1.keeps.trans hfound.1.keeps⟩, ?_⟩
  rw [resolve, ← startIno_eq (hstart.inner id), hstarted.2]
  exact hfound.2

theorem namei_spec (curproc : Slot) (path : List Byte) (hstart : Frame keepsTree start state)
    (hacc : run.At flight state) :
    run.Does (namei curproc path) state looks fun found state' =>
      run.After flight (flight + taken found) state state' ∧
        (resolve start curproc false path []).1 = found.map fun jp => (state'.icache jp).inum := by
  refine (namex_spec curproc path false [] hstart hacc).bind
    fun found state' _ hfound => ?_
  exact .pure ⟨hfound.1, by rw [hfound.2]⟩

end Paths

end Xv6Users.InodeSpecs
