import Xv6Users.Kernel.InodeAccount
import Xv6Users.Kernel.Syscalls

/-!
# Moves of the kernel

Whatever a system call does to the inode cache, the disk and their holders is a
sequence of a few moves, each under the condition that the code ensures at that
point.  A run fixes where the moves start and which of them may happen: whether
references may be forgotten, whether owners and modes may be set in the cache
only, and whether the tree may change.  An invariant of all moves is one of all
calls.
-/

namespace Xv6Users.Moves

open Contracts Holders Processes Inodes InodeAccount Syscalls

def Idle (proc : Proc) : Prop :=
  proc.state = .unused ∨ proc.state = .zombie
  deriving Decidable

/-- Files and processes that are not in use hold no inode. -/
structure Tidy (state : State) : Prop where
  files : ∀ fp, (state.ftable fp).ref ≤ 0 → fileInode (state.ftable fp) = none
  dirs : ∀ slot, Idle (state.table.proc slot) → state.cwd slot = none

/-- Where moves start and what they may do; `paths` are those that calls name. -/
structure Run where
  origin : State
  leaks : Prop
  rights : Prop
  tree : Prop
  paths : Set (List Byte)
  tidy : leaks ∨ Tidy origin

def Run.any (origin : State) : Run :=
  ⟨origin, True, True, True, Set.univ, .inl trivial⟩

def Run.Names (run : Run) (name : List Byte) : Prop :=
  name = dot ∨ name = dotdot ∨ ∃ path ∈ run.paths, name ∈ elements path

/-- A holder changes hands; the references in flight make up for it. -/
def Run.Passes (run : Run) (flight flight' : Ip → ℕ) (old new : Option Ip) : Prop :=
  ∀ ip, flight' ip + taken new ip ≤ flight ip + taken old ip ∧
    (run.leaks ∨ flight' ip + taken new ip = flight ip + taken old ip)

/-- New bytes of an inode: an entry is added, an entry is cleared, or an open
file is written. -/
inductive Rewritten (run : Run) (state : State) (ip : Ip) : List Byte → Prop where
  | link {name : List Byte} {off : ℕ} (inum : ℕ) (hname : run.Names name)
      (hdir : (state.icache ip).info.type = .dir)
      (habsent : findDirent (state.data (state.icache ip).inum) name
        (offsets (state.data (state.icache ip).inum).length) = some none)
      (hunused : findUnused (state.data (state.icache ip).inum)
        (offsets (state.data (state.icache ip).inum).length) = some off)
      (hfits : off + direntSize ≤ maxFileSize) :
      Rewritten run state ip
        (splice (state.data (state.icache ip).inum) (direntBytes inum name) off)
  | clear {name : List Byte} {off inum : ℕ}
      (hdir : (state.icache ip).info.type = .dir)
      (hfound : findDirent (state.data (state.icache ip).inum) name
        (offsets (state.data (state.icache ip).inum).length) = some (some (off, inum))) :
      Rewritten run state ip
        (splice (state.data (state.icache ip).inum) (List.replicate direntSize 0) off)
  | file {fp : Fp} (hfile : fileInode (state.ftable fp) = some ip)
      (hwritable : (state.ftable fp).writable) (src : List Byte) (off : ℕ) :
      Rewritten run state ip (splice (state.data (state.icache ip).inum) src off)

/-- What may become of an open file: it stays with its inode, with no more rights
than before, or it is opened for an inode that is no directory if it is writable. -/
structure Refiled (run : Run) (state : State) (file file' : File) : Prop where
  free : run.leaks ∨ (file'.ref ≤ 0 → fileInode file' = none)
  writes : ∀ ip, fileInode file' = some ip → file'.writable →
    (fileInode file = some ip ∧ file.writable) ∨
      (Live state ip ∧ (state.icache ip).valid ∧ (state.icache ip).info.type ≠ .dir)

/-- One move, with the references in flight before and after. -/
inductive Move (run : Run) : (Ip → ℕ) → State → (Ip → ℕ) → State → Prop where
  | log {flight : Ip → ℕ} {state : State} (outstanding : ℕ) :
      Move run flight state flight { state with outstanding }
  | lock {flight : Ip → ℕ} {state : State} {ip : Ip} (hlive : Live state ip)
      (lock : Option Slot) :
      Move run flight state flight (state.setInode ip fun inode => { inode with lock })
  | retain {flight : Ip → ℕ} {state : State} {ip : Ip} (hlive : Live state ip) :
      Move run flight state (flight + one ip)
        (state.setInode ip fun inode => { inode with ref := inode.ref + 1 })
  | recycle {flight : Ip → ℕ} {state : State} {ip : Ip} {inum : ℕ}
      (hempty : (state.icache ip).ref = 0)
      (hnone : ∀ jp, Live state jp → (state.icache jp).inum ≠ inum) :
      Move run flight state (flight + one ip)
        (state.setInode ip fun inode => { inode with inum, ref := 1, valid := false })
  | load {flight : Ip → ℕ} {state : State} {ip : Ip} (hlive : Live state ip)
      (hinvalid : (state.icache ip).valid = false)
      (htype : (state.disk (state.icache ip).inum).type ≠ .free) :
      Move run flight state flight (state.setInode ip fun inode =>
        { inode with info := state.disk (state.icache ip).inum, valid := true })
  | free {flight : Ip → ℕ} {state : State} {ip : Ip} (hlive : Live state ip)
      (hvalid : (state.icache ip).valid) (hunlinked : (state.icache ip).info.nlink = 0)
      (hlast : (state.icache ip).ref = 1) (hheld : holds state ip = 0) :
      Move run flight state flight (State.freed state ip)
  | drop {flight : Ip → ℕ} {state : State} {ip : Ip}
      (hkept : ¬ ((state.icache ip).valid ∧ (state.icache ip).info.nlink = 0 ∧
        (state.icache ip).ref = 1)) :
      Move run (flight + one ip) state flight
        (state.setInode ip fun inode => { inode with ref := inode.ref - 1 })
  | leak {flight flight' : Ip → ℕ} {state : State} (hleaks : run.leaks)
      (hle : ∀ ip, flight' ip ≤ flight ip) : Move run flight state flight' state
  | setRights {flight : Ip → ℕ} {state : State} {ip : Ip} {info : Dinode}
      (hleaks : run.leaks) (hrights : run.rights) (hvalid : (state.icache ip).valid)
      (hinfo : info = { (state.icache ip).info with
        uid := info.uid, gid := info.gid, mode := info.mode }) :
      Move run (flight + one ip) state flight (state.setInode ip fun inode => { inode with info })
  | store {flight : Ip → ℕ} {state : State} {ip : Ip} {info : Dinode}
      (htree : run.tree) (hlive : Live state ip) (hvalid : (state.icache ip).valid)
      (htype : info.type = (state.icache ip).info.type) :
      Move run flight state flight (State.writeThrough state ip info true)
  | allocate {flight : Ip → ℕ} {state : State} {inum : ℕ} (htree : run.tree)
      (hfree : (state.disk inum).type = .free) (type : FileType) :
      Move run flight state flight (state.allocate inum type)
  | write {flight : Ip → ℕ} {state : State} {ip : Ip} {bytes : List Byte}
      (htree : run.tree) (hlive : Live state ip) (hvalid : (state.icache ip).valid)
      (hbytes : Rewritten run state ip bytes) :
      Move run flight state flight (state.setData (state.icache ip).inum bytes)
  | setFile {flight flight' : Ip → ℕ} {state : State} {fp : Fp} {change : File → File}
      (hpass : run.Passes flight flight' (fileInode (state.ftable fp))
        (fileInode (change (state.ftable fp))))
      (hfile : Refiled run state (state.ftable fp) (change (state.ftable fp))) :
      Move run flight state flight' (State.setFile state fp change)
  | setOfile {flight : Ip → ℕ} {state : State} (curproc : Slot) (fd : Fd)
      (fp : Option Fp) :
      Move run flight state flight (State.setOfile state curproc fd fp)
  | setCwd {flight flight' : Ip → ℕ} {state : State} {curproc : Slot} {value : Option Ip}
      (hpass : run.Passes flight flight' (state.cwd curproc) value)
      (hbusy : run.leaks ∨ (Idle (state.table.proc curproc) → value = none)) :
      Move run flight state flight'
        { state with cwd := Function.update state.cwd curproc value }
  | setTable {flight : Ip → ℕ} {state : State} {table : Processes.Table}
      (hdirs : run.leaks ∨ ∀ slot, Idle (table.proc slot) → state.cwd slot = none) :
      Move run flight state flight { state with table }

/-- The states that a run passes through, each with its account. -/
inductive Run.Reaches (run : Run) : (Ip → ℕ) → State → Prop where
  | start : run.Reaches 0 run.origin
  | move {flight flight' : Ip → ℕ} {state state' : State}
      (hreaches : run.Reaches flight state) (hacc : Accounted flight state)
      (hmove : Move run flight state flight' state') : run.Reaches flight' state'

/-- An invariant of every move holds in every state of the run. -/
theorem Run.Reaches.invariant {run : Run} {inv : (Ip → ℕ) → State → Prop}
    (hstart : inv 0 run.origin)
    (hmove : ∀ {flight flight' state state'}, Accounted flight state →
      inv flight state → Move run flight state flight' state' → inv flight' state')
    {flight : Ip → ℕ} {state : State} (hreaches : run.Reaches flight state) : inv flight state := by
  induction hreaches with
  | start => exact hstart
  | move _ hacc hstep ih => exact hmove hacc ih hstep

section States

variable {run : Run} {flight flight' kept kept' : Ip → ℕ} {state state' : State}
  {footprint : Footprint}

/-- The run can be in this state, with these references in flight. -/
structure Run.At (run : Run) (flight : Ip → ℕ) (state : State) : Prop where
  accounted : Accounted flight state
  reaches : run.Reaches flight state

/-- References that are kept keep their slot, and a loaded copy its type. -/
def Stays (kept : Ip → ℕ) (state state' : State) : Prop :=
  ∀ ip, 1 ≤ kept ip → (state'.icache ip).inum = (state.icache ip).inum ∧
    ((state.icache ip).valid → (state'.icache ip).valid ∧
      (state'.icache ip).info.type = (state.icache ip).info.type)

theorem Stays.refl (kept : Ip → ℕ) (state : State) : Stays kept state state :=
  fun _ _ => ⟨rfl, fun hvalid => ⟨hvalid, rfl⟩⟩

theorem Stays.trans {middle : State} (hfirst : Stays kept state middle)
    (hlast : Stays kept middle state') : Stays kept state state' := by
  intro ip hkept
  refine ⟨(hlast ip hkept).1.trans (hfirst ip hkept).1, fun hvalid => ?_⟩
  obtain ⟨hvalid, htype⟩ := (hfirst ip hkept).2 hvalid
  obtain ⟨hvalid, htype'⟩ := (hlast ip hkept).2 hvalid
  exact ⟨hvalid, htype'.trans htype⟩

theorem Stays.weaken (hstays : Stays kept state state') (hle : ∀ ip, kept' ip ≤ kept ip) :
    Stays kept' state state' := fun ip hkept => hstays ip (hkept.trans (hle ip))

/-- `After` within a run. -/
structure Run.After (run : Run) (kept flight : Ip → ℕ) (state state' : State) :
    Prop where
  now : run.At flight state'
  keeps : Stays kept state state'

def Run.Stuck (run : Run) (state : State) : Prop :=
  ∃ flight, run.At flight state

theorem Run.start (run : Run) (hacc : Accounted 0 run.origin) : run.At 0 run.origin :=
  ⟨hacc, .start⟩

theorem Run.Stuck.accounted (hstuck : run.Stuck state) : Accounted 0 state := by
  obtain ⟨flight, hat⟩ := hstuck
  exact hat.accounted.none

theorem Run.At.stuck (hat : run.At flight state) : run.Stuck state :=
  ⟨flight, hat⟩

theorem Run.At.live (hat : run.At flight state) {ip : Ip} (hflight : 1 ≤ flight ip) :
    Live state ip := hat.accounted.live hflight

/-- Nothing has happened yet. -/
theorem Run.At.after (hat : run.At flight state) : run.After kept flight state state :=
  ⟨hat, .refl _ _⟩

/-- A copy that is loaded before and after a move keeps its type. -/
theorem Move.type_eq (hmove : Move run flight state flight' state') {jp : Ip}
    (hvalid : (state.icache jp).valid) (hvalid' : (state'.icache jp).valid) :
    (state'.icache jp).info.type = (state.icache jp).info.type := by
  cases hmove with
  | lock hlive lock => exact read_setInode (·.info.type) rfl jp
  | retain hlive => exact read_setInode (·.info.type) rfl jp
  | drop hkept => exact read_setInode (·.info.type) rfl jp
  | setRights hleaks hrights hloaded hinfo =>
    exact read_setInode (·.info.type) (by dsimp only; rw [hinfo]) jp
  | recycle hempty hnone =>
    rename_i ip inum
    by_cases hjp : jp = ip
    · subst hjp
      simp at hvalid'
    · rw [icache_setInode_of_ne hjp]
  | load hlive hinvalid htype =>
    rename_i ip
    by_cases hjp : jp = ip
    · subst hjp
      rw [hinvalid] at hvalid
      cases hvalid
    · rw [icache_setInode_of_ne hjp]
  | free hlive hloaded hunlinked hlast hheld =>
    rename_i ip
    by_cases hjp : jp = ip
    · subst hjp
      change ((State.writeThrough state jp _ false).icache jp).valid at hvalid'
      rw [icache_writeThrough_self] at hvalid'
      cases hvalid'
    · change ((State.writeThrough state ip _ false).icache jp).info.type = _
      rw [icache_writeThrough_of_ne hjp]
  | store htree hlive hloaded htype =>
    rename_i ip info
    by_cases hjp : jp = ip
    · subst hjp
      rw [icache_writeThrough_self, ← htype]
    · rw [icache_writeThrough_of_ne hjp]
  | _ => rfl

theorem Run.At.move (hat : run.At flight state) (hmove : Move run flight state flight' state')
    (hspec : Frame footprint state state' ∧ InodeAccount.After kept flight' state state') :
    Frame footprint state state' ∧ run.After kept flight' state state' :=
  ⟨hspec.1, ⟨hspec.2.accounted, .move hat.reaches hat.accounted hmove⟩, fun ip hkept =>
    have hkeeps := hspec.2.keeps ip hkept
    ⟨hkeeps.1, fun hvalid => ⟨hkeeps.2 hvalid, hmove.type_eq hvalid (hkeeps.2 hvalid)⟩⟩⟩

/-- References are forgotten. -/
theorem Run.At.weaken (hat : run.At flight state) (hleaks : run.leaks)
    (hle : ∀ ip, flight' ip ≤ flight ip) : run.At flight' state :=
  ⟨hat.accounted.weaken hle, .move hat.reaches hat.accounted (.leak hleaks hle)⟩

theorem Run.At.nothing (hat : run.At (flight + taken none) state) : run.At flight state := by
  exact hat

theorem Run.After.nothing (hafter : run.After kept (flight + taken none) state state') :
    run.At flight state' := hafter.now.nothing

end States

section Tidying

variable {run : Run} {flight flight' : Ip → ℕ} {state state' : State}

theorem Tidy.congr (htidy : Tidy state) (hftable : state'.ftable = state.ftable)
    (hcwd : state'.cwd = state.cwd) (htable : state'.table = state.table) : Tidy state' where
  files fp := by
    rw [hftable]
    exact htidy.files fp
  dirs slot := by
    rw [htable, hcwd]
    exact htidy.dirs slot

theorem Move.tidy (hmove : Move run flight state flight' state')
    (htidy : run.leaks ∨ Tidy state) : run.leaks ∨ Tidy state' := by
  by_cases hleaks : run.leaks
  · exact Or.inl hleaks
  have htidy := htidy.resolve_left hleaks
  apply Or.inr
  cases hmove with
  | setFile hpass hfile =>
    refine ⟨fun fp => ?_, htidy.dirs⟩
    rename_i changed change
    by_cases hfp : fp = changed
    · subst hfp
      simpa [State.setFile] using hfile.free.resolve_left hleaks
    · simpa [State.setFile, hfp] using htidy.files fp
  | setCwd hpass hbusy =>
    refine ⟨htidy.files, fun slot => ?_⟩
    rename_i curproc value
    by_cases hslot : slot = curproc
    · subst hslot
      simpa using hbusy.resolve_left hleaks
    · simpa [hslot] using htidy.dirs slot
  | setTable hdirs => exact ⟨htidy.files, hdirs.resolve_left hleaks⟩
  | _ => exact htidy.congr rfl rfl rfl

theorem Run.At.tidy (hat : run.At flight state) : run.leaks ∨ Tidy state :=
  hat.reaches.invariant run.tidy fun _ htidy hmove => hmove.tidy htidy

end Tidying

section Contracts

variable {run : Run} {α : Type} {op : K α} {state start : State}
  {footprint : Footprint} {post : α → State → Prop}

/-- The contract of an operation: its footprint, and that the run goes on also
where it blocks. -/
abbrev Run.Does (run : Run) (op : K α) (state : State) (footprint : Footprint)
    (post : α → State → Prop) : Prop := Ends op state (Frame footprint) run.Stuck post

theorem Run.Does.framed (hdoes : run.Does op state footprint post) :
    run.Does op state footprint fun result state' =>
      Frame footprint state state' ∧ post result state' :=
  hdoes.mono (fun _ => id) fun _ _ => And.intro

/-- What only looks stays within every footprint. -/
theorem Run.Does.looking (hdoes : run.Does op state looks post) :
    run.Does op state footprint fun result state' =>
      Frame looks state state' ∧ post result state' :=
  hdoes.mono (fun _ => .mono (looks_le footprint)) fun _ _ => And.intro

/-- What stays within the inode layer. -/
theorem Run.Does.inner (hdoes : run.Does op state { footprint with outer := False } post) :
    run.Does op state footprint fun result state' =>
      Inner state state' ∧ post result state' :=
  hdoes.mono (fun _ => .mono ⟨le_rfl, le_rfl, le_rfl, le_rfl, False.elim⟩)
    fun _ _ hframe => And.intro (hframe.inner id)

/-- The contract of an operation on inodes of which some are new since `start`. -/
abbrev Run.DoesSince (run : Run) (start : State) (op : K α) (state : State)
    (footprint : Footprint) (post : α → State → Prop) : Prop :=
  Ends op state (Since footprint start) run.Stuck post

theorem Run.Does.since (hdoes : run.Does op state footprint post) (start : State) :
    run.DoesSince start op state footprint post :=
  hdoes.mono (fun _ hframe => hframe.since start) fun _ _ _ => id

/-- What happens to a new inode counts for nothing. -/
theorem Run.Does.since_new {new : Set ℕ}
    (hdoes : run.Does op state ⟨∅, new, new, new, footprint.outer⟩ post)
    (hnew : ∀ inum ∈ new, start.gen inum < state.gen inum) :
    run.DoesSince start op state footprint post :=
  hdoes.mono (fun _ hframe => hframe.since_fresh hnew) fun _ _ _ => id

theorem Run.DoesSince.does (hdoes : run.DoesSince state op state footprint post) :
    run.Does op state footprint post :=
  hdoes.mono (fun _ hsince => hsince (Std.Refl.refl state)) fun _ _ _ => id

end Contracts

end Xv6Users.Moves
