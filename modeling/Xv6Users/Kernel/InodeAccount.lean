import Xv6Users.Core.Holders
import Xv6Users.Kernel.Inodes

/-!
# The account of the inode cache

The owner and mode of an inode are those of its cached copy once that is
loaded, and those on disk before.  A cached copy that differs from the disk is
lost when its slot is recycled, so the reference counts matter: they cover the
open files, the current directories, the references in flight, and one more for
every copy that differs.  A footprint says which inodes an operation may
allocate or change.
-/

namespace Xv6Users.InodeAccount

open Contracts Holders Processes Inodes Function Set

variable {jp : Ip} {state' : State} {inum : ℕ}

/-! ## Recorded metadata and footprints -/

/-- The metadata of an inode as the kernel knows it. -/
def recorded (state : State) (inum : ℕ) : Dinode :=
  match state.cached inum with
  | some ip =>
    if (state.icache ip).valid then (state.icache ip).info
    else state.disk inum
  | none => state.disk inum

def rights (dinode : Dinode) : FileType × ℤ × ℤ × UInt32 :=
  (dinode.type, dinode.uid, dinode.gid, dinode.mode)

/-- The inodes that an operation may allocate, and those of which it may change
the bytes, the owner or the mode; `outer` when it may also change the open files,
the current directories and the processes. -/
structure Footprint where
  fresh : Set ℕ
  data : Set ℕ
  owner : Set ℕ
  mode : Set ℕ
  outer : Prop

def fileInode (file : File) : Option Ip :=
  if file.type = .inode then file.ip else none

/-- The open files and current directories that point to a slot. -/
def holds (state : State) (ip : Ip) : ℕ :=
  holders (fun fp => fileInode (state.ftable fp)) ip + holders state.cwd ip

/-- What a footprint leaves alone in an inode that exists before and after. -/
structure SameInode (footprint : Footprint) (state state' : State) (inum : ℕ) :
    Prop where
  type : (recorded state' inum).type = (recorded state inum).type ∨
    (recorded state' inum).type = .free
  data : inum ∉ footprint.data → state'.data inum = state.data inum ∨
    (recorded state' inum).type = .free
  owner : inum ∉ footprint.owner → (recorded state' inum).uid = (recorded state inum).uid ∧
      (recorded state' inum).gid = (recorded state inum).gid
  mode : inum ∉ footprint.mode → (recorded state' inum).mode = (recorded state inum).mode

/-- Files, directories and processes are the same, and so are the slots they hold. -/
structure Inner (state state' : State) : Prop where
  ftable : state'.ftable = state.ftable
  ofile : state'.ofile = state.ofile
  cwd : state'.cwd = state.cwd
  table : state'.table = state.table
  held : ∀ ip, 1 ≤ holds state ip → (state'.icache ip).inum = (state.icache ip).inum ∧
      ((state.icache ip).valid → (state'.icache ip).valid)

theorem Inner.refl (state : State) : Inner state state :=
  ⟨rfl, rfl, rfl, rfl, fun _ _ => ⟨rfl, id⟩⟩

variable {state : State} {flight flight' kept : Ip → ℕ} {footprint : Footprint} {ip : Ip}

theorem Inner.holds_eq (hinner : Inner state state') : holds state' = holds state := by
  funext ip
  rw [holds, holds, hinner.ftable, hinner.cwd]

theorem Inner.trans {first middle last : State} (hfirst : Inner first middle)
    (hlast : Inner middle last) : Inner first last where
  ftable := hlast.ftable.trans hfirst.ftable
  ofile := hlast.ofile.trans hfirst.ofile
  cwd := hlast.cwd.trans hfirst.cwd
  table := hlast.table.trans hfirst.table
  held ip hip := by
    have hold := hfirst.held ip hip
    have hnew := hlast.held ip (by rwa [hfirst.holds_eq])
    exact ⟨hnew.1.trans hold.1, fun hvalid => hnew.2 (hold.2 hvalid)⟩

structure Frame (footprint : Footprint) (state state' : State) : Prop where
  gen_le : ∀ inum, state.gen inum ≤ state'.gen inum
  gen_eq : ∀ inum, inum ∉ footprint.fresh → state'.gen inum = state.gen inum
  same : ∀ inum, state'.gen inum = state.gen inum → SameInode footprint state state' inum
  inner : ¬ footprint.outer → Inner state state'

theorem SameInode.trans {first middle last : State} (hfirst : SameInode footprint first middle inum)
    (hlast : SameInode footprint middle last inum) : SameInode footprint first last inum where
  type := by
    rcases hlast.type with htype | htype
    · rw [htype]
      exact hfirst.type
    · exact .inr htype
  data hnot := by
    rcases hlast.data hnot with hdata | hfree
    · rcases hfirst.data hnot with hdata' | hfree
      · exact .inl (hdata.trans hdata')
      · rcases hlast.type with htype | htype
        · exact .inr (htype.trans hfree)
        · exact .inr htype
    · exact .inr hfree
  owner hnot :=
    ⟨(hlast.owner hnot).1.trans (hfirst.owner hnot).1,
      (hlast.owner hnot).2.trans (hfirst.owner hnot).2⟩
  mode hnot := (hlast.mode hnot).trans (hfirst.mode hnot)

instance (footprint : Footprint) : Std.Refl (Frame footprint) where
  refl state := ⟨fun _ => le_rfl, fun _ _ => rfl, fun _ _ =>
    ⟨.inl rfl, fun _ => .inl rfl, fun _ => ⟨rfl, rfl⟩, fun _ => rfl⟩,
    fun _ => .refl state⟩

instance (footprint : Footprint) : IsTrans State (Frame footprint) where
  trans first middle last hfirst hlast :=
    { gen_le := fun inum => (hfirst.gen_le inum).trans (hlast.gen_le inum)
      gen_eq := fun inum hnot =>
        (hlast.gen_eq inum hnot).trans (hfirst.gen_eq inum hnot)
      same := fun inum hgen => by
        have hle := hfirst.gen_le inum
        have hle' := hlast.gen_le inum
        exact (hfirst.same inum (by omega)).trans (hlast.same inum (by omega))
      inner := fun houter => (hfirst.inner houter).trans (hlast.inner houter) }

def looks : Footprint := ⟨∅, ∅, ∅, ∅, False⟩

/-- An operation that may change rights but not the tree. -/
def keepsTree : Footprint := ⟨∅, ∅, univ, univ, False⟩

instance : LE Footprint where
  le left right := left.fresh ⊆ right.fresh ∧ left.data ⊆ right.data ∧
    left.owner ⊆ right.owner ∧ left.mode ⊆ right.mode ∧ (left.outer → right.outer)

theorem looks_le (footprint : Footprint) : looks ≤ footprint :=
  ⟨empty_subset _, empty_subset _, empty_subset _, empty_subset _, False.elim⟩

theorem Frame.mono {left right : Footprint} (hle : left ≤ right)
    (hframe : Frame left state state') : Frame right state state' where
  gen_le := hframe.gen_le
  gen_eq inum hnot := hframe.gen_eq inum fun hmem => hnot (hle.1 hmem)
  same inum hgen :=
    { type := (hframe.same inum hgen).type
      data := fun hnot =>
        (hframe.same inum hgen).data fun hmem => hnot (hle.2.1 hmem)
      owner := fun hnot =>
        (hframe.same inum hgen).owner fun hmem => hnot (hle.2.2.1 hmem)
      mode := fun hnot =>
        (hframe.same inum hgen).mode fun hmem => hnot (hle.2.2.2.1 hmem) }
  inner houter := hframe.inner fun hmem => houter (hle.2.2.2.2 hmem)

/-- What a step keeps of a state that lies further back. -/
def Since (footprint : Footprint) (start state state' : State) : Prop :=
  Frame footprint start state → Frame footprint start state'

instance (footprint : Footprint) (start : State) : Std.Refl (Since footprint start) where
  refl _ := id

instance (footprint : Footprint) (start : State) : IsTrans State (Since footprint start) where
  trans _ _ _ hfirst hlast := hlast ∘ hfirst

theorem Frame.since
    (hframe : Frame footprint state state') (start : State) : Since footprint start state state' :=
  fun hbefore => IsTrans.trans _ _ _ hbefore hframe

/-- Inodes that were allocated in between can change freely. -/
theorem Frame.since_fresh {start : State} {new : Set ℕ}
    (hframe : Frame ⟨∅, new, new, new, footprint.outer⟩ state state')
    (hnew : ∀ inum ∈ new, start.gen inum < state.gen inum) :
    Since footprint start state state' := by
  intro hbefore
  refine ⟨fun inum => (hbefore.gen_le inum).trans (hframe.gen_le inum),
    fun inum hnot => ?_, fun inum hgen => ?_,
    fun houter => (hbefore.inner houter).trans (hframe.inner houter)⟩
  · exact (hframe.gen_eq inum (notMem_empty inum)).trans (hbefore.gen_eq inum hnot)
  · have hsame := hframe.gen_eq inum (notMem_empty inum)
    have hnot : inum ∉ new := fun hmem => by
      have := hnew inum hmem
      omega
    have hstep := hframe.same inum hsame
    exact (hbefore.same inum (hsame.symm.trans hgen)).trans
      ⟨hstep.type, fun _ => hstep.data hnot, fun _ => hstep.owner hnot,
        fun _ => hstep.mode hnot⟩

/-- Operations that change no metadata and no bytes. -/
theorem frame_of_rights (hgen : state'.gen = state.gen) (hdata : state'.data = state.data)
    (hrights : ∀ inum, rights (recorded state' inum) = rights (recorded state inum))
    (hinner : Inner state state') : Frame footprint state state' where
  gen_le inum := by rw [hgen]
  gen_eq inum _ := by rw [hgen]
  same inum _ := by
    have hsame := hrights inum
    simp only [rights, Prod.mk.injEq] at hsame
    obtain ⟨htype, huid, hgid, hmode⟩ := hsame
    exact ⟨.inl htype, fun _ => .inl (by rw [hdata]),
      fun _ => ⟨huid, hgid⟩, fun _ => hmode⟩
  inner _ := hinner

/-! ## The account of references -/

def Live (state : State) (ip : Ip) : Prop := 0 < (state.icache ip).ref

/-- A loaded copy with another owner or mode than the disk. -/
def Dirty (state : State) (ip : Ip) : Prop :=
  Live state ip ∧ (state.icache ip).valid ∧ rights (state.icache ip).info ≠
      rights (state.disk (state.icache ip).inum)

instance (state : State) (ip : Ip) : Decidable (Dirty state ip) :=
  inferInstanceAs (Decidable (_ < _ ∧ _ ∧ _))

def one (ip : Ip) : Ip → ℕ :=
  Pi.single ip 1

@[simp]
theorem one_self (ip : Ip) : one ip ip = 1 :=
  Pi.single_eq_same ..

@[simp]
theorem one_of_ne (hne : jp ≠ ip) : one ip jp = 0 :=
  Pi.single_eq_of_ne hne ..

/-- The references that come with a result. -/
def taken : Option Ip → Ip → ℕ
  | none => 0
  | some ip => one ip

/-- `flight` counts the references of the running operation. -/
structure Accounted (flight : Ip → ℕ) (state : State) : Prop where
  unique : ∀ ip jp, Live state ip → Live state jp →
    (state.icache ip).inum = (state.icache jp).inum → ip = jp
  typed : ∀ ip, Live state ip → (state.icache ip).valid →
    (state.icache ip).info.type = (state.disk (state.icache ip).inum).type ∧
      (state.icache ip).info.type ≠ .free
  counted : ∀ ip, ((holds state ip + flight ip : ℕ) : ℤ) +
    (if Dirty state ip then 1 else 0) ≤ (state.icache ip).ref

theorem Accounted.weaken (hacc : Accounted flight state) (hle : ∀ ip, flight' ip ≤ flight ip) :
    Accounted flight' state where
  unique := hacc.unique
  typed := hacc.typed
  counted ip := by
    have hcount := hacc.counted ip
    have := hle ip
    omega

theorem Accounted.none
    (hacc : Accounted flight state) : Accounted 0 state := hacc.weaken fun _ => Nat.zero_le _

theorem Accounted.live
    (hacc : Accounted flight state) (hflight : 1 ≤ flight ip) : Live state ip := by
  have hcount := hacc.counted ip
  unfold Live
  split_ifs at hcount <;> omega

theorem Accounted.live_of_holds
    (hacc : Accounted flight state) (hholds : 1 ≤ holds state ip) : Live state ip := by
  have hcount := hacc.counted ip
  unfold Live
  split_ifs at hcount <;> omega

theorem Accounted.live_of_cwd (hacc : Accounted flight state) {curproc : Slot}
    (hcwd : state.cwd curproc = some ip) : Live state ip :=
  hacc.live_of_holds ((one_le_holders hcwd).trans (Nat.le_add_left _ _))

theorem cached_eq_some (hcached : state.cached inum = some ip) :
    Live state ip ∧ (state.icache ip).inum = inum := by
  simpa [Live] using List.find?_some hcached

theorem cached_of_live (hacc : Accounted flight state) (hlive : Live state ip) :
    state.cached (state.icache ip).inum = some ip := by
  cases hcached : state.cached (state.icache ip).inum with
  | none =>
    have hnone := List.find?_eq_none.1 hcached ip (List.mem_finRange ip)
    simp only [decide_eq_true_eq, and_true] at hnone
    exact absurd hlive hnone
  | some jp =>
    obtain ⟨hjp, hinum⟩ := cached_eq_some hcached
    rw [hacc.unique ip jp hlive hjp hinum.symm]

theorem cached_eq_none :
    state.cached inum = none ↔ ∀ ip, Live state ip → (state.icache ip).inum ≠ inum := by
  simp [State.cached, List.find?_eq_none, ips, Live]

def shown (state : State) (ip : Ip) : Dinode :=
  if (state.icache ip).valid then (state.icache ip).info
  else state.disk (state.icache ip).inum

theorem recorded_of_live (hacc : Accounted flight state) (hlive : Live state ip) :
    recorded state (state.icache ip).inum = shown state ip := by
  rw [recorded, cached_of_live hacc hlive]
  rfl

theorem recorded_of_not_cached (hnone : ∀ ip, Live state ip → (state.icache ip).inum ≠ inum) :
    recorded state inum = state.disk inum := by
  rw [recorded, cached_eq_none.2 hnone]

/-- A loaded copy has the type that is on disk. -/
theorem recorded_type (hacc : Accounted flight state)
    (inum : ℕ) : (recorded state inum).type = (state.disk inum).type := by
  rw [recorded]
  split
  next ip hcached =>
    obtain ⟨hlive, rfl⟩ := cached_eq_some hcached
    split_ifs with hvalid
    · exact (hacc.typed ip hlive hvalid).1
    · rfl
  · rfl

/-- When one slot changes, the recorded rights stay the same if the slot stands
for what was recorded and gives up nothing. -/
theorem rights_of_slot (hacc : Accounted flight state)
    (hacc' : Accounted flight' state') (hdisk : state'.disk = state.disk)
    (hothers : ∀ jp, jp ≠ ip → state'.icache jp = state.icache jp) (hnew : Live state' ip →
      rights (shown state' ip) = rights (recorded state (state'.icache ip).inum))
    (hold : Live state ip → ¬ Live state' ip →
      rights (recorded state (state.icache ip).inum) = rights (state.disk (state.icache ip).inum))
    (hinum : Live state ip → (state'.icache ip).inum = (state.icache ip).inum) (inum : ℕ) :
    rights (recorded state' inum) = rights (recorded state inum) := by
  have hlive : ∀ jp, jp ≠ ip → (Live state' jp ↔ Live state jp) := by
    intro jp hjp
    rw [Live, Live, hothers jp hjp]
  by_cases hcached : ∃ jp, Live state' jp ∧ (state'.icache jp).inum = inum
  · obtain ⟨jp, hjp, rfl⟩ := hcached
    rw [recorded_of_live hacc' hjp]
    by_cases hsame : jp = ip
    · subst hsame
      exact hnew hjp
    · rw [hothers jp hsame, recorded_of_live hacc ((hlive jp hsame).1 hjp)]
      simp only [shown, hothers jp hsame, hdisk]
  · push Not at hcached
    rw [recorded_of_not_cached hcached, hdisk]
    by_cases hbefore : ∃ jp, Live state jp ∧ (state.icache jp).inum = inum
    · obtain ⟨jp, hjp, rfl⟩ := hbefore
      have hsame : jp = ip := by
        by_contra hne
        exact hcached jp ((hlive jp hne).2 hjp) (by rw [hothers jp hne])
      subst hsame
      exact (hold hjp fun hlive' => hcached jp hlive' (hinum hjp)).symm
    · push Not at hbefore
      rw [recorded_of_not_cached hbefore]

section Slots

variable {flight flight' : Ip → ℕ} {state : State} {ip : Ip}
  {change : Inode → Inode}

@[simp]
theorem icache_setInode_self : (state.setInode ip change).icache ip = change (state.icache ip) :=
  update_self ..

theorem icache_setInode_of_ne (hne : jp ≠ ip) :
    (state.setInode ip change).icache jp = state.icache jp := update_of_ne hne ..

/-- What a change leaves alone in its slot it leaves alone in every slot. -/
theorem read_setInode {α : Type} (read : Inode → α)
    (hsame : read (change (state.icache ip)) = read (state.icache ip)) (jp : Ip) :
    read ((state.setInode ip change).icache jp) = read (state.icache jp) := by
  by_cases hjp : jp = ip
  · subst hjp
    rw [icache_setInode_self, hsame]
  · rw [icache_setInode_of_ne hjp]

@[simp]
theorem disk_setInode : (state.setInode ip change).disk = state.disk := rfl

@[simp]
theorem holds_setInode : holds (state.setInode ip change) = holds state := rfl

/-- A held slot may change but for its number and its being loaded. -/
theorem inner_setInode (hheld : 1 ≤ holds state ip →
      (change (state.icache ip)).inum = (state.icache ip).inum ∧
        ((state.icache ip).valid → (change (state.icache ip)).valid)) :
    Inner state (state.setInode ip change) where
  ftable := rfl
  ofile := rfl
  cwd := rfl
  table := rfl
  held jp hjp := by
    by_cases hsame : jp = ip
    · subst hsame
      rw [icache_setInode_self]
      exact hheld hjp
    · rw [icache_setInode_of_ne hsame]
      exact ⟨rfl, id⟩

theorem live_setInode_of_ne (hne : jp ≠ ip) :
    Live (state.setInode ip change) jp ↔ Live state jp := by
  rw [Live, Live, icache_setInode_of_ne hne]

theorem dirty_setInode_of_ne (hne : jp ≠ ip) :
    Dirty (state.setInode ip change) jp ↔ Dirty state jp := by
  simp only [Dirty, Live, icache_setInode_of_ne hne, disk_setInode]

/-- The account after a change of one slot. -/
theorem Accounted.setInode (hacc : Accounted flight state)
    (hunique : 0 < (change (state.icache ip)).ref → ∀ jp, jp ≠ ip →
      Live state jp → (state.icache jp).inum ≠ (change (state.icache ip)).inum)
    (htyped : 0 < (change (state.icache ip)).ref → (change (state.icache ip)).valid →
      (change (state.icache ip)).info.type = (state.disk (change (state.icache ip)).inum).type ∧
        (change (state.icache ip)).info.type ≠ .free)
    (hcounted : ((holds state ip + flight' ip : ℕ) : ℤ) +
      (if Dirty (state.setInode ip change) ip then 1 else 0) ≤ (change (state.icache ip)).ref)
    (hothers : ∀ jp, jp ≠ ip → flight' jp ≤ flight jp) :
    Accounted flight' (state.setInode ip change) where
  unique left right hleft hright hinum := by
    by_contra hne
    by_cases hl : left = ip
    · subst hl
      have hr : right ≠ left := fun h => hne h.symm
      rw [icache_setInode_self, icache_setInode_of_ne hr] at hinum
      rw [Live, icache_setInode_self] at hleft
      exact hunique hleft right hr ((live_setInode_of_ne hr).1 hright) hinum.symm
    · rw [icache_setInode_of_ne hl] at hinum
      have hbefore := (live_setInode_of_ne hl).1 hleft
      by_cases hr : right = ip
      · rw [hr, icache_setInode_self] at hinum
        rw [hr, Live, icache_setInode_self] at hright
        exact hunique hright left hl hbefore hinum
      · rw [icache_setInode_of_ne hr] at hinum
        exact hne (hacc.unique left right hbefore ((live_setInode_of_ne hr).1 hright) hinum)
  typed jp hjp hvalid := by
    by_cases hsame : jp = ip
    · subst hsame
      rw [Live, icache_setInode_self] at hjp
      rw [icache_setInode_self] at hvalid ⊢
      exact htyped hjp hvalid
    · rw [icache_setInode_of_ne hsame] at hvalid ⊢
      exact hacc.typed jp ((live_setInode_of_ne hsame).1 hjp) hvalid
  counted jp := by
    by_cases hsame : jp = ip
    · subst hsame
      rw [icache_setInode_self]
      exact hcounted
    · rw [icache_setInode_of_ne hsame, holds_setInode]
      have hcount := hacc.counted jp
      have hle := hothers jp hsame
      simp only [dirty_setInode_of_ne hsame]
      omega

/-- A live slot changes but stands for the same rights. -/
theorem frame_setInode (hacc : Accounted flight state)
    (hacc' : Accounted flight' (state.setInode ip change)) (hlive : Live state ip)
    (hinum : (change (state.icache ip)).inum = (state.icache ip).inum)
    (hvalid : (state.icache ip).valid → (change (state.icache ip)).valid)
    (hshown : rights (shown (state.setInode ip change) ip) = rights (shown state ip))
    (hgone : ¬ 0 < (change (state.icache ip)).ref → rights (shown state ip) =
      rights (state.disk (state.icache ip).inum)) :
    Frame footprint state (state.setInode ip change) := by
  refine frame_of_rights rfl rfl (rights_of_slot hacc hacc' rfl
    (fun jp hjp => icache_setInode_of_ne hjp) (fun _ => ?_) (fun _ hdead => ?_)
    fun _ => by rw [icache_setInode_self, hinum])
    (inner_setInode fun _ => ⟨hinum, hvalid⟩)
  · rw [hshown, icache_setInode_self, hinum, recorded_of_live hacc hlive]
  · rw [recorded_of_live hacc hlive]
    rw [Live, icache_setInode_self] at hdead
    exact hgone hdead

def Keeps (flight : Ip → ℕ) (state state' : State) : Prop :=
  ∀ ip, 1 ≤ flight ip → (state'.icache ip).inum = (state.icache ip).inum ∧
    ((state.icache ip).valid → (state'.icache ip).valid)

/-- The state after an operation that got by with the references `flight`;
`kept` are the references of its caller. -/
structure After (kept flight : Ip → ℕ) (state state' : State) : Prop where
  accounted : Accounted flight state'
  keeps : Keeps kept state state'

theorem Keeps.refl (flight : Ip → ℕ) (state : State) : Keeps flight state state :=
  fun _ _ => ⟨rfl, id⟩

/-- A change that leaves number and validity of a slot alone. -/
theorem keeps_setInode (hinum : (change (state.icache ip)).inum = (state.icache ip).inum)
    (hvalid : (state.icache ip).valid → (change (state.icache ip)).valid) :
    Keeps kept state (state.setInode ip change) := by
  intro jp _
  by_cases hsame : jp = ip
  · subst hsame
    rw [icache_setInode_self]
    exact ⟨hinum, hvalid⟩
  · rw [icache_setInode_of_ne hsame]
    exact ⟨rfl, id⟩

/-- A live slot stays live, keeps its number and stands for the same rights. -/
theorem slot_spec (footprint : Footprint) (hacc : Accounted flight state) (hlive : Live state ip)
    (hinum : (change (state.icache ip)).inum = (state.icache ip).inum)
    (hvalid : (state.icache ip).valid → (change (state.icache ip)).valid)
    (htyped : (change (state.icache ip)).valid → (change (state.icache ip)).info.type =
          (state.disk (state.icache ip).inum).type ∧ (change (state.icache ip)).info.type ≠ .free)
    (hshown : rights (shown (state.setInode ip change) ip) = rights (shown state ip))
    (hlive' : 0 < (change (state.icache ip)).ref)
    (hcounted : ((holds state ip + flight' ip : ℕ) : ℤ) +
      (if Dirty (state.setInode ip change) ip then 1 else 0) ≤ (change (state.icache ip)).ref)
    (hothers : ∀ jp, jp ≠ ip → flight' jp ≤ flight jp) :
    Frame footprint state (state.setInode ip change) ∧
      After flight flight' state (state.setInode ip change) := by
  have hacc' : Accounted flight' (state.setInode ip change) := by
    refine hacc.setInode (fun _ jp hjp hjlive hsame => ?_)
      (fun _ hvalid' => ?_) hcounted hothers
    · exact hjp (hacc.unique jp ip hjlive hlive (hsame.trans hinum))
    · rw [hinum]
      exact htyped hvalid'
  exact ⟨frame_setInode hacc hacc' hlive hinum hvalid hshown
    fun hdead => absurd hlive' hdead, hacc', keeps_setInode hinum hvalid⟩

/-- A change of the lock. -/
theorem setLock_spec (footprint : Footprint) (hacc : Accounted flight state) (hlive : Live state ip)
    (lock : Option Slot) :
    Frame footprint state (state.setInode ip fun inode => { inode with lock }) ∧
      After flight flight state (state.setInode ip fun inode => { inode with lock }) := by
  have hdirty : Dirty (state.setInode ip fun inode => { inode with lock }) ip ↔
      Dirty state ip := by
    simp only [Dirty, Live, icache_setInode_self, disk_setInode]
  refine slot_spec footprint hacc hlive rfl id (hacc.typed ip hlive) ?_ hlive ?_
    fun _ _ => le_rfl
  · simp only [shown, icache_setInode_self, disk_setInode]
  · simp only [hdirty]
    exact hacc.counted ip

/-- One more reference. -/
theorem addRef_spec (footprint : Footprint)
    (hacc : Accounted flight state) (hlive : Live state ip) :
    Frame footprint state (state.setInode ip fun inode => { inode with ref := inode.ref + 1 }) ∧
      After flight (flight + one ip) state
        (state.setInode ip fun inode => { inode with ref := inode.ref + 1 }) := by
  have hpos : 0 < (state.icache ip).ref := hlive
  have hdirty : Dirty (state.setInode ip fun inode =>
      { inode with ref := inode.ref + 1 }) ip ↔ Dirty state ip := by
    simp only [Dirty, Live, icache_setInode_self, disk_setInode, hpos]
    simp only [show 0 < (state.icache ip).ref + 1 by omega]
  refine slot_spec footprint hacc hlive rfl id (hacc.typed ip hlive) ?_ (by simp; omega)
    ?_ fun jp hjp => by simp [hjp]
  · simp only [shown, icache_setInode_self, disk_setInode]
  · have hcount := hacc.counted ip
    simp only [hdirty, Pi.add_apply, one_self]
    omega

/-- The inode is read from disk. -/
theorem load_spec (footprint : Footprint) (hacc : Accounted flight state) (hlive : Live state ip)
    (hinvalid : (state.icache ip).valid = false)
    (htype : (state.disk (state.icache ip).inum).type ≠ .free) :
    let state' := state.setInode ip fun inode =>
      { inode with
        info := state.disk (state.icache ip).inum, valid := true }
    Frame footprint state state' ∧ After flight flight state state' := by
  intro state'
  have hclean : ¬ Dirty state' ip := by
    rintro ⟨-, -, hdiffer⟩
    simp [state'] at hdiffer
  refine slot_spec footprint hacc hlive rfl (fun _ => rfl) (fun _ => ⟨rfl, htype⟩) ?_
    hlive ?_ fun _ _ => le_rfl
  · simp [shown, hinvalid]
  · have hcount := hacc.counted ip
    rw [if_neg hclean]
    push_cast at hcount ⊢
    split_ifs at hcount <;> omega

/-- A slot is recycled for an inode that is not cached. -/
theorem recycle_spec (footprint : Footprint) (hacc : Accounted flight state)
    (hempty : (state.icache ip).ref = 0)
    (hnone : ∀ jp, Live state jp → (state.icache jp).inum ≠ inum) :
    let state' := state.setInode ip fun inode =>
      { inode with inum, ref := 1, valid := false }
    Frame footprint state state' ∧ After flight (flight + one ip) state state' := by
  intro state'
  have hdead : ¬ Live state ip := by
    rw [Live, hempty]
    exact lt_irrefl 0
  have hcount := hacc.counted ip
  have hclean : ¬ Dirty state' ip := by
    rintro ⟨-, hvalid, -⟩
    simp [state'] at hvalid
  have hacc' : Accounted (flight + one ip) state' := by
    refine hacc.setInode (fun _ jp _ hjp => hnone jp hjp)
      (fun _ hvalid => absurd hvalid (by simp)) ?_ fun jp hjp => by simp [hjp]
    rw [if_neg hclean]
    simp only [Pi.add_apply, one_self]
    omega
  refine ⟨frame_of_rights rfl rfl (rights_of_slot hacc hacc' rfl
    (fun jp hjp => icache_setInode_of_ne hjp) (fun _ => ?_)
    (fun hlive => absurd hlive hdead) fun hlive => absurd hlive hdead)
    (inner_setInode fun hheld => by omega), hacc', ?_⟩
  · simp only [state', shown, icache_setInode_self, disk_setInode, recorded_of_not_cached hnone]
    rfl
  · intro jp hjp
    have hne : jp ≠ ip := by
      rintro rfl
      omega
    rw [icache_setInode_of_ne hne]
    exact ⟨rfl, id⟩

/-- One reference less; a slot that loses its last one holds nothing new. -/
theorem dropRef_spec (footprint : Footprint) (hacc : Accounted (kept + one ip) state) :
    Frame footprint state (state.setInode ip fun inode => { inode with ref := inode.ref - 1 }) ∧
      After kept kept state
        (state.setInode ip fun inode => { inode with ref := inode.ref - 1 }) := by
  have hlive : Live state ip := hacc.live (by simp)
  have hcount := hacc.counted ip
  simp only [Pi.add_apply, one_self] at hcount
  have hdirty : Dirty (state.setInode ip fun inode =>
      { inode with ref := inode.ref - 1 }) ip → Dirty state ip := by
    rintro ⟨-, hvalid, hdiffer⟩
    simp only [icache_setInode_self, disk_setInode] at hvalid hdiffer
    exact ⟨hlive, hvalid, hdiffer⟩
  have hacc' : Accounted kept (state.setInode ip fun inode =>
      { inode with ref := inode.ref - 1 }) := by
    refine hacc.setInode (fun _ jp hjp hjlive hsame => ?_)
      (fun _ => hacc.typed ip hlive) ?_ fun jp hjp => by simp [hjp]
    · exact hjp (hacc.unique jp ip hjlive hlive hsame)
    · push_cast
      split_ifs at hcount ⊢ with h1 h2 <;> first | omega | exact absurd (hdirty ‹_›) ‹_›
  refine ⟨frame_setInode hacc hacc' hlive rfl id ?_ fun hdead => ?_, hacc',
    keeps_setInode rfl id⟩
  · simp only [shown, icache_setInode_self, disk_setInode]
  · -- Nobody holds the slot any more, so it is not dirty.
    simp only [not_lt, sub_nonpos] at hdead
    rw [shown]
    split_ifs with hvalid
    · by_contra hdiffer
      rw [if_pos ⟨hlive, hvalid, hdiffer⟩] at hcount
      omega
    · rfl

end Slots

section Disk

variable {flight kept : Ip → ℕ} {state : State} {ip : Ip}
  {footprint : Footprint}

/-- The cached copy of an inode is changed and written to disk. -/
def State.writeThrough (state : State) (ip : Ip) (info : Dinode) (valid : Bool) : State :=
  (state.setInode ip fun inode => { inode with info, valid }).setDisk
    (state.icache ip).inum info

variable {info : Dinode} {valid : Bool}

theorem icache_writeThrough_self :
    (State.writeThrough state ip info valid).icache ip =
      { state.icache ip with info, valid } := update_self ..

theorem icache_writeThrough_of_ne (hne : jp ≠ ip) :
    (State.writeThrough state ip info valid).icache jp = state.icache jp := update_of_ne hne ..

theorem disk_writeThrough_self :
    (State.writeThrough state ip info valid).disk (state.icache ip).inum = info := update_self ..

theorem disk_writeThrough_of_ne (hne : inum ≠ (state.icache ip).inum) :
    (State.writeThrough state ip info valid).disk inum = state.disk inum := update_of_ne hne ..

theorem slot_writeThrough (jp : Ip) :
    ((State.writeThrough state ip info valid).icache jp).ref = (state.icache jp).ref ∧
      ((State.writeThrough state ip info valid).icache jp).inum = (state.icache jp).inum := by
  by_cases hjp : jp = ip
  · subst hjp
    rw [icache_writeThrough_self]
    exact ⟨rfl, rfl⟩
  · rw [icache_writeThrough_of_ne hjp]
    exact ⟨rfl, rfl⟩

theorem live_writeThrough : Live (State.writeThrough state ip info valid) jp ↔ Live state jp := by
  rw [Live, Live, (slot_writeThrough jp).1]

theorem writeThrough_accounted (hacc : Accounted flight state)
    (hlive : Live state ip) (htype : valid → info.type ≠ .free) :
    Accounted flight (State.writeThrough state ip info valid) := by
  have hother : ∀ jp, jp ≠ ip → Live state jp →
      (State.writeThrough state ip info valid).disk (state.icache jp).inum =
        state.disk (state.icache jp).inum := fun jp hjp hjlive =>
    disk_writeThrough_of_ne
      fun hsame => hjp (hacc.unique jp ip hjlive hlive hsame)
  constructor
  · intro left right hleft hright hinum
    rw [(slot_writeThrough left).2, (slot_writeThrough right).2] at hinum
    exact hacc.unique left right (live_writeThrough.1 hleft) (live_writeThrough.1 hright) hinum
  · intro jp hjlive hjvalid
    by_cases hjp : jp = ip
    · subst hjp
      rw [icache_writeThrough_self] at hjvalid ⊢
      rw [disk_writeThrough_self]
      exact ⟨rfl, htype hjvalid⟩
    · rw [icache_writeThrough_of_ne hjp] at hjvalid ⊢
      rw [hother jp hjp (live_writeThrough.1 hjlive)]
      exact hacc.typed jp (live_writeThrough.1 hjlive) hjvalid
  · intro jp
    have hcount := hacc.counted jp
    have hdirty : Dirty (State.writeThrough state ip info valid) jp → Dirty state jp := by
      rintro ⟨hjlive, hjvalid, hdiffer⟩
      by_cases hjp : jp = ip
      · subst hjp
        rw [icache_writeThrough_self, disk_writeThrough_self] at hdiffer
        exact absurd rfl hdiffer
      · rw [icache_writeThrough_of_ne hjp] at hjvalid hdiffer
        rw [hother jp hjp (live_writeThrough.1 hjlive)] at hdiffer
        exact ⟨live_writeThrough.1 hjlive, hjvalid, hdiffer⟩
    rw [(slot_writeThrough jp).1]
    change ((holds state jp + flight jp : ℕ) : ℤ) + _ ≤ _
    split_ifs at hcount ⊢ with hnew hold
    · exact hcount
    · exact absurd (hdirty hnew) hold
    · omega
    · exact hcount

theorem cached_congr (hslot : ∀ jp, (state'.icache jp).ref = (state.icache jp).ref ∧
      (state'.icache jp).inum = (state.icache jp).inum) (inum : ℕ) :
    state'.cached inum = state.cached inum := by
  simp only [State.cached, (hslot _).1, (hslot _).2]

theorem recorded_writeThrough (hacc : Accounted flight state) (hlive : Live state ip) (inum : ℕ) :
    recorded (State.writeThrough state ip info valid) inum =
      if inum = (state.icache ip).inum then info else recorded state inum := by
  rw [recorded, cached_congr slot_writeThrough]
  split_ifs with hinum
  · subst hinum
    rw [cached_of_live hacc hlive]
    simp only [icache_writeThrough_self, disk_writeThrough_self, ite_self]
  · rw [recorded]
    cases hfound : state.cached inum with
    | none => exact disk_writeThrough_of_ne hinum
    | some jp =>
      have hjp : jp ≠ ip := by
        rintro rfl
        exact hinum (cached_eq_some hfound).2.symm
      simp only [icache_writeThrough_of_ne hjp, disk_writeThrough_of_ne hinum]

theorem keeps_writeThrough (hvalid : 1 ≤ kept ip → (state.icache ip).valid → valid) :
    Keeps kept state (State.writeThrough state ip info valid) := by
  intro jp hkept
  by_cases hjp : jp = ip
  · subst hjp
    rw [icache_writeThrough_self]
    exact ⟨rfl, hvalid hkept⟩
  · rw [icache_writeThrough_of_ne hjp]
    exact ⟨rfl, id⟩

theorem inner_writeThrough (hvalid : 1 ≤ holds state ip → (state.icache ip).valid → valid) :
    Inner state (State.writeThrough state ip info valid) := by
  have hslot : Inner state (state.setInode ip fun inode => { inode with info, valid }) :=
    inner_setInode fun hheld => ⟨rfl, hvalid hheld⟩
  exact ⟨rfl, rfl, rfl, rfl, hslot.held⟩

theorem recorded_setInfo (hacc : Accounted flight state) (hlive : Live state ip)
    (hvalid : (state.icache ip).valid) (info : Dinode) (inum : ℕ) :
    recorded (state.setInode ip fun inode => { inode with info }) inum =
      if inum = (state.icache ip).inum then info else recorded state inum := by
  have hslot : ∀ jp, ((state.setInode ip fun inode => { inode with info }).icache jp).ref =
        (state.icache jp).ref ∧
      ((state.setInode ip fun inode => { inode with info }).icache jp).inum =
        (state.icache jp).inum := by
    intro jp
    by_cases hjp : jp = ip
    · subst hjp
      rw [icache_setInode_self]
      exact ⟨rfl, rfl⟩
    · rw [icache_setInode_of_ne hjp]
      exact ⟨rfl, rfl⟩
  rw [recorded, cached_congr hslot]
  split_ifs with hinum
  · subst hinum
    rw [cached_of_live hacc hlive]
    simp [hvalid]
  · rw [recorded]
    cases hfound : state.cached inum with
    | none => rfl
    | some jp =>
      have hjp : jp ≠ ip := by
        rintro rfl
        exact hinum (cached_eq_some hfound).2.symm
      simp only [icache_setInode_of_ne hjp, disk_setInode]

/-- The recorded metadata of one inode changes within the footprint. -/
theorem sameInode_of_recorded {changed : ℕ} {old : Dinode} (hbefore : recorded state changed = old)
    (hnow : recorded state' inum = if inum = changed then info else recorded state inum)
    (hdata : state'.data = state.data) (htype : info.type = old.type)
    (howner : changed ∈ footprint.owner ∨ info.uid = old.uid ∧ info.gid = old.gid)
    (hmode : changed ∈ footprint.mode ∨ info.mode = old.mode) :
    SameInode footprint state state' inum := by
  by_cases hinum : inum = changed
  · subst hinum
    rw [if_pos rfl] at hnow
    refine ⟨.inl ?_, fun _ => .inl (by rw [hdata]), fun hnot => ?_, fun hnot => ?_⟩
    · rw [hnow, hbefore, htype]
    · rw [hnow, hbefore]
      exact howner.resolve_left hnot
    · rw [hnow, hbefore]
      exact hmode.resolve_left hnot
  · rw [if_neg hinum] at hnow
    exact ⟨.inl (by rw [hnow]), fun _ => .inl (by rw [hdata]),
      fun _ => by rw [hnow]; exact ⟨rfl, rfl⟩, fun _ => by rw [hnow]⟩

/-- The owner or the mode of a loaded copy changes.  One reference is not given
back: it stands for the copy that differs from the disk. -/
theorem setRights_spec (footprint : Footprint) (hacc : Accounted (kept + one ip) state)
    (hvalid : (state.icache ip).valid) (htype : info.type = (state.icache ip).info.type)
    (howner : (state.icache ip).inum ∈ footprint.owner ∨
      info.uid = (state.icache ip).info.uid ∧ info.gid = (state.icache ip).info.gid)
    (hmode : (state.icache ip).inum ∈ footprint.mode ∨ info.mode = (state.icache ip).info.mode) :
    Frame footprint state (state.setInode ip fun inode => { inode with info }) ∧
      After kept kept state (state.setInode ip fun inode => { inode with info }) := by
  have hlive : Live state ip := hacc.live (by simp)
  have htyped := hacc.typed ip hlive hvalid
  have hbefore : recorded state (state.icache ip).inum = (state.icache ip).info := by
    rw [recorded_of_live hacc hlive, shown, if_pos hvalid]
  refine ⟨⟨fun _ => le_rfl, fun _ _ => rfl, fun inum _ => ?_,
    fun _ => inner_setInode fun _ => ⟨rfl, id⟩⟩, ?_, keeps_setInode rfl id⟩
  · exact sameInode_of_recorded hbefore (recorded_setInfo hacc hlive hvalid info inum)
      rfl htype howner hmode
  · refine hacc.setInode (fun _ jp hjp hjlive hsame => ?_) (fun _ _ => ?_) ?_
      fun jp hjp => by simp [hjp]
    · exact hjp (hacc.unique jp ip hjlive hlive hsame)
    · rw [htype]
      exact htyped
    · have hcount := hacc.counted ip
      simp only [Pi.add_apply, one_self] at hcount
      push_cast at hcount ⊢
      split_ifs at hcount ⊢ <;> omega

/-- A loaded copy is written to disk, with other rights or the same. -/
theorem storeRights_spec (footprint : Footprint) (hacc : Accounted flight state)
    (hlive : Live state ip) (hvalid : (state.icache ip).valid)
    (htype : info.type = (state.icache ip).info.type)
    (howner : (state.icache ip).inum ∈ footprint.owner ∨
      info.uid = (state.icache ip).info.uid ∧ info.gid = (state.icache ip).info.gid)
    (hmode : (state.icache ip).inum ∈ footprint.mode ∨ info.mode = (state.icache ip).info.mode) :
    Frame footprint state (State.writeThrough state ip info true) ∧
      After flight flight state (State.writeThrough state ip info true) := by
  have hbefore : recorded state (state.icache ip).inum = (state.icache ip).info := by
    rw [recorded_of_live hacc hlive, shown, if_pos hvalid]
  refine ⟨⟨fun _ => le_rfl, fun _ _ => rfl, fun inum _ => ?_,
      fun _ => inner_writeThrough fun _ _ => rfl⟩,
    writeThrough_accounted hacc hlive
      fun _ => htype ▸ (hacc.typed ip hlive hvalid).2,
    keeps_writeThrough fun _ _ => rfl⟩
  exact sameInode_of_recorded hbefore (recorded_writeThrough hacc hlive inum) rfl htype howner hmode

theorem writeThrough_spec (footprint : Footprint)
    (hacc : Accounted flight state) (hlive : Live state ip) (hvalid : (state.icache ip).valid)
    (hrights : rights info = rights (state.icache ip).info) :
    Frame footprint state (State.writeThrough state ip info true) ∧
      After flight flight state (State.writeThrough state ip info true) := by
  simp only [rights, Prod.mk.injEq] at hrights
  obtain ⟨htype, huid, hgid, hmode⟩ := hrights
  exact storeRights_spec footprint hacc hlive hvalid htype (.inr ⟨huid, hgid⟩) (.inr hmode)

/-- The state after the last reference to an inode without links is gone. -/
def State.freed (state : State) (ip : Ip) : State :=
  (State.writeThrough state ip { (state.icache ip).info with type := .free } false).setData
      (state.icache ip).inum []

theorem freeInode_eq (state : State) (ip : Ip) :
    freeInode ip state =
      if state.outstanding < 1 then
        .halted (.panic "log_write outside of trans")
      else .done () (State.freed state ip) := by
  by_cases hlog : state.outstanding < 1
  · simp [freeInode, itrunc, iupdate, logWrite, hlog, bind, Op.bind, getInode,
      Op.gets, Op.modify, State.setData, kpanic, Op.halt]
  · simp [freeInode, itrunc, iupdate, logWrite, hlog, bind, Op.bind, getInode,
      Op.gets, Op.modify, State.setData, State.setDisk, setInode,
      State.setInode, State.freed, State.writeThrough, pure, Op.pure]

theorem freed_spec (footprint : Footprint) (hacc : Accounted flight state)
    (hlive : Live state ip) (hvalid : (state.icache ip).valid) (hkept : kept ip = 0)
    (hheld : holds state ip = 0) :
    Frame footprint state (State.freed state ip) ∧
      After kept flight state (State.freed state ip) := by
  have hacc' : Accounted flight (State.writeThrough state ip
      { (state.icache ip).info with type := .free } false) :=
    writeThrough_accounted hacc hlive (by simp)
  have hrecorded : ∀ inum, recorded (State.freed state ip) inum =
      if inum = (state.icache ip).inum then
        { (state.icache ip).info with type := .free }
      else recorded state inum := recorded_writeThrough hacc hlive
  have hkeeps : Keeps kept state (State.writeThrough state ip
      { (state.icache ip).info with type := .free } false) :=
    keeps_writeThrough fun hone => by omega
  have hinner : Inner state (State.writeThrough state ip
      { (state.icache ip).info with type := .free } false) :=
    inner_writeThrough fun hone => by omega
  refine ⟨⟨fun _ => le_rfl, fun _ _ => rfl, fun inum _ => ?_,
      fun _ => ⟨rfl, rfl, rfl, rfl, hinner.held⟩⟩,
    ⟨hacc'.unique, hacc'.typed, hacc'.counted⟩, hkeeps⟩
  by_cases hinum : inum = (state.icache ip).inum
  · have hnow : recorded (State.freed state ip) inum =
        { (state.icache ip).info with type := .free } := by
      rw [hrecorded, if_pos hinum]
    have hbefore : recorded state inum = (state.icache ip).info := by
      rw [hinum, recorded_of_live hacc hlive, shown, if_pos hvalid]
    exact ⟨.inr (by rw [hnow]), fun _ => .inr (by rw [hnow]),
      fun _ => by rw [hnow, hbefore]; exact ⟨rfl, rfl⟩,
      fun _ => by rw [hnow, hbefore]⟩
  · have hsame : recorded (State.freed state ip) inum = recorded state inum := by
      rw [hrecorded, if_neg hinum]
    exact ⟨.inl (by rw [hsame]),
      fun _ => .inl (update_of_ne hinum ..),
      fun _ => by rw [hsame]; exact ⟨rfl, rfl⟩, fun _ => by rw [hsame]⟩

@[simp]
theorem icache_allocate (inum : ℕ) (type : FileType) :
    (state.allocate inum type).icache = state.icache := rfl

theorem recorded_allocate_of_ne (state : State) {other : ℕ} (hne : other ≠ inum) (type : FileType) :
    recorded (state.allocate inum type) other = recorded state other := by
  have hdisk : (state.allocate inum type).disk other = state.disk other := update_of_ne hne ..
  rw [recorded, recorded, hdisk]
  rfl

/-- A free inode is not loaded, so what is recorded is what is on disk. -/
theorem recorded_allocate_self (hacc : Accounted flight state)
    (hfree : (state.disk inum).type = .free) (type : FileType) :
    (recorded (state.allocate inum type) inum).type = type := by
  have hdisk : (state.allocate inum type).disk inum = emptyDinode type := update_self ..
  have hcached : (state.allocate inum type).cached inum = state.cached inum := rfl
  rw [recorded, hcached, hdisk]
  cases hfound : state.cached inum with
  | none => rfl
  | some ip =>
    obtain ⟨hlive, hinum⟩ := cached_eq_some hfound
    have hinvalid : ¬ (state.icache ip).valid := by
      intro hvalid
      have htyped := hacc.typed ip hlive hvalid
      rw [hinum] at htyped
      exact htyped.2 (htyped.1.trans hfree)
    dsimp only
    rw [icache_allocate, if_neg hinvalid]
    rfl

/-- A free inode is allocated. -/
theorem allocate_spec (hacc : Accounted flight state) (hfree : (state.disk inum).type = .free)
    (hfresh : inum ∈ footprint.fresh) (type : FileType) :
    Frame footprint state (state.allocate inum type) ∧
      After flight flight state (state.allocate inum type) := by
  have hdisk : ∀ jp, Live state jp → (state.icache jp).valid →
      (state.allocate inum type).disk (state.icache jp).inum =
        state.disk (state.icache jp).inum := by
    intro jp hjlive hvalid
    refine update_of_ne ?_ ..
    rintro rfl
    have htyped := hacc.typed jp hjlive hvalid
    exact htyped.2 (htyped.1.trans hfree)
  refine ⟨⟨fun other => ?_, fun other hnot => ?_, fun other hgen => ?_,
      fun _ => ⟨rfl, rfl, rfl, rfl, fun _ _ => ⟨rfl, id⟩⟩⟩,
    ⟨hacc.unique, fun jp hjlive hvalid => ?_, fun jp => ?_⟩,
    fun _ _ => ⟨rfl, id⟩⟩
  · by_cases hother : other = inum
    · subst hother
      simp [State.allocate]
    · simp [State.allocate, hother]
  · have hother : other ≠ inum := fun hsame => hnot (hsame ▸ hfresh)
    exact update_of_ne hother ..
  · have hother : other ≠ inum := by
      rintro rfl
      simp [State.allocate] at hgen
    have hsame := recorded_allocate_of_ne state hother type
    exact ⟨.inl (by rw [hsame]),
      fun _ => .inl (update_of_ne hother ..),
      fun _ => by rw [hsame]; exact ⟨rfl, rfl⟩, fun _ => by rw [hsame]⟩
  · rw [icache_allocate, hdisk jp hjlive hvalid]
    exact hacc.typed jp hjlive hvalid
  · have hcount := hacc.counted jp
    have hdirty : Dirty (state.allocate inum type) jp ↔ Dirty state jp := by
      refine and_congr_right fun hjlive => and_congr_right fun hvalid => ?_
      rw [icache_allocate, hdisk jp hjlive hvalid]
    simp only [hdirty]
    exact hcount

theorem setData_spec (hacc : Accounted flight state) (hinum : inum ∈ footprint.data)
    (bytes : List Byte) :
    Frame footprint state (state.setData inum bytes) ∧
      After flight flight state (state.setData inum bytes) := by
  refine ⟨⟨fun _ => le_rfl, fun _ _ => rfl, fun other _ => ?_,
      fun _ => ⟨rfl, rfl, rfl, rfl, fun _ _ => ⟨rfl, id⟩⟩⟩,
    ⟨hacc.unique, hacc.typed, hacc.counted⟩, .refl _ _⟩
  refine ⟨.inl rfl, fun hnot => .inl ?_, fun _ => ⟨rfl, rfl⟩, fun _ => rfl⟩
  have hother : other ≠ inum := fun hsame => hnot (hsame ▸ hinum)
  exact update_of_ne hother ..

end Disk

end Xv6Users.InodeAccount
