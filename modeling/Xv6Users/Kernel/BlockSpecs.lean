import Xv6Users.Kernel.BlockOwners

/-!
# What the block map does

`bmap` returns the block of an inode that a number stands for, and allocates it if there
is none; it changes the contents of no other block.  It stops only when the log or the
disk is full, which the blocks that are logged and those that are free bound beforehand.
-/

namespace Xv6Users.BlockSpecs

open Function List Finset

open Contracts Buffers LittleEndian Ownership Processes Layout Blocks BlockOwners
open Inodes (Stop)

section Log

variable {sb : Superblock} {dinode : Dinode} {logged : List ℕ} {b : ℕ}

/-- The number of blocks that one transaction can log. -/
def limit (sb : Superblock) : ℕ :=
  min logSize (sb.nlog - 1)

theorem isFull_iff : isFull sb logged ↔ limit sb ≤ logged.length :=
  (min_le_iff).symm

def nbitmap (sb : Superblock) : ℕ :=
  sb.size / bpb + 1

/-- Neither a block of the bitmap nor the indirect block of the inode. -/
def isOrdinary (sb : Superblock) (dinode : Dinode) (b : ℕ) : Bool :=
  ¬ (sb.bmapstart ≤ b ∧ b < sb.dataStart) ∧ ¬ (dinode.addrs 9 ≠ 0 ∧ (dinode.addrs 9).toNat = b)

/-- The number of ordinary blocks in the log. -/
def weight (sb : Superblock) (dinode : Dinode) (logged : List ℕ) : ℕ :=
  (logged.filter (isOrdinary sb dinode)).length

theorem mem_absorb_self (logged : List ℕ) (b : ℕ) : b ∈ absorb logged b := by
  rw [absorb]
  split_ifs with hmem
  · exact hmem
  · simp

theorem mem_absorb_of_mem {c : ℕ} (hmem : c ∈ logged) : c ∈ absorb logged b := by
  rw [absorb]
  split_ifs
  · exact hmem
  · exact mem_append_left _ hmem

theorem absorb_of_mem (hmem : b ∈ logged) : absorb logged b = logged :=
  if_pos hmem

theorem nodup_absorb (hlog : logged.Nodup) (b : ℕ) : (absorb logged b).Nodup := by
  rw [absorb]
  split_ifs with hmem
  · exact hlog
  · exact List.nodup_append.2 ⟨hlog, List.nodup_singleton b, by
      rintro c hc d hd rfl
      rw [List.mem_singleton] at hd
      exact hmem (hd ▸ hc)⟩

theorem weight_absorb_le (logged : List ℕ) (b : ℕ) :
    weight sb dinode (absorb logged b) ≤ weight sb dinode logged + 1 := by
  rw [absorb]
  split_ifs
  · exact Nat.le_succ _
  · rw [weight, filter_append, length_append, weight]
    exact Nat.add_le_add_left (length_filter_le _ _) _

/-- A special block weighs nothing. -/
theorem weight_absorb_special (hspecial : isOrdinary sb dinode b = false)
    (logged : List ℕ) : weight sb dinode (absorb logged b) = weight sb dinode logged := by
  rw [absorb]
  split_ifs
  · rfl
  · rw [weight, filter_append, length_append, weight]
    simp [hspecial]

theorem isOrdinary_bblock (hb : b < sb.size) : isOrdinary sb dinode (sb.bblock b) = false := by
  have hlow : sb.bmapstart ≤ sb.bblock b := Superblock.bmapstart_le_bblock b
  have hhigh := Superblock.bblock_lt hb
  simp [isOrdinary, hlow, hhigh]

theorem isOrdinary_indirect (hindirect : dinode.addrs 9 ≠ 0) :
    isOrdinary sb dinode (dinode.addrs 9).toNat = false := by
  simp [isOrdinary, hindirect]

/-- The log has the ordinary blocks, those of the bitmap and the indirect block. -/
theorem length_le_weight (hlog : logged.Nodup) :
    logged.length ≤ weight sb dinode logged + nbitmap sb + 1 := by
  have hspecial : (logged.filter fun b => !isOrdinary sb dinode b).length ≤
      nbitmap sb + 1 := by
    have hsub : (logged.filter fun b => !isOrdinary sb dinode b).toFinset ⊆
        insert (dinode.addrs 9).toNat (Finset.Ico sb.bmapstart sb.dataStart) := by
      intro b hb
      have hnot := (mem_filter.1 (mem_toFinset.1 hb)).2
      rw [mem_insert, mem_Ico]
      by_contra hnone
      rw [not_or] at hnone
      have hordinary : isOrdinary sb dinode b = true := by
        rw [isOrdinary, decide_eq_true_eq]
        exact ⟨hnone.2, fun hindirect => hnone.1 hindirect.2.symm⟩
      rw [hordinary] at hnot
      cases hnot
    calc (logged.filter fun b => !isOrdinary sb dinode b).length
        = (logged.filter fun b => !isOrdinary sb dinode b).toFinset.card :=
          (toFinset_card_of_nodup (hlog.filter _)).symm
      _ ≤ (insert (dinode.addrs 9).toNat (Finset.Ico sb.bmapstart sb.dataStart)).card :=
          card_le_card hsub
      _ ≤ (Finset.Ico sb.bmapstart sb.dataStart).card + 1 := card_insert_le _ _
      _ = nbitmap sb + 1 := by
          rw [Nat.card_Ico, Superblock.dataStart, nbitmap, add_assoc, Nat.add_sub_cancel_left]
  have hsplit := length_eq_length_filter_add (l := logged) (isOrdinary sb dinode)
  rw [weight]
  omega

end Log

section Free

variable {sb : Superblock} {disk : Disk} {b : ℕ}

def free (sb : Superblock) (disk : Disk) : ℕ :=
  ((Finset.range sb.size).filter fun b => disk.bit sb b = false).card

/-- One more block is in use. -/
theorem free_succ {disk' : Disk} (hb : b < sb.size) (hfree : ¬ Used sb disk b)
    (hused : ∀ c, Used sb disk' c ↔ Used sb disk c ∨ c = b) : free sb disk' + 1 = free sb disk := by
  have hbit : disk.bit sb b = false := by
    rw [← Bool.not_eq_true]
    exact fun hbit => hfree ⟨hb, hbit⟩
  have hmem : b ∈ (Finset.range sb.size).filter fun b => disk.bit sb b = false := by
    rw [Finset.mem_filter, Finset.mem_range]
    exact ⟨hb, hbit⟩
  have hfilter : ((Finset.range sb.size).filter fun c => disk'.bit sb c = false) =
      ((Finset.range sb.size).filter fun c => disk.bit sb c = false).erase b := by
    ext c
    rw [Finset.mem_erase, Finset.mem_filter, Finset.mem_filter, Finset.mem_range]
    have hsame := hused c
    rw [Used, Used] at hsame
    by_cases hc : c < sb.size
    · simp only [hc, true_and, ← Bool.not_eq_true] at hsame ⊢
      rw [hsame, not_or, and_comm]
    · simp [hc]
  rw [free, hfilter, Finset.card_erase_add_one hmem, free]

/-- Blocks that can still be allocated for an inode; an indirect block counts too. -/
def room (sb : Superblock) (dinode : Dinode) (disk : Disk) : ℕ :=
  free sb disk + if dinode.addrs 9 = 0 then 0 else 1

end Free

/-- The log or the disk is short of what `need` blocks of an inode take. -/
def Short (sb : Superblock) (dinode : Dinode) (state : State) (need : ℕ) (reason : Stop) : Prop :=
  (reason = .panic "too big a transaction" ∧
    limit sb ≤ weight sb dinode state.logged + need + nbitmap sb + 1) ∨
  (reason = .panic "log_write outside of trans" ∧ state.outstanding < 1) ∨
  (reason = .panic "balloc: out of blocks" ∧ room sb dinode state.disk < need + 1)

/-! ## Allocation -/

variable {dinode : Dinode} {post : ℕ → State → Prop} {inum b need addr : ℕ} {index : Fin 10}
  {change : Dinode → Dinode} {logged : List ℕ} {state' : State}

section Allocation

variable {sb : Superblock} {state : State} {halts : Stop → Prop}

theorem logWrite_spec {post : Unit → State → Prop}
    (hfull : isFull sb state.logged → halts (.panic "too big a transaction"))
    (houtside : state.outstanding < 1 → halts (.panic "log_write outside of trans"))
    (hpost : post () { state with logged := absorb state.logged b }) :
    Yields (logWrite sb b) state halts post := by
  refine .gets_bind (.gets_bind ?_)
  split_ifs with hlog hopen
  · exact .halt (hfull hlog)
  · exact .halt (houtside hopen)
  · exact .modify hpost

theorem logWrite_bind {α : Type} {next : Unit → B α} {post : α → State → Prop}
    (hfull : isFull sb state.logged → halts (.panic "too big a transaction"))
    (houtside : state.outstanding < 1 → halts (.panic "log_write outside of trans"))
    (hnext : Yields (next ()) { state with logged := absorb state.logged b } halts post) :
    Yields (logWrite sb b >>= next) state halts post := by
  have hlog : Yields (logWrite sb b) state halts fun _ state' =>
      state' = { state with logged := absorb state.logged b } := logWrite_spec hfull houtside rfl
  refine hlog.bind ?_
  rintro _ state' rfl
  exact hnext

theorem isFull_absorb (hfull : isFull sb logged) : isFull sb (absorb logged b) := by
  rw [isFull_iff] at hfull ⊢
  refine hfull.trans ?_
  rw [absorb]
  split_ifs
  · exact le_rfl
  · rw [length_append]
    exact Nat.le_add_right _ _

theorem balloc_spec
    (hblocks : free sb state.disk = 0 → halts (.panic "balloc: out of blocks"))
    (hfull : ∀ b < sb.size, isFull sb (absorb state.logged (sb.bblock b)) →
      halts (.panic "too big a transaction"))
    (houtside : state.outstanding < 1 → halts (.panic "log_write outside of trans"))
    (hpost : ∀ b < sb.size, ¬ Used sb state.disk b → post b { state with
      disk := taken sb state.disk b
      logged := absorb (absorb state.logged (sb.bblock b)) b }) :
    Yields (balloc sb) state halts post := by
  refine .gets_bind ?_
  split
  next hnone =>
    apply Yields.halt
    apply hblocks
    rw [free, card_eq_zero, filter_eq_empty_iff]
    intro b hb
    have hused := find?_eq_none.1 hnone b (List.mem_range.2 (Finset.mem_range.1 hb))
    simpa using hused
  next b hfound =>
    have hb : b < sb.size := List.mem_range.1 (List.mem_of_find?_eq_some hfound)
    have hbit : state.disk.bit sb b = false := by
      simpa using find?_some hfound
    have hfree : ¬ Used sb state.disk b := by
      rw [Used, hbit]
      exact fun hused => Bool.false_ne_true hused.2
    refine .modify_bind (logWrite_bind ?_ houtside ?_)
    · exact fun hlog => hfull b hb (isFull_absorb hlog)
    rw [bzero, Op.bind_assoc]
    refine .modify_bind (logWrite_bind (hfull b hb) houtside ?_)
    exact .pure (hpost b hb hfree)

theorem getInode_done (hcopy : state.inodes inum = some dinode) :
    getInode inum state = .done dinode state := by
  simp only [getInode, bind, Op.bind, Op.gets, hcopy]
  rfl

theorem getInode_bind {α : Type} {next : Dinode → B α}
    {post : α → State → Prop} (hcopy : state.inodes inum = some dinode)
    (hnext : Yields (next dinode) state halts post) :
    Yields (getInode inum >>= next) state halts post := by
  rw [getInode, Op.bind_assoc]
  refine .gets_bind ?_
  rw [hcopy]
  exact hnext

theorem setInode_bind {α : Type}
    {next : Unit → B α} {post : α → State → Prop}
    (hcopy : state.inodes inum = some dinode)
    (hnext : Yields (next ()) { state with
      inodes := update state.inodes inum (some (change dinode)) } halts post) :
    Yields (setInode inum change >>= next) state halts post := by
  rw [setInode, Op.bind_assoc]
  refine getInode_bind hcopy ?_
  exact .modify_bind hnext

/-- A copy is changed and written back. -/
theorem update_spec
    {post : Unit → State → Prop} (hcopy : state.inodes inum = some dinode)
    (hfull : isFull sb state.logged → halts (.panic "too big a transaction"))
    (houtside : state.outstanding < 1 → halts (.panic "log_write outside of trans"))
    (hpost : post () (stored sb state inum (change dinode)
      (absorb state.logged (sb.iblock inum)))) :
    Yields (setInode inum change >>= fun _ => iupdate sb inum) state halts post := by
  refine setInode_bind hcopy (getInode_bind (update_self ..) ?_)
  exact .modify_bind (logWrite_spec hfull houtside hpost)

/-- An address is there, or it is allocated. -/
theorem mapAddr_spec (hcopy : state.inodes inum = some dinode)
    (hblocks : free sb state.disk = 0 → halts (.panic "balloc: out of blocks"))
    (hfull : ∀ b < sb.size, isFull sb (absorb state.logged (sb.bblock b)) →
      halts (.panic "too big a transaction"))
    (houtside : state.outstanding < 1 → halts (.panic "log_write outside of trans"))
    (hold : dinode.addrs index ≠ 0 → post (dinode.addrs index).toNat state)
    (hnew : dinode.addrs index = 0 → ∀ b < sb.size, ¬ Used sb state.disk b →
      post b (addrTaken sb state inum dinode index b
        (absorb (absorb state.logged (sb.bblock b)) b))) :
    Yields (mapAddr sb inum index) state halts post := by
  refine getInode_bind hcopy ?_
  split_ifs with hempty
  · refine (balloc_spec hblocks hfull houtside ?_).bind fun _ _ => id
    intro b hb hfree
    exact setInode_bind hcopy (.pure (hnew hempty b hb hfree))
  · exact .pure (hold hempty)

/-- An entry is there, or it is allocated. -/
theorem mapEntry_spec {index : ℕ}
    (hblocks : free sb state.disk = 0 → halts (.panic "balloc: out of blocks"))
    (hfull : ∀ b < sb.size, isFull sb (absorb (absorb state.logged (sb.bblock b)) b) →
      halts (.panic "too big a transaction"))
    (houtside : state.outstanding < 1 → halts (.panic "log_write outside of trans"))
    (hold : state.disk.entry addr index ≠ 0 → post (state.disk.entry addr index).toNat state)
    (hnew : state.disk.entry addr index = 0 → ∀ b < sb.size, ¬ Used sb state.disk b →
      post b (entryTaken sb state addr index b
        (absorb (absorb (absorb state.logged (sb.bblock b)) b) addr))) :
    Yields (mapEntry sb addr index) state halts post := by
  refine .gets_bind ?_
  split_ifs with hempty
  · refine (balloc_spec hblocks (fun b hb hlog => hfull b hb (isFull_absorb hlog)) houtside
      ?_).bind fun _ _ => id
    intro b hb hfree
    refine .modify_bind (logWrite_bind (hfull b hb) houtside ?_)
    exact .pure (hnew hempty b hb hfree)
  · exact .pure (hold hempty)

end Allocation

/-! ## The bytes that an inode holds -/

/-- Where an inode refers to its block with this number. -/
def ref (bn : ℕ) : Ref :=
  if h : bn < ndirect then .addr ⟨bn, direct_lt h⟩ else .entry (bn - ndirect)

theorem ref_injective : Function.Injective ref := by
  intro left right hsame
  rw [ref, ref] at hsame
  split_ifs at hsame with hleft hright hright
  · exact Fin.mk.inj (Ref.addr.inj hsame)
  · have hindex := Ref.entry.inj hsame
    omega

theorem ref_ne_indirect (bn : ℕ) : ref bn ≠ .addr 9 := by
  rw [ref]
  split_ifs with hbn
  · intro hsame
    have hindex : bn = 9 := congrArg Fin.val (Ref.addr.inj hsame)
    rw [ndirect] at hbn
    omega
  · exact nofun

def held (sb : Superblock) (state : State) (inum bn : ℕ) : Option (List Byte) :=
  (target sb state (inum, ref bn)).map state.disk.block

def zeros : List Byte :=
  replicate bsize 0

section Held

variable {sb : Superblock} {state : State} {inum b : ℕ} {dinode : Dinode} {logged : List ℕ}

theorem held_addrTaken (hcons : Consistent sb state)
    (hcopy : state.inodes inum = some dinode) (hempty : dinode.addrs index = 0)
    (hb : b < sb.size) (hfree : ¬ Used sb state.disk b) (other bn : ℕ) :
    held sb (addrTaken sb state inum dinode index b logged) other bn =
      if (other, ref bn) = (inum, .addr index) then some zeros
      else held sb state other bn := by
  have hdata := hcons.free_data hfree
  have hbeside : Beside sb {b} state.disk (taken sb state.disk b) := beside_taken hb hdata
  rw [held, target_addrTaken hcons hcopy hempty hb hfree]
  split_ifs with hplace
  · rw [hplace, update_self, Option.map_some]
    exact congrArg some block_taken
  · rw [update_of_ne hplace, held]
    cases htarget : target sb state (other, ref bn) with
    | none => rfl
    | some c =>
      have hc : c ≠ b := by
        rintro rfl
        exact hfree (hcons.data htarget).2
      exact congrArg some (hbeside.block c (hcons.data htarget).1 hc)

theorem held_entryTaken (hcons : Consistent sb state)
    (hcopy : state.inodes inum = some dinode) (hindirect : dinode.addrs 9 ≠ 0) {index : ℕ}
    (hindex : index < nindirect) (hb : b < sb.size) (hfree : ¬ Used sb state.disk b)
    (other bn : ℕ) :
    held sb (entryTaken sb state (dinode.addrs 9).toNat index b logged) other bn =
      if (other, ref bn) = (inum, .entry index) then some zeros
      else held sb state other bn := by
  have hdata := hcons.free_data hfree
  have howner := hcons.target_indirect_copy hcopy hindirect
  have hbeside : Beside sb {b} state.disk (taken sb state.disk b) := beside_taken hb hdata
  rw [held, target_entryTaken hcons hcopy hindirect hindex hb hfree]
  split_ifs with hplace
  · rw [hplace, update_self, Option.map_some]
    have hne : b ≠ (dinode.addrs 9).toNat := by
      rintro rfl
      exact hfree (hcons.data howner).2
    exact congrArg some ((Disk.block_patch_of_ne hne _ _).trans block_taken)
  · rw [update_of_ne hplace, held]
    cases htarget : target sb state (other, ref bn) with
    | none => rfl
    | some c =>
      have hc : c ≠ b := by
        rintro rfl
        exact hfree (hcons.data htarget).2
      have hc' : c ≠ (dinode.addrs 9).toNat := by
        rintro rfl
        have hsame := congrArg Prod.snd (hcons.owned.unique htarget howner)
        exact ref_ne_indirect bn hsame
      exact congrArg some ((Disk.block_patch_of_ne hc' _ _).trans
        (hbeside.block c (hcons.data htarget).1 hc))

/-- The bytes stay where only other fields of inodes change. -/
theorem held_fields (hcons : Consistent sb state) (haddrs : SameAddrs sb state state')
    (hblock : ∀ b, sb.bmapstart ≤ b → state'.disk.block b = state.disk.block b)
    (other bn : ℕ) : held sb state' other bn = held sb state other bn := by
  rw [held, target_fields hcons haddrs hblock, held]
  cases htarget : target sb state (other, ref bn) with
  | none => rfl
  | some c =>
    have hdata := (hcons.data htarget).1
    exact congrArg some (hblock c (Superblock.bmapstart_lt_dataStart.le.trans hdata))

end Held

/-! ## The block map -/

/-- A consistent file system whose log has no block twice. -/
structure Sound (sb : Superblock) (state : State) : Prop extends Consistent sb state where
  log : state.logged.Nodup

/-- What `bmap` leaves behind: the block is there, zero if it is new, and nothing else
has changed but addresses of the inode. -/
structure Maps (sb : Superblock) (state : State) (inum : ℕ) (dinode : Dinode) (bn b : ℕ)
    (dinode' : Dinode) (state' : State) : Prop where
  sound : Sound sb state'
  copy : state'.inodes inum = some dinode'
  fields : dinode' = { dinode with addrs := dinode'.addrs }
  others : ∀ other, other ≠ inum → state'.inodes other = state.inodes other
  dinodes : ∀ other < sb.ninodes, state'.disk.dinode sb other = state.disk.dinode sb other
  outstanding : state'.outstanding = state.outstanding
  found : target sb state' (inum, ref bn) = some b
  keeps : ∀ other bn', held sb state' other bn' =
    if other = inum ∧ bn' = bn then some ((held sb state inum bn).getD zeros)
    else held sb state other bn'
  same : held sb state inum bn ≠ none → state' = state
  weighs : weight sb dinode' (absorb state'.logged b) ≤ weight sb dinode state.logged + 1
  leaves : room sb dinode state.disk ≤ room sb dinode' state'.disk + 1

section BlockMap

variable {sb : Superblock} {state : State} {inum b bn : ℕ} {dinode : Dinode}

/-- A block that is there is found. -/
theorem maps_self (hsound : Sound sb state) (hcopy : state.inodes inum = some dinode)
    (hmapped : mapped state.disk dinode (ref bn) = b) (hb : b ≠ 0) :
    Maps sb state inum dinode bn b dinode state := by
  have htarget : target sb state (inum, ref bn) = some b := by
    rw [target_of_copy hsound.toConsistent hcopy, nonzero_eq_some]
    exact ⟨hmapped, hb⟩
  refine ⟨hsound, hcopy, rfl, fun _ _ => rfl, fun _ _ => rfl, rfl, htarget, ?_, fun _ => rfl,
    weight_absorb_le _ _, Nat.le_succ _⟩
  intro other bn'
  split_ifs with hplace
  · obtain ⟨rfl, rfl⟩ := hplace
    rw [held, htarget]
    rfl
  · rfl

/-- The log is full only if it is short of what is needed. -/
theorem short_log (hlogged : logged.Nodup)
    (hweight : weight sb dinode logged ≤ weight sb dinode state.logged + need)
    (hfull : isFull sb logged) :
    Short sb dinode state need (.panic "too big a transaction") := by
  have hlength : logged.length ≤ weight sb dinode logged + nbitmap sb + 1 :=
    length_le_weight hlogged
  rw [isFull_iff] at hfull
  exact .inl ⟨rfl, by omega⟩

theorem short_bitmap (hsound : Sound sb state) (need : ℕ) (hb : b < sb.size)
    (hfull : isFull sb (absorb state.logged (sb.bblock b))) :
    Short sb dinode state need (.panic "too big a transaction") := by
  apply short_log (nodup_absorb hsound.log _) _ hfull
  rw [weight_absorb_special (isOrdinary_bblock hb)]
  exact Nat.le_add_right _ _

theorem short_outside (houtside : state.outstanding < 1) :
    Short sb dinode state need (.panic "log_write outside of trans") := .inr (.inl ⟨rfl, houtside⟩)

/-- The disk is full only if it is short of one block. -/
theorem short_free (hfree : free sb state.disk = 0) :
    Short sb dinode state 1 (.panic "balloc: out of blocks") := by
  refine .inr (.inr ⟨rfl, ?_⟩)
  rw [room, hfree]
  split_ifs <;> omega

/-- An entry of the indirect block. -/
theorem mapEntry_maps (hsound : Sound sb state) (hcopy : state.inodes inum = some dinode)
    (hindirect : dinode.addrs 9 ≠ 0) {index : ℕ} (href : ref bn = .entry index)
    (hindex : index < nindirect) :
    Yields (mapEntry sb (dinode.addrs 9).toNat index) state (Short sb dinode state 1)
      fun b state' => Maps sb state inum dinode bn b dinode state' := by
  apply mapEntry_spec short_free _ short_outside
  · intro hused
    apply maps_self hsound hcopy
    · rw [href, mapped, if_neg hindirect]
    · exact fun hzero => hused (UInt32.toNat_inj.1 hzero)
  · intro hempty b hb hfree
    have hcons := hsound.toConsistent
    have hdata := hcons.free_data hfree
    have haddr := (hcons.data (hcons.target_indirect_copy hcopy hindirect)).1
    have hheld : held sb state inum bn = none := by
      rw [held, target_of_copy hcons hcopy, href, mapped, if_neg hindirect, hempty]
      rfl
    have hsame : ∀ other bn', (other, ref bn') = (inum, Ref.entry index) ↔
        other = inum ∧ bn' = bn := by
      intro other bn'
      rw [Prod.mk.injEq, ← href, ref_injective.eq_iff]
    refine ⟨⟨hcons.entryTaken hcopy hindirect hindex hempty hb hfree,
        nodup_absorb (nodup_absorb (nodup_absorb hsound.log _) _) _⟩, hcopy, rfl,
      fun _ _ => rfl, ?_, rfl, ?_, ?_, fun hsome => absurd hheld hsome, ?_, ?_⟩
    · exact (beside_entryTaken hb hdata haddr).dinode
    · rw [target_entryTaken hcons hcopy hindirect hindex hb hfree, href, update_self]
    · intro other bn'
      rw [held_entryTaken hcons hcopy hindirect hindex hb hfree, hheld]
      simp only [hsame]
      rfl
    · have hmem : b ∈ absorb (absorb (absorb state.logged (sb.bblock b)) b)
          (dinode.addrs 9).toNat := mem_absorb_of_mem (mem_absorb_self _ _)
      calc weight sb dinode (absorb (absorb (absorb (absorb state.logged (sb.bblock b)) b)
            (dinode.addrs 9).toNat) b)
          = weight sb dinode (absorb (absorb state.logged (sb.bblock b)) b) := by
            rw [absorb_of_mem hmem, weight_absorb_special (isOrdinary_indirect hindirect)]
        _ ≤ weight sb dinode (absorb state.logged (sb.bblock b)) + 1 := weight_absorb_le _ _
        _ = weight sb dinode state.logged + 1 := by
            rw [weight_absorb_special (isOrdinary_bblock hb)]
    · have hcount : free sb (entryTaken sb state (dinode.addrs 9).toNat index b
          (absorb (absorb (absorb state.logged (sb.bblock b)) b)
            (dinode.addrs 9).toNat)).disk + 1 = free sb state.disk :=
        free_succ hb hfree (used_entryTaken hb hdata haddr)
      rw [room, room, ← hcount]
      omega
  · intro b hb hfull
    apply short_log (nodup_absorb (nodup_absorb hsound.log _) _) _ hfull
    rw [← weight_absorb_special (isOrdinary_bblock hb) state.logged]
    exact weight_absorb_le _ _

/-- A direct block. -/
theorem mapAddr_maps (hsound : Sound sb state) (hcopy : state.inodes inum = some dinode)
    (href : ref bn = .addr index) (hindex : index ≠ 9) :
    Yields (mapAddr sb inum index) state (Short sb dinode state 1) fun b state' =>
      ∃ dinode', Maps sb state inum dinode bn b dinode' state' := by
  apply mapAddr_spec hcopy short_free (fun b hb => short_bitmap hsound 1 hb) short_outside
  · intro hused
    refine ⟨dinode, maps_self hsound hcopy ?_ ?_⟩
    · rw [href, mapped]
    · exact fun hzero => hused (UInt32.toNat_inj.1 hzero)
  · intro hempty b hb hfree
    have hcons := hsound.toConsistent
    have hdata := hcons.free_data hfree
    have hheld : held sb state inum bn = none := by
      rw [held, target_of_copy hcons hcopy, href, mapped, hempty]
      rfl
    have hsame : ∀ other bn', (other, ref bn') = (inum, Ref.addr index) ↔
        other = inum ∧ bn' = bn := by
      intro other bn'
      rw [Prod.mk.injEq, ← href, ref_injective.eq_iff]
    have hnine : (setAddr dinode index (UInt32.ofNat b)).addrs 9 = dinode.addrs 9 :=
      addrs_setAddr_of_ne (Ne.symm hindex) _
    refine ⟨setAddr dinode index (UInt32.ofNat b),
      ⟨hcons.addrTaken hcopy hempty hb hfree, nodup_absorb (nodup_absorb hsound.log _) _⟩,
      update_self .., rfl, fun _ hother => update_of_ne hother ..,
      (beside_taken hb hdata).dinode, rfl, ?_, ?_, fun hsome => absurd hheld hsome, ?_, ?_⟩
    · rw [target_addrTaken hcons hcopy hempty hb hfree, href, update_self]
    · intro other bn'
      rw [held_addrTaken hcons hcopy hempty hb hfree, hheld]
      simp only [hsame]
      rfl
    · have hordinary : isOrdinary sb (setAddr dinode index (UInt32.ofNat b)) =
          isOrdinary sb dinode := by
        funext c
        rw [isOrdinary, isOrdinary, hnine]
      have hmem : b ∈ absorb (absorb state.logged (sb.bblock b)) b := mem_absorb_self _ _
      calc weight sb (setAddr dinode index (UInt32.ofNat b))
            (absorb (absorb (absorb state.logged (sb.bblock b)) b) b)
          = weight sb dinode (absorb (absorb state.logged (sb.bblock b)) b) := by
            rw [absorb_of_mem hmem, weight, hordinary, weight]
        _ ≤ weight sb dinode (absorb state.logged (sb.bblock b)) + 1 := weight_absorb_le _ _
        _ = weight sb dinode state.logged + 1 := by
            rw [weight_absorb_special (isOrdinary_bblock hb)]
    · have hcount : free sb (addrTaken sb state inum dinode index b
          (absorb (absorb state.logged (sb.bblock b)) b)).disk + 1 = free sb state.disk :=
        free_succ hb hfree (used_taken hb hdata)
      rw [room, room, hnine, ← hcount]
      omega

/-- The state once the indirect block is there. -/
structure Reaches (sb : Superblock) (state : State) (inum : ℕ) (dinode : Dinode) (b : ℕ)
    (dinode' : Dinode) (state' : State) : Prop where
  sound : Sound sb state'
  copy : state'.inodes inum = some dinode'
  fields : dinode' = { dinode with addrs := dinode'.addrs }
  others : ∀ other, other ≠ inum → state'.inodes other = state.inodes other
  dinodes : ∀ other < sb.ninodes, state'.disk.dinode sb other = state.disk.dinode sb other
  outstanding : state'.outstanding = state.outstanding
  indirect : dinode'.addrs 9 ≠ 0
  addr : (dinode'.addrs 9).toNat = b
  keeps : ∀ other bn, held sb state' other bn = held sb state other bn
  same : dinode.addrs 9 ≠ 0 → dinode' = dinode ∧ state' = state
  weighs : weight sb dinode' state'.logged ≤ weight sb dinode state.logged
  leaves : room sb dinode state.disk ≤ room sb dinode' state'.disk

theorem mapAddr_reaches (hsound : Sound sb state) (hcopy : state.inodes inum = some dinode) :
    Yields (mapAddr sb inum 9) state (Short sb dinode state 1) fun b state' =>
      ∃ dinode', Reaches sb state inum dinode b dinode' state' := by
  apply mapAddr_spec hcopy short_free (fun b hb => short_bitmap hsound 1 hb) short_outside
  · intro hused
    exact ⟨dinode, hsound, hcopy, rfl, fun _ _ => rfl, fun _ _ => rfl, rfl, hused, rfl,
      fun _ _ => rfl, fun _ => ⟨rfl, rfl⟩, le_rfl, le_rfl⟩
  · intro hempty b hb hfree
    have hcons := hsound.toConsistent
    have hdata := hcons.free_data hfree
    have hnumber : (UInt32.ofNat b).toNat = b := toNat_ofNat_of_lt hb
    have hnine : (setAddr dinode 9 (UInt32.ofNat b)).addrs 9 = UInt32.ofNat b :=
      addrs_setAddr_self 9 _
    have hnonzero : UInt32.ofNat b ≠ 0 := by
      intro hzero
      rw [hzero] at hnumber
      exact (sb.dataStart_pos.trans_le hdata).ne hnumber
    refine ⟨setAddr dinode 9 (UInt32.ofNat b),
      ⟨hcons.addrTaken hcopy hempty hb hfree, nodup_absorb (nodup_absorb hsound.log _) _⟩,
      update_self .., rfl, fun _ hother => update_of_ne hother ..,
      (beside_taken hb hdata).dinode, rfl, hnine ▸ hnonzero, ?_, ?_,
      fun hused => absurd hempty hused, ?_, ?_⟩
    · rw [hnine, hnumber]
    · intro other bn
      rw [held_addrTaken hcons hcopy hempty hb hfree, if_neg]
      exact fun hsame => ref_ne_indirect bn (congrArg Prod.snd hsame)
    · -- The new block is the indirect one, and was not logged as an ordinary block.
      have hindirect : (setAddr dinode 9 (UInt32.ofNat b)).addrs 9 ≠ 0 := hnine ▸ hnonzero
      have hspecial : isOrdinary sb (setAddr dinode 9 (UInt32.ofNat b)) b = false := by
        have hself : isOrdinary sb (setAddr dinode 9 (UInt32.ofNat b))
            ((setAddr dinode 9 (UInt32.ofNat b)).addrs 9).toNat = false :=
          isOrdinary_indirect hindirect
        rwa [hnine, hnumber] at hself
      have hordinary : ∀ c, isOrdinary sb (setAddr dinode 9 (UInt32.ofNat b)) c →
          isOrdinary sb dinode c := by
        intro c hc
        rw [isOrdinary, decide_eq_true_eq] at hc ⊢
        exact ⟨hc.1, fun hused => hused.1 hempty⟩
      change weight sb _ (absorb (absorb state.logged (sb.bblock b)) b) ≤ _
      rw [weight_absorb_special hspecial, weight_absorb_special (isOrdinary_bblock hb)]
      exact (monotone_filter_right state.logged hordinary).length_le
    · have hcount : free sb (addrTaken sb state inum dinode 9 b
          (absorb (absorb state.logged (sb.bblock b)) b)).disk + 1 = free sb state.disk :=
        free_succ hb hfree (used_taken hb hdata)
      rw [room, room, hnine, if_pos hempty, if_neg hnonzero, ← hcount]

/-- The indirect block first, then its entry. -/
theorem Reaches.maps {dinode' dinode'' : Dinode} {state'' : State}
    (hreaches : Reaches sb state inum dinode addr dinode' state')
    (hmaps : Maps sb state' inum dinode' bn b dinode'' state'')
    (hheld : held sb state inum bn ≠ none → dinode.addrs 9 ≠ 0) :
    Maps sb state inum dinode bn b dinode'' state'' where
  sound := hmaps.sound
  copy := hmaps.copy
  fields := by
    rw [hmaps.fields, hreaches.fields]
  others other hother := (hmaps.others other hother).trans (hreaches.others other hother)
  dinodes other hother := (hmaps.dinodes other hother).trans (hreaches.dinodes other hother)
  outstanding := hmaps.outstanding.trans hreaches.outstanding
  found := hmaps.found
  keeps other bn' := by
    rw [hmaps.keeps, hreaches.keeps, hreaches.keeps]
  same hsome := by
    obtain ⟨rfl, rfl⟩ := hreaches.same (hheld hsome)
    exact hmaps.same hsome
  weighs := hmaps.weighs.trans (Nat.add_le_add_right hreaches.weighs 1)
  leaves := hreaches.leaves.trans hmaps.leaves

theorem bmap_spec (hsound : Sound sb state) (hcopy : state.inodes inum = some dinode)
    (hbn : bn < maxFile) :
    Yields (bmap sb inum bn) state (Short sb dinode state 1) fun b state' =>
      ∃ dinode', Maps sb state inum dinode bn b dinode' state' := by
  rw [bmap]
  split_ifs with hdirect hindirect
  · apply mapAddr_maps hsound hcopy
    · rw [ref, dif_pos hdirect]
    · intro hnine
      have hvalue : bn = 9 := congrArg Fin.val hnine
      rw [ndirect] at hdirect
      omega
  · have href : ref bn = .entry (bn - ndirect) := by
      rw [ref, dif_neg hdirect]
    refine (mapAddr_reaches hsound hcopy).bind ?_
    rintro addr state' ⟨dinode', hreaches⟩
    rw [← hreaches.addr]
    refine (mapEntry_maps hreaches.sound hreaches.copy hreaches.indirect href hindirect).mono ?_ ?_
    · rintro reason (⟨rfl, hlog⟩ | ⟨rfl, hopen⟩ | ⟨rfl, hblocks⟩)
      · have hweighs := hreaches.weighs
        exact .inl ⟨rfl, by omega⟩
      · exact .inr (.inl ⟨rfl, hreaches.outstanding ▸ hopen⟩)
      · have hleaves := hreaches.leaves
        exact .inr (.inr ⟨rfl, by omega⟩)
    · intro b state'' hmaps
      refine ⟨dinode', hreaches.maps hmaps ?_⟩
      intro hsome hzero
      apply hsome
      rw [held, target_of_copy hsound.toConsistent hcopy, href, mapped, if_pos hzero]
      rfl
  · rw [maxFile] at hbn
    omega

/-- A block that is there is found without any change. -/
theorem bmap_mapped (hcopy : state.inodes inum = some dinode) (hbn : bn < maxFile)
    (hmapped : mapped state.disk dinode (ref bn) = b) (hb : b ≠ 0) :
    bmap sb inum bn state = .done b state := by
  have hget : getInode inum state = .done dinode state := getInode_done hcopy
  rw [bmap]
  split_ifs with hdirect hindirect
  · rw [ref, dif_pos hdirect, mapped] at hmapped
    have hused : dinode.addrs ⟨bn, hdirect.trans (by decide)⟩ ≠ 0 := by
      intro hzero
      rw [hzero] at hmapped
      exact hb hmapped.symm
    simp only [mapAddr, bind, Op.bind, hget, hused, if_false, hmapped]
    rfl
  · rw [ref, dif_neg hdirect, mapped] at hmapped
    split_ifs at hmapped with hzero
    · exact absurd hmapped.symm hb
    have hused : state.disk.entry (dinode.addrs 9).toNat (bn - ndirect) ≠ 0 := by
      intro hempty
      rw [hempty] at hmapped
      exact hb hmapped.symm
    simp only [mapAddr, mapEntry, bind, Op.bind, hget, hzero, if_false, pure, Op.pure,
      Op.gets, hused, hmapped]
  · rw [maxFile] at hbn
    omega

end BlockMap

end Xv6Users.BlockSpecs
