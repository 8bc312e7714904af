import Xv6Users.Core.Ownership
import Xv6Users.Kernel.Blocks

/-!
# Owners of blocks

A block of data is referenced by an address in an inode or by an entry of an indirect
block.  In a consistent file system the bits of the bitmap are those of the metadata and
of the blocks that have an owner, and no block has two.
-/

namespace Xv6Users.BlockOwners

open Contracts Buffers LittleEndian Ownership Processes Layout Blocks Function

variable {disk' : Disk} {changed : Set ℕ} {addr index b : ℕ}

/-- Where an inode refers to a block. -/
inductive Ref where
  | addr (index : Fin 10)
  | entry (index : ℕ)
  deriving DecidableEq

abbrev Place := ℕ × Ref

/-- The block number that a reference holds. -/
def mapped (disk : Disk) (dinode : Dinode) : Ref → ℕ
  | .addr index => (dinode.addrs index).toNat
  | .entry index =>
    if dinode.addrs 9 = 0 then 0
    else (disk.entry (dinode.addrs 9).toNat index).toNat

/-- Zero stands for no block. -/
def nonzero (b : ℕ) : Option ℕ :=
  if b = 0 then none else some b

theorem nonzero_eq_some {c : ℕ} : nonzero b = some c ↔ b = c ∧ c ≠ 0 := by
  rw [nonzero]
  split_ifs with hzero
  · constructor
    · exact nofun
    · rintro ⟨rfl, hc⟩
      exact absurd hzero hc
  · rw [Option.some_inj]
    constructor
    · rintro rfl
      exact ⟨rfl, hzero⟩
    · exact And.left

variable (sb : Superblock)

/-- An inode as the kernel knows it: its loaded copy, or the disk. -/
def current (state : State) (inum : ℕ) : Dinode :=
  (state.inodes inum).getD (state.disk.dinode sb inum)

def Allocated (state : State) (inum : ℕ) : Prop :=
  inum < sb.ninodes ∧ (current sb state inum).type ≠ 0
  deriving Decidable

def target (state : State) (place : Place) : Option ℕ :=
  if Allocated sb state place.1 then
    nonzero (mapped state.disk (current sb state place.1) place.2)
  else none

/-- A block that is in use by the bitmap. -/
def Used (disk : Disk) (b : ℕ) : Prop :=
  b < sb.size ∧ disk.bit sb b = true

/-- The bitmap agrees with the references, and loaded copies are of allocated inodes. -/
structure Consistent (state : State) : Prop where
  owned : Owned (· < sb.dataStart) (Used sb state.disk) (target sb state)
  copies : ∀ {inum dinode}, state.inodes inum = some dinode →
    inum < sb.ninodes ∧ dinode.type ≠ 0 ∧ (state.disk.dinode sb inum).type ≠ 0

variable {sb} {disk : Disk} {changed' : Set ℕ} {before : Dinode} {other : ℕ}

/-- The inodes are the same, and so are all data blocks but those that changed. -/
structure Beside (sb : Superblock) (changed : Set ℕ) (disk disk' : Disk) : Prop where
  dinode : ∀ inum < sb.ninodes, disk'.dinode sb inum = disk.dinode sb inum
  block : ∀ c, sb.dataStart ≤ c → c ∉ changed → disk'.block c = disk.block c

theorem Beside.trans {disk'' : Disk}
    (hfirst : Beside sb changed disk disk') (hlast : Beside sb changed' disk' disk'') :
    Beside sb (changed ∪ changed') disk disk'' where
  dinode inum hinum := (hlast.dinode inum hinum).trans (hfirst.dinode inum hinum)
  block c hc hnot := by
    rw [Set.mem_union, not_or] at hnot
    exact (hlast.block c hc hnot.2).trans (hfirst.block c hc hnot.1)

theorem Beside.mono (hbeside : Beside sb changed disk disk')
    (hsub : changed ⊆ changed') : Beside sb changed' disk disk' where
  dinode := hbeside.dinode
  block c hc hnot := hbeside.block c hc fun hmem => hnot (hsub hmem)

/-- A write into the bitmap. -/
theorem beside_bitmap (hb : b < sb.size)
    (hblock : ∀ c, c ≠ sb.bblock b → disk'.block c = disk.block c) : Beside sb ∅ disk disk' where
  dinode inum hinum := by
    apply Disk.dinode_congr
    apply hblock
    exact ((Superblock.iblock_lt hinum).trans_le (Superblock.bmapstart_le_bblock b)).ne
  block c hc _ := hblock c ((Superblock.bblock_lt hb).trans_le hc).ne'

/-- A write into a data block. -/
theorem beside_data (hb : sb.dataStart ≤ b)
    (hblock : ∀ c, c ≠ b → disk'.block c = disk.block c) : Beside sb {b} disk disk' where
  dinode inum hinum := by
    apply Disk.dinode_congr
    apply hblock
    exact ((Superblock.iblock_lt hinum).trans_le (Superblock.bmapstart_lt_dataStart.le.trans hb)).ne
  block c _ hnot := hblock c hnot

theorem bit_data {c : ℕ} (hb : sb.dataStart ≤ b) (hc : c < sb.size)
    (hblock : ∀ other, other ≠ b → disk'.block other = disk.block other) :
    disk'.bit sb c = disk.bit sb c := by
  apply Disk.bit_congr
  apply hblock
  exact ((Superblock.bblock_lt hc).trans_le hb).ne

/-- The disk after `balloc` has returned a block. -/
def taken (sb : Superblock) (disk : Disk) (b : ℕ) : Disk :=
  (disk.mark sb b).zero b

section Taken

variable {disk : Disk} {b : ℕ}

theorem beside_taken (hb : b < sb.size) (hdata : sb.dataStart ≤ b) :
    Beside sb {b} disk (taken sb disk b) := by
  have hmark : Beside sb ∅ disk (disk.mark sb b) := beside_bitmap hb fun _ => Disk.block_mark_of_ne
  have hzero : Beside sb {b} (disk.mark sb b) (taken sb disk b) :=
    beside_data hdata fun _ => Disk.block_zero_of_ne
  exact (hmark.trans hzero).mono (by rw [Set.empty_union])

theorem block_taken : (taken sb disk b).block b = List.replicate bsize 0 :=
  Disk.block_set_self _ _ _ List.length_replicate

theorem used_taken (hb : b < sb.size) (hdata : sb.dataStart ≤ b) (c : ℕ) :
    Used sb (taken sb disk b) c ↔ Used sb disk c ∨ c = b := by
  constructor
  · rintro ⟨hc, hbit⟩
    rw [taken, bit_data hdata hc fun _ => Disk.block_zero_of_ne, Disk.bit_mark,
      Bool.or_eq_true, decide_eq_true_eq] at hbit
    cases hbit with
    | inl hbefore => exact .inl ⟨hc, hbefore⟩
    | inr hsame => exact .inr hsame.symm
  · intro hused
    have hc : c < sb.size := by
      cases hused with
      | inl hbefore => exact hbefore.1
      | inr hsame => rwa [hsame]
    refine ⟨hc, ?_⟩
    rw [taken, bit_data hdata hc fun _ => Disk.block_zero_of_ne, Disk.bit_mark,
      Bool.or_eq_true, decide_eq_true_eq]
    cases hused with
    | inl hbefore => exact .inl hbefore.2
    | inr hsame => exact .inr hsame.symm

end Taken

section Targets

variable {state state' : State} {inum b : ℕ} {dinode : Dinode}

theorem current_of_copy (hcopy : state.inodes inum = some dinode) :
    current sb state inum = dinode := by
  rw [current, hcopy]
  rfl

theorem Consistent.allocated (hcons : Consistent sb state)
    (hcopy : state.inodes inum = some dinode) : Allocated sb state inum := by
  obtain ⟨hinum, htype, -⟩ := hcons.copies hcopy
  exact ⟨hinum, by rwa [current_of_copy hcopy]⟩

theorem target_of_copy (hcons : Consistent sb state)
    (hcopy : state.inodes inum = some dinode) (ref : Ref) :
    target sb state (inum, ref) = nonzero (mapped state.disk dinode ref) := by
  rw [target, if_pos (hcons.allocated hcopy), current_of_copy hcopy]

/-- A block with an owner is a data block. -/
theorem Consistent.data (hcons : Consistent sb state) {place : Place}
    (htarget : target sb state place = some b) : sb.dataStart ≤ b ∧ Used sb state.disk b :=
  ⟨not_lt.1 (hcons.owned.open_of_target htarget), hcons.owned.used_of_target htarget⟩

/-- A free block is a data block. -/
theorem Consistent.free_data (hcons : Consistent sb state) (hfree : ¬ Used sb state.disk b) :
    sb.dataStart ≤ b := by
  by_contra hmeta
  exact hfree ((hcons.owned.used_iff b).2 (.inl (not_le.1 hmeta)))

/-- An indirect block is owned by its inode. -/
theorem target_indirect (halloc : Allocated sb state inum)
    (hindirect : (current sb state inum).addrs 9 ≠ 0) :
    target sb state (inum, .addr 9) = some ((current sb state inum).addrs 9).toNat := by
  rw [target, if_pos halloc, nonzero_eq_some]
  refine ⟨rfl, fun hzero => hindirect ?_⟩
  exact UInt32.toNat_inj.1 hzero

theorem Consistent.target_indirect_copy (hcons : Consistent sb state)
    (hcopy : state.inodes inum = some dinode) (hindirect : dinode.addrs 9 ≠ 0) :
    target sb state (inum, .addr 9) = some (dinode.addrs 9).toNat := by
  have hcurrent : current sb state inum = dinode := current_of_copy hcopy
  rw [← hcurrent]
  exact target_indirect (hcons.allocated hcopy) (hcurrent ▸ hindirect)

theorem mapped_beside (hbeside : Beside sb changed disk disk') (hindirect : dinode.addrs 9 ≠ 0 →
      sb.dataStart ≤ (dinode.addrs 9).toNat ∧ (dinode.addrs 9).toNat ∉ changed) (ref : Ref) :
    mapped disk' dinode ref = mapped disk dinode ref := by
  cases ref with
  | addr index => rfl
  | entry index =>
    rw [mapped, mapped]
    split_ifs with hzero
    · rfl
    · obtain ⟨hdata, hnot⟩ := hindirect hzero
      rw [Disk.entry, Disk.entry, hbeside.block _ hdata hnot]

/-- The targets of an inode stay the same if its indirect block does. -/
theorem target_beside (hcons : Consistent sb state)
    (hbeside : Beside sb changed state.disk state'.disk)
    (hcurrent : current sb state' inum = current sb state inum)
    (hindirect : ∀ {c}, target sb state (inum, .addr 9) = some c → c ∉ changed) (ref : Ref) :
    target sb state' (inum, ref) = target sb state (inum, ref) := by
  have hsame : Allocated sb state' inum ↔ Allocated sb state inum := by
    rw [Allocated, Allocated, hcurrent]
  rw [target, target]
  by_cases halloc : Allocated sb state inum
  · rw [if_pos halloc, if_pos (hsame.2 halloc), hcurrent, mapped_beside hbeside]
    intro hne
    have htarget := target_indirect halloc hne
    exact ⟨(hcons.data htarget).1, hindirect htarget⟩
  · rw [if_neg halloc, if_neg fun h => halloc (hsame.1 h)]

theorem current_beside (hbeside : Beside sb changed state.disk state'.disk)
    (hcopy : state'.inodes inum = state.inodes inum) (hinum : inum < sb.ninodes) :
    current sb state' inum = current sb state inum := by
  rw [current, current, hcopy, hbeside.dinode inum hinum]

/-- The targets of an inode that does not exist. -/
theorem target_of_le (hinum : sb.ninodes ≤ inum) (ref : Ref) : target sb state (inum, ref) = none :=
  if_neg fun halloc => not_le.2 halloc.1 hinum

/-- The copies after a change that keeps the inodes on disk and the types. -/
theorem Consistent.copies_beside (hcons : Consistent sb state)
    (hbeside : Beside sb changed state.disk state'.disk)
    (htypes : ∀ {other found}, state'.inodes other = some found →
      ∃ before, state.inodes other = some before ∧ found.type = before.type) {found : Dinode}
    (hfound : state'.inodes inum = some found) :
    inum < sb.ninodes ∧ found.type ≠ 0 ∧ (state'.disk.dinode sb inum).type ≠ 0 := by
  obtain ⟨before, hbefore, htype⟩ := htypes hfound
  obtain ⟨hinum, hnonzero, hdisk⟩ := hcons.copies hbefore
  rw [hbeside.dinode inum hinum, htype]
  exact ⟨hinum, hnonzero, hdisk⟩

theorem toNat_ofNat_of_lt (hb : b < sb.size) : (UInt32.ofNat b).toNat = b := by
  exact Nat.mod_eq_of_lt (hb.trans (sb.size_lt.trans (by norm_num)))

end Targets

section Fields

variable {state state' : State} {inum : ℕ} {dinode : Dinode}

/-- The addresses of all inodes are the same, and so is which inodes are allocated. -/
def SameAddrs (sb : Superblock) (state state' : State) : Prop :=
  ∀ inum < sb.ninodes, (current sb state' inum).addrs = (current sb state inum).addrs ∧
    ((current sb state' inum).type = 0 ↔ (current sb state inum).type = 0)

theorem target_fields (hcons : Consistent sb state) (haddrs : SameAddrs sb state state')
    (hblock : ∀ b, sb.bmapstart ≤ b → state'.disk.block b = state.disk.block b)
    (place : Place) : target sb state' place = target sb state place := by
  obtain ⟨other, ref⟩ := place
  by_cases hother : other < sb.ninodes
  · obtain ⟨hsame, htype⟩ := haddrs other hother
    have hiff : Allocated sb state' other ↔ Allocated sb state other := by
      rw [Allocated, Allocated, ne_eq, ne_eq, htype]
    rw [target, target]
    by_cases halloc : Allocated sb state other
    · rw [if_pos halloc, if_pos (hiff.2 halloc)]
      congr 1
      cases ref with
      | addr index => rw [mapped, mapped, hsame]
      | entry index =>
        rw [mapped, mapped, hsame]
        split_ifs with hzero
        · rfl
        · have hdata := (hcons.data (target_indirect halloc hzero)).1
          rw [Disk.entry, Disk.entry, hblock _ (Superblock.bmapstart_lt_dataStart.le.trans hdata)]
    · rw [if_neg halloc, if_neg fun h => halloc (hiff.1 h)]
  · rw [target_of_le (not_lt.1 hother), target_of_le (not_lt.1 hother)]

theorem used_fields (hblock : ∀ b, sb.bmapstart ≤ b → state'.disk.block b = state.disk.block b)
    (b : ℕ) : Used sb state'.disk b ↔ Used sb state.disk b := by
  rw [Used, Used, Disk.bit_congr (hblock _ (Superblock.bmapstart_le_bblock b))]

theorem Consistent.owned_fields (hcons : Consistent sb state) (haddrs : SameAddrs sb state state')
    (hblock : ∀ b, sb.bmapstart ≤ b → state'.disk.block b = state.disk.block b) :
    Owned (· < sb.dataStart) (Used sb state'.disk) (target sb state') :=
  hcons.owned.congr (used_fields hblock) (target_fields hcons haddrs hblock)

/-- The copy of an inode is replaced and written to the disk. -/
def stored (sb : Superblock) (state : State) (inum : ℕ) (dinode : Dinode)
    (logged : List ℕ) : State :=
  { state with
    disk := state.disk.putDinode sb inum dinode
    logged := logged
    inodes := update state.inodes inum (some dinode) }

theorem block_stored (hinum : inum < sb.ninodes) (logged : List ℕ) (b : ℕ) (hb : sb.bmapstart ≤ b) :
    (stored sb state inum dinode logged).disk.block b = state.disk.block b :=
  Disk.block_patch_of_ne ((Superblock.iblock_lt hinum).trans_le hb).ne' _ _

theorem current_stored_self (logged : List ℕ) :
    current sb (stored sb state inum dinode logged) inum = dinode :=
  current_of_copy (update_self ..)

theorem current_stored_of_ne (hother : other ≠ inum) (logged : List ℕ) :
    current sb (stored sb state inum dinode logged) other = current sb state other := by
  have hcopy : (stored sb state inum dinode logged).inodes other = state.inodes other :=
    update_of_ne hother ..
  have hdisk : (stored sb state inum dinode logged).disk.dinode sb other =
      state.disk.dinode sb other := Disk.dinode_putDinode_of_ne hother _
  rw [current, current, hcopy, hdisk]

theorem sameAddrs_stored (hcopy : state.inodes inum = some before)
    (haddrs : dinode.addrs = before.addrs) (htype : dinode.type = 0 ↔ before.type = 0)
    (logged : List ℕ) : SameAddrs sb state (stored sb state inum dinode logged) := by
  intro other _
  by_cases hother : other = inum
  · subst hother
    rw [current_stored_self, current_of_copy hcopy]
    exact ⟨haddrs, htype⟩
  · rw [current_stored_of_ne hother]
    exact ⟨rfl, Iff.rfl⟩

theorem Consistent.stored (hcons : Consistent sb state)
    (hcopy : state.inodes inum = some before) (haddrs : dinode.addrs = before.addrs)
    (htype : dinode.type ≠ 0) (logged : List ℕ) :
    Consistent sb (stored sb state inum dinode logged) := by
  obtain ⟨hinum, hbefore, -⟩ := hcons.copies hcopy
  have hsame : SameAddrs sb state (BlockOwners.stored sb state inum dinode logged) :=
    sameAddrs_stored hcopy haddrs (iff_of_false htype hbefore) logged
  refine ⟨hcons.owned_fields hsame (block_stored hinum logged), ?_⟩
  intro other found hfound
  by_cases hother : other = inum
  · subst hother
    have hdisk : (BlockOwners.stored sb state other dinode logged).disk.dinode sb other =
        dinode := Disk.dinode_putDinode_self _ _
    rw [hdisk]
    have hself : (BlockOwners.stored sb state other dinode logged).inodes other =
        some dinode := update_self ..
    rw [hself] at hfound
    cases hfound
    exact ⟨hinum, htype, htype⟩
  · have hdisk : (BlockOwners.stored sb state inum dinode logged).disk.dinode sb other =
        state.disk.dinode sb other := Disk.dinode_putDinode_of_ne hother _
    rw [hdisk]
    exact hcons.copies ((update_of_ne hother ..).symm.trans hfound)

end Fields

def setAddr (dinode : Dinode) (index : Fin 10) (value : UInt32) : Dinode :=
  { dinode with addrs := update dinode.addrs index value }

section Acquire

variable {state : State} {inum b : ℕ} {dinode : Dinode} {logged : List ℕ}

def addrTaken (sb : Superblock) (state : State) (inum : ℕ) (dinode : Dinode)
    (index : Fin 10) (b : ℕ) (logged : List ℕ) : State :=
  { state with
    disk := taken sb state.disk b
    logged := logged
    inodes := update state.inodes inum
      (some (setAddr dinode index (UInt32.ofNat b))) }

theorem addrs_setAddr_of_ne {index other : Fin 10} (hother : other ≠ index)
    (value : UInt32) : (setAddr dinode index value).addrs other = dinode.addrs other :=
  update_of_ne hother ..

theorem addrs_setAddr_self (index : Fin 10) (value : UInt32) :
    (setAddr dinode index value).addrs index = value := update_self ..

/-- A new address changes alone, also if it is that of an indirect block. -/
theorem mapped_setAddr {index : Fin 10} (hempty : dinode.addrs index = 0)
    (hb : b < sb.size) (hdata : sb.dataStart ≤ b)
    (hindirect : dinode.addrs 9 ≠ 0 →
      sb.dataStart ≤ (dinode.addrs 9).toNat ∧ (dinode.addrs 9).toNat ∉ ({b} : Set ℕ)) (ref : Ref) :
    mapped (taken sb disk b) (setAddr dinode index (UInt32.ofNat b)) ref =
      if ref = .addr index then b else mapped disk dinode ref := by
  have hnumber := toNat_ofNat_of_lt hb
  have hpos : b ≠ 0 := (sb.dataStart_pos.trans_le hdata).ne'
  cases ref with
  | addr other =>
    by_cases hother : other = index
    · subst hother
      rw [if_pos rfl, mapped, addrs_setAddr_self, hnumber]
    · have hne : Ref.addr other ≠ .addr index := fun h => hother (Ref.addr.inj h)
      rw [if_neg hne, mapped, addrs_setAddr_of_ne hother, mapped]
  | entry slot =>
    have hne : Ref.entry slot ≠ .addr index := nofun
    rw [if_neg hne]
    by_cases hnine : index = 9
    · -- The new indirect block is zero.
      subst hnine
      have hnonzero : UInt32.ofNat b ≠ 0 := by
        intro hzero
        rw [hzero] at hnumber
        exact hpos hnumber.symm
      rw [mapped, addrs_setAddr_self, if_neg hnonzero, hnumber, Disk.entry, block_taken,
        word32_zero, mapped, if_pos hempty]
      rfl
    · have hbeside : Beside sb {b} disk (taken sb disk b) := beside_taken hb hdata
      rw [← mapped_beside hbeside hindirect (.entry slot), mapped, mapped,
        addrs_setAddr_of_ne (Ne.symm hnine)]

theorem target_addrTaken (hcons : Consistent sb state)
    (hcopy : state.inodes inum = some dinode) {index : Fin 10} (hempty : dinode.addrs index = 0)
    (hb : b < sb.size) (hfree : ¬ Used sb state.disk b) :
    target sb (addrTaken sb state inum dinode index b logged) =
      update (target sb state) (inum, .addr index) (some b) := by
  have hdata := hcons.free_data hfree
  have hbeside : Beside sb {b} state.disk (taken sb state.disk b) := beside_taken hb hdata
  have hnot : ∀ {place c}, target sb state place = some c → c ∉ ({b} : Set ℕ) := by
    rintro place c htarget rfl
    exact hfree (hcons.data htarget).2
  funext ⟨other, ref⟩
  by_cases hother : other = inum
  · subst hother
    have hcopy' : (addrTaken sb state other dinode index b logged).inodes other =
        some (setAddr dinode index (UInt32.ofNat b)) := update_self ..
    have halloc : Allocated sb (addrTaken sb state other dinode index b logged) other := by
      refine ⟨(hcons.copies hcopy).1, ?_⟩
      rw [current_of_copy hcopy']
      exact (hcons.copies hcopy).2.1
    have hindirect : dinode.addrs 9 ≠ 0 →
        sb.dataStart ≤ (dinode.addrs 9).toNat ∧ (dinode.addrs 9).toNat ∉ ({b} : Set ℕ) := by
      intro hne
      have htarget := hcons.target_indirect_copy hcopy hne
      exact ⟨(hcons.data htarget).1, hnot htarget⟩
    rw [target, if_pos halloc, current_of_copy hcopy']
    change nonzero (mapped (taken sb state.disk b) _ ref) = _
    rw [mapped_setAddr hempty hb hdata hindirect]
    by_cases href : ref = .addr index
    · subst href
      rw [if_pos rfl, update_self, nonzero, if_neg (sb.dataStart_pos.trans_le hdata).ne']
    · have hplace : ((other, ref) : Place) ≠ (other, .addr index) :=
        fun hsame => href (congrArg Prod.snd hsame)
      rw [if_neg href, update_of_ne hplace, target_of_copy hcons hcopy]
  · have hplace : ((other, ref) : Place) ≠ (inum, .addr index) := by
      intro hsame
      exact hother (congrArg Prod.fst hsame)
    rw [update_of_ne hplace]
    by_cases hinum : other < sb.ninodes
    · apply target_beside hcons hbeside _ hnot
      exact current_beside hbeside (update_of_ne hother ..) hinum
    · rw [target_of_le (not_lt.1 hinum), target_of_le (not_lt.1 hinum)]

theorem Consistent.addrTaken (hcons : Consistent sb state)
    (hcopy : state.inodes inum = some dinode) {index : Fin 10} (hempty : dinode.addrs index = 0)
    (hb : b < sb.size) (hfree : ¬ Used sb state.disk b) :
    Consistent sb (addrTaken sb state inum dinode index b logged) := by
  have hdata := hcons.free_data hfree
  have hnone : target sb state (inum, .addr index) = none := by
    rw [target_of_copy hcons hcopy, mapped, hempty]
    rfl
  refine ⟨?_, ?_⟩
  · apply (hcons.owned.acquire hnone hfree).congr
    · exact used_taken hb hdata
    · intro place
      rw [target_addrTaken hcons hcopy hempty hb hfree]
  · have hbeside : Beside sb {b} state.disk
        (BlockOwners.addrTaken sb state inum dinode index b logged).disk := beside_taken hb hdata
    intro _ _ hcopies
    refine hcons.copies_beside hbeside ?_ hcopies
    intro other found hfound
    by_cases hother : other = inum
    · rw [hother] at hfound ⊢
      cases (update_self inum _ state.inodes).symm.trans hfound
      exact ⟨dinode, hcopy, rfl⟩
    · exact ⟨found, (update_of_ne hother ..).symm.trans hfound, rfl⟩

def entryTaken (sb : Superblock) (state : State) (addr index b : ℕ) (logged : List ℕ) : State :=
  { state with
    disk := (taken sb state.disk b).patch addr (4 * index) (bytes32 (UInt32.ofNat b))
    logged := logged }

theorem beside_entryTaken (hb : b < sb.size) (hdata : sb.dataStart ≤ b)
    (haddr : sb.dataStart ≤ addr) :
    Beside sb ({b} ∪ {addr}) state.disk (entryTaken sb state addr index b logged).disk :=
  (beside_taken hb hdata).trans
    (beside_data haddr fun _ hother => Disk.block_patch_of_ne hother _ _)

theorem used_entryTaken (hb : b < sb.size) (hdata : sb.dataStart ≤ b)
    (haddr : sb.dataStart ≤ addr) (c : ℕ) :
    Used sb (entryTaken sb state addr index b logged).disk c ↔ Used sb state.disk c ∨ c = b := by
  rw [← used_taken hb hdata]
  apply and_congr_right
  intro hc
  have hbit : (entryTaken sb state addr index b logged).disk.bit sb c =
      (taken sb state.disk b).bit sb c :=
    bit_data haddr hc fun _ hother => Disk.block_patch_of_ne hother _ _
  rw [hbit]

theorem entry_patch_self (hindex : index < nindirect) (value : UInt32) :
    (disk.patch addr (4 * index) (bytes32 value)).entry addr index = value := by
  have hfits : 4 * index + (bytes32 value).length ≤ (disk.block addr).length := by
    rw [length_bytes32, disk.whole]
    simp only [nindirect, bsize] at hindex ⊢
    omega
  have hfield := field_overlay_self hfits
  rw [length_bytes32] at hfield
  rw [Disk.entry, Disk.block_patch_self, word32, hfield, word32_bytes32]

theorem entry_patch_of_ne (hother : other ≠ index) (value : UInt32) :
    (disk.patch addr (4 * index) (bytes32 value)).entry addr other = disk.entry addr other := by
  rw [Disk.entry, Disk.block_patch_self, word32, field_overlay_of_disjoint]
  · rfl
  · rw [length_bytes32]
    omega

/-- Another entry of the indirect block changes nothing, and the new one is found. -/
theorem mapped_entryTaken (hindex : index < nindirect)
    (hindirect : dinode.addrs 9 ≠ 0) (hb : b < sb.size) (hdata : sb.dataStart ≤ b)
    (haddr : sb.dataStart ≤ (dinode.addrs 9).toNat) (hne : (dinode.addrs 9).toNat ≠ b) (ref : Ref) :
    mapped ((taken sb disk b).patch (dinode.addrs 9).toNat (4 * index)
        (bytes32 (UInt32.ofNat b))) dinode ref =
      if ref = .entry index then b else mapped disk dinode ref := by
  cases ref with
  | addr other => rfl
  | entry other =>
    have hbeside : Beside sb {b} disk (taken sb disk b) := beside_taken hb hdata
    rw [mapped, if_neg hindirect]
    by_cases hother : other = index
    · subst hother
      rw [if_pos rfl, entry_patch_self hindex, toNat_ofNat_of_lt hb]
    · have href : Ref.entry other ≠ .entry index := fun h => hother (Ref.entry.inj h)
      rw [if_neg href, mapped, if_neg hindirect, entry_patch_of_ne hother, Disk.entry,
        Disk.entry, hbeside.block _ haddr hne]

theorem target_entryTaken (hcons : Consistent sb state) (hcopy : state.inodes inum = some dinode)
    (hindirect : dinode.addrs 9 ≠ 0) (hindex : index < nindirect) (hb : b < sb.size)
    (hfree : ¬ Used sb state.disk b) :
    target sb (entryTaken sb state (dinode.addrs 9).toNat index b logged) =
      update (target sb state) (inum, .entry index) (some b) := by
  have hdata := hcons.free_data hfree
  have howner := hcons.target_indirect_copy hcopy hindirect
  have haddr := (hcons.data howner).1
  have hne : (dinode.addrs 9).toNat ≠ b := by
    rintro rfl
    exact hfree (hcons.data howner).2
  have hbeside : Beside sb ({b} ∪ {(dinode.addrs 9).toNat}) state.disk
      (entryTaken sb state (dinode.addrs 9).toNat index b logged).disk :=
    beside_entryTaken hb hdata haddr
  funext ⟨other, ref⟩
  by_cases hother : other = inum
  · subst hother
    have hcopy' : (entryTaken sb state (dinode.addrs 9).toNat index b logged).inodes other =
        some dinode := hcopy
    have halloc : Allocated sb (entryTaken sb state (dinode.addrs 9).toNat index b logged)
        other := by
      refine ⟨(hcons.copies hcopy).1, ?_⟩
      rw [current_of_copy hcopy']
      exact (hcons.copies hcopy).2.1
    rw [target, if_pos halloc, current_of_copy hcopy']
    change nonzero (mapped ((taken sb state.disk b).patch _ _ _) dinode ref) = _
    rw [mapped_entryTaken hindex hindirect hb hdata haddr hne]
    by_cases href : ref = .entry index
    · subst href
      rw [if_pos rfl, update_self, nonzero, if_neg (sb.dataStart_pos.trans_le hdata).ne']
    · have hplace : ((other, ref) : Place) ≠ (other, .entry index) :=
        fun hsame => href (congrArg Prod.snd hsame)
      rw [if_neg href, update_of_ne hplace, target_of_copy hcons hcopy]
  · have hplace : ((other, ref) : Place) ≠ (inum, .entry index) :=
      fun hsame => hother (congrArg Prod.fst hsame)
    rw [update_of_ne hplace]
    by_cases hinum : other < sb.ninodes
    · apply target_beside hcons hbeside (current_beside hbeside rfl hinum)
      rintro c htarget (rfl | rfl)
      · exact hfree (hcons.data htarget).2
      · exact hother (congrArg Prod.fst (hcons.owned.unique htarget howner))
    · rw [target_of_le (not_lt.1 hinum), target_of_le (not_lt.1 hinum)]

theorem Consistent.entryTaken (hcons : Consistent sb state)
    (hcopy : state.inodes inum = some dinode) (hindirect : dinode.addrs 9 ≠ 0)
    (hindex : index < nindirect) (hempty : state.disk.entry (dinode.addrs 9).toNat index = 0)
    (hb : b < sb.size) (hfree : ¬ Used sb state.disk b) :
    Consistent sb (entryTaken sb state (dinode.addrs 9).toNat index b logged) := by
  have hdata := hcons.free_data hfree
  have howner := hcons.target_indirect_copy hcopy hindirect
  have haddr := (hcons.data howner).1
  have hnone : target sb state (inum, .entry index) = none := by
    rw [target_of_copy hcons hcopy, mapped, if_neg hindirect, hempty]
    rfl
  refine ⟨?_, ?_⟩
  · apply (hcons.owned.acquire hnone hfree).congr
    · exact used_entryTaken hb hdata haddr
    · intro place
      rw [target_entryTaken hcons hcopy hindirect hindex hb hfree]
  · have hbeside : Beside sb ({b} ∪ {(dinode.addrs 9).toNat}) state.disk
        (BlockOwners.entryTaken sb state (dinode.addrs 9).toNat index b logged).disk :=
      beside_entryTaken hb hdata haddr
    intro _ _ hcopies
    exact hcons.copies_beside hbeside (fun {_ found} hfound => ⟨found, hfound, rfl⟩) hcopies

end Acquire

end Xv6Users.BlockOwners
