import Xv6Users.Tools.Mkfs

/-!
# Blocks of the image

Each block that `mkfs` has given away belongs to one inode, as an address of it or as an
entry of its indirect block, and the blocks that are left are zero.  So an inode can be
given a new block, and bytes can be written into one, without any other inode changing.
-/

namespace Xv6Users.Mkfs

open Buffers LittleEndian Processes Layout Function
open Ownership
open Blocks hiding ialloc balloc
open BlockOwners hiding target
open BlockSpecs hiding held

variable {index : Fin 10} {place : Place}

def assigned (disk : Disk) (dinodes : ℕ → Dinode) (count : ℕ) (place : Place) : Option ℕ :=
  if 1 ≤ place.1 ∧ place.1 < count then nonzero (mapped disk (dinodes place.1) place.2)
  else none

/-- The blocks below `free` are metadata or have one place; the others are zero. -/
structure Laid (disk : Disk) (dinodes : ℕ → Dinode) (count free : ℕ) : Prop where
  owned : Owned (· < nmeta) (· < free) (assigned disk dinodes count)
  fresh : ∀ b, free ≤ b → disk.block b = zeros

section Places

variable {disk disk' : Disk} {dinodes dinodes' : ℕ → Dinode} {dinode dinode' : Dinode}
  {count free inum b : ℕ}

theorem Laid.bounds (hlaid : Laid disk dinodes count free)
    (hplace : assigned disk dinodes count place = some b) : nmeta ≤ b ∧ b < free :=
  ⟨not_lt.1 (hlaid.owned.open_of_target hplace), hlaid.owned.used_of_target hplace⟩

theorem Laid.start (hlaid : Laid disk dinodes count free) : nmeta ≤ free := by
  have hlast := (hlaid.owned.used_iff 39).2 (.inl (by decide))
  exact hlast

theorem Laid.pos (hlaid : Laid disk dinodes count free) : free ≠ 0 := by
  have hstart := hlaid.start
  rw [nmeta] at hstart
  omega

theorem assigned_of_mapped (hinum : 1 ≤ inum ∧ inum < count) (reference : Ref)
    (hb : mapped disk (dinodes inum) reference ≠ 0) :
    assigned disk dinodes count (inum, reference) =
      some (mapped disk (dinodes inum) reference) := by
  rw [assigned, if_pos hinum]
  exact nonzero_eq_some.2 ⟨rfl, hb⟩

/-- The indirect block of an inode. -/
theorem assigned_indirect (hinum : 1 ≤ inum ∧ inum < count)
    (hindirect : (dinodes inum).addrs 9 ≠ 0) :
    assigned disk dinodes count (inum, .addr 9) = some ((dinodes inum).addrs 9).toNat := by
  apply assigned_of_mapped hinum
  intro hzero
  exact hindirect (UInt32.toNat_inj.1 hzero)

theorem mapped_congr (haddrs : dinode'.addrs = dinode.addrs) (hblock : dinode.addrs 9 ≠ 0 →
      disk'.block (dinode.addrs 9).toNat = disk.block (dinode.addrs 9).toNat)
    (reference : Ref) : mapped disk' dinode' reference = mapped disk dinode reference := by
  cases reference with
  | addr index => rw [mapped, mapped, haddrs]
  | entry index =>
    rw [mapped, mapped, haddrs]
    by_cases hzero : dinode.addrs 9 = 0
    · rw [if_pos hzero, if_pos hzero]
    · rw [if_neg hzero, if_neg hzero, Disk.entry, Disk.entry, hblock hzero]

/-- Places depend on addresses and on indirect blocks. -/
theorem assigned_congr
    (haddrs : ∀ inum, 1 ≤ inum ∧ inum < count → (dinodes' inum).addrs = (dinodes inum).addrs)
    (hblock : ∀ inum, 1 ≤ inum ∧ inum < count → ∀ b,
      assigned disk dinodes count (inum, .addr 9) = some b → disk'.block b = disk.block b) :
    assigned disk' dinodes' count = assigned disk dinodes count := by
  funext ⟨inum, reference⟩
  by_cases hinum : 1 ≤ inum ∧ inum < count
  · rw [assigned, assigned, if_pos hinum, if_pos hinum,
      mapped_congr (haddrs inum hinum) fun hindirect =>
        hblock inum hinum _ (assigned_indirect hinum hindirect)]
  · rw [assigned, assigned, if_neg hinum, if_neg hinum]

/-- Inodes and the bitmap lie below the blocks of files. -/
theorem Laid.low (hlaid : Laid disk dinodes count free)
    (hblock : ∀ b, nmeta ≤ b → disk'.block b = disk.block b)
    (haddrs : ∀ inum, 1 ≤ inum ∧ inum < count → (dinodes' inum).addrs = (dinodes inum).addrs) :
    assigned disk' dinodes' count = assigned disk dinodes count ∧
      Laid disk' dinodes' count free := by
  have hsame : assigned disk' dinodes' count = assigned disk dinodes count :=
    assigned_congr haddrs fun _ _ _ hplace => hblock _ (hlaid.bounds hplace).1
  refine ⟨hsame, ?_, ?_⟩
  · rw [hsame]
    exact hlaid.owned
  · intro b hb
    rw [hblock b (hlaid.start.trans hb)]
    exact hlaid.fresh b hb

end Places

section Blocks

variable {disk : Disk} {dinodes : ℕ → Dinode} {dinode : Dinode} {count free inum : ℕ}

theorem toNat_ofNat_of_small (hfree : free ≤ 2 * fssize) : (UInt32.ofNat free).toNat = free := by
  rw [UInt32.toNat_ofNat', Nat.mod_eq_of_lt]
  rw [fssize] at hfree
  omega

theorem Laid.acquire (hlaid : Laid disk dinodes count free) {disk' : Disk} {dinodes' : ℕ → Dinode}
    (hempty : assigned disk dinodes count place = none) (hplace : assigned disk' dinodes' count =
      update (assigned disk dinodes count) place (some free))
    (hfresh : ∀ b, free + 1 ≤ b → disk'.block b = disk.block b) :
    Laid disk' dinodes' count (free + 1) := by
  have hacquired := hlaid.owned.acquire hempty (lt_irrefl free)
  constructor
  · rw [hplace]
    apply hacquired.congr _ (fun _ => rfl)
    intro b
    omega
  · intro b hb
    rw [hfresh b hb]
    exact hlaid.fresh b (by omega)

/-- A new address, which may be that of an empty indirect block. -/
theorem mapped_newAddr (hempty : dinode.addrs index = 0) (hfree : free ≤ 2 * fssize)
    (hpos : free ≠ 0) (hzero : disk.block free = zeros) (reference : Ref) :
    mapped disk (setAddr dinode index (UInt32.ofNat free)) reference =
      if reference = .addr index then free else mapped disk dinode reference := by
  have hnumber := toNat_ofNat_of_small hfree
  cases reference with
  | addr other =>
    by_cases hother : other = index
    · rw [hother, if_pos rfl, mapped, addrs_setAddr_self, hnumber]
    · rw [if_neg (fun hsame => hother (Ref.addr.inj hsame)), mapped,
        addrs_setAddr_of_ne hother, mapped]
  | entry slot =>
    rw [if_neg (by rintro ⟨⟩), mapped, mapped]
    by_cases hnine : index = 9
    · subst hnine
      have hset : UInt32.ofNat free ≠ 0 := by
        intro hnone
        rw [hnone] at hnumber
        exact hpos hnumber.symm
      rw [addrs_setAddr_self, if_neg hset, if_pos hempty, hnumber, Disk.entry, hzero, zeros,
        word32_zero]
      rfl
    · rw [addrs_setAddr_of_ne (Ne.symm hnine)]

theorem assigned_newAddr (hlaid : Laid disk dinodes count free) (hinum : 1 ≤ inum ∧ inum < count)
    (hempty : (dinodes inum).addrs index = 0) (hfree : free ≤ 2 * fssize) :
    assigned disk (update dinodes inum (setAddr (dinodes inum) index (UInt32.ofNat free))) count =
      update (assigned disk dinodes count) (inum, .addr index) (some free) := by
  have hpos := hlaid.pos
  funext ⟨other, reference⟩
  by_cases hother : other = inum
  · subst hother
    rw [assigned, if_pos hinum, update_self,
      mapped_newAddr hempty hfree hpos (hlaid.fresh free le_rfl)]
    by_cases href : reference = .addr index
    · rw [if_pos href, href, update_self]
      exact nonzero_eq_some.2 ⟨rfl, hpos⟩
    · rw [if_neg href, update_of_ne (fun hsame => href (congrArg Prod.snd hsame)),
        assigned, if_pos hinum]
  · rw [update_of_ne (fun hsame => hother (congrArg Prod.fst hsame)), assigned,
      assigned, update_of_ne hother]

theorem assigned_addr_none (hempty : (dinodes inum).addrs index = 0) :
    assigned disk dinodes count (inum, .addr index) = none := by
  rw [assigned]
  split_ifs
  · rw [mapped, hempty]
    rfl
  · rfl

/-- A new entry of the indirect block. -/
theorem mapped_newEntry {index : ℕ} (hindex : index < nindirect)
    (hindirect : dinode.addrs 9 ≠ 0) (hfree : free ≤ 2 * fssize) (reference : Ref) :
    mapped (disk.patch (dinode.addrs 9).toNat (4 * index) (bytes32 (UInt32.ofNat free)))
        dinode reference =
      if reference = .entry index then free else mapped disk dinode reference := by
  cases reference with
  | addr other => rw [if_neg (by exact nofun), mapped, mapped]
  | entry other =>
    rw [mapped, if_neg hindirect]
    by_cases hother : other = index
    · rw [hother, if_pos rfl, entry_patch_self hindex, toNat_ofNat_of_small hfree]
    · rw [if_neg (fun hsame => hother (Ref.entry.inj hsame)), mapped, if_neg hindirect,
        entry_patch_of_ne hother]

theorem assigned_newEntry (hlaid : Laid disk dinodes count free)
    (hinum : 1 ≤ inum ∧ inum < count) {index : ℕ} (hindex : index < nindirect)
    (hindirect : (dinodes inum).addrs 9 ≠ 0) (hfree : free ≤ 2 * fssize) :
    assigned (disk.patch ((dinodes inum).addrs 9).toNat (4 * index)
        (bytes32 (UInt32.ofNat free))) dinodes count =
      update (assigned disk dinodes count) (inum, .entry index) (some free) := by
  have hpos := hlaid.pos
  have howner : assigned disk dinodes count (inum, .addr 9) =
    some ((dinodes inum).addrs 9).toNat := assigned_indirect hinum hindirect
  funext ⟨other, reference⟩
  by_cases hother : other = inum
  · subst hother
    rw [assigned, if_pos hinum, mapped_newEntry hindex hindirect hfree]
    by_cases href : reference = .entry index
    · rw [if_pos href, href, update_self]
      exact nonzero_eq_some.2 ⟨rfl, hpos⟩
    · rw [if_neg href, update_of_ne (fun hsame => href (congrArg Prod.snd hsame)),
        assigned, if_pos hinum]
  · rw [update_of_ne (fun hsame => hother (congrArg Prod.fst hsame)), assigned,
      assigned]
    by_cases hthere : 1 ≤ other ∧ other < count
    · rw [if_pos hthere, if_pos hthere, mapped_congr rfl]
      intro hnine
      apply Disk.block_patch_of_ne
      intro hsame
      have hplace := hlaid.owned.unique (hsame ▸ assigned_indirect hthere hnine) howner
      exact hother (congrArg Prod.fst hplace)
    · rw [if_neg hthere, if_neg hthere]

/-- Bytes are written into a block that is no indirect block. -/
theorem Laid.patch (hlaid : Laid disk dinodes count free) {x : ℕ}
    (hplace : assigned disk dinodes count place = some x) (hdata : place.2 ≠ .addr 9) (off : ℕ)
    (src : List Byte) :
    assigned (disk.patch x off src) dinodes count = assigned disk dinodes count ∧
      Laid (disk.patch x off src) dinodes count free := by
  have hsame : assigned (disk.patch x off src) dinodes count = assigned disk dinodes count := by
    apply assigned_congr (fun _ _ => rfl)
    intro inum _ b hb
    apply Disk.block_patch_of_ne
    rintro rfl
    exact hdata (congrArg Prod.snd (hlaid.owned.unique hplace hb))
  refine ⟨hsame, ?_, ?_⟩
  · rw [hsame]
    exact hlaid.owned
  · intro b hb
    rw [Disk.block_patch_of_ne]
    · exact hlaid.fresh b hb
    · exact ((hlaid.bounds hplace).2.trans_le hb).ne'

end Blocks

/-- The bytes of the inodes are in their blocks. -/
def Stored (disk : Disk) (dinodes : ℕ → Dinode) (count : ℕ) (files : ℕ → List Byte) : Prop :=
  ∀ inum, 1 ≤ inum ∧ inum < count → ∀ position < (files inum).length,
    ∃ b, assigned disk dinodes count (inum, ref (position / bsize)) = some b ∧
      (disk.block b)[position % bsize]? = (files inum)[position]?

section Bytes

variable {disk disk' : Disk} {dinodes dinodes' : ℕ → Dinode} {count free inum : ℕ}
  {files : ℕ → List Byte}

/-- Bytes stay where their blocks stay. -/
theorem Stored.frame (hstored : Stored disk dinodes count files)
    (hassigned : ∀ place b, assigned disk dinodes count place = some b →
      assigned disk' dinodes' count place = some b)
    (hblock : ∀ inum bn b, assigned disk dinodes count (inum, ref bn) = some b →
      disk'.block b = disk.block b) : Stored disk' dinodes' count files := by
  intro inum hinum position hposition
  obtain ⟨b, hplace, hbyte⟩ := hstored inum hinum position hposition
  refine ⟨b, hassigned _ _ hplace, ?_⟩
  rw [hblock _ _ _ hplace]
  exact hbyte

/-- Bytes are written behind the end of an inode, into one block. -/
theorem Stored.append (hlaid : Laid disk dinodes count free)
    (hstored : Stored disk dinodes count files) (hinum : 1 ≤ inum ∧ inum < count) {x : ℕ}
    (hplace : assigned disk dinodes count (inum, ref ((files inum).length / bsize)) = some x)
    {src : List Byte} (hfits : (files inum).length % bsize + src.length ≤ bsize) :
    Stored (disk.patch x ((files inum).length % bsize) src) dinodes count
      (update files inum (files inum ++ src)) := by
  set off := (files inum).length with hoff
  have hsame := (hlaid.patch hplace (ref_ne_indirect _) (off % bsize) src).1
  have hdiv : off / bsize * bsize + off % bsize = off := Nat.div_add_mod' off bsize
  have hwhole : (disk.block x).length = bsize := disk.whole x
  intro other hother position hposition
  rw [hsame]
  by_cases hwho : other = inum
  · subst hwho
    rw [update_self, List.length_append] at hposition
    rw [update_self]
    by_cases hold : position < off
    · obtain ⟨b, hb, hbyte⟩ := hstored other hother position hold
      refine ⟨b, hb, ?_⟩
      rw [List.getElem?_append_left hold, ← hbyte]
      by_cases hblock : b = x
      · -- the old bytes of the block that is written lie before the new ones
        subst hblock
        have hbn : position / bsize = off / bsize :=
          ref_injective (congrArg Prod.snd (hlaid.owned.unique hb hplace))
        have hmod := Nat.div_add_mod' position bsize
        rw [hbn] at hmod
        rw [Disk.block_patch_self, getElem?_overlay, if_neg]
        omega
      · rw [Disk.block_patch_of_ne hblock]
    · have hpos : position / bsize = off / bsize := by
        apply Nat.div_eq_of_lt_le
        · omega
        · rw [Nat.succ_mul]
          omega
      have hmod := Nat.div_add_mod' position bsize
      rw [hpos] at hmod
      refine ⟨x, hpos ▸ hplace, ?_⟩
      rw [Disk.block_patch_self, getElem?_overlay, if_pos (by omega),
        List.getElem?_append_right (not_lt.1 hold)]
      congr 1
      omega
  · rw [update_of_ne hwho] at hposition ⊢
    obtain ⟨b, hb, hbyte⟩ := hstored other hother position hposition
    refine ⟨b, hb, ?_⟩
    rw [Disk.block_patch_of_ne]
    · exact hbyte
    · rintro rfl
      exact hwho (congrArg Prod.fst (hlaid.owned.unique hb hplace))

end Bytes

end Xv6Users.Mkfs
