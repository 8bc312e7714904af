import Xv6Users.Tools.ImageFiles

/-!
# Runs of `mkfs`

Inodes and bytes are added in any order.  The inodes have blocks 32 to 38, which is room
for 224; the bitmap lies behind them and is written last.
-/

namespace Xv6Users.Mkfs

open Buffers LittleEndian Processes Layout Function List Option
open Ownership
open Blocks hiding ialloc balloc
open BlockOwners hiding target
open BlockSpecs hiding held Sound
open FileBytes hiding image content

def dinodes (image : Image) (inum : ℕ) : Dinode :=
  image.disk.dinode FileBytes.image inum

/-- The inodes that fit before the bitmap. -/
def room : ℕ := 224

/-- The inodes have the bytes of the files. -/
structure Sound (image : Image) (files : ℕ → List Byte) : Prop where
  good : Good image (dinodes image) files
  fits : image.freeblock ≤ fssize
  sizes : ∀ inum, 1 ≤ inum ∧ inum < image.freeinode →
    (dinodes image inum).size.toNat = (files inum).length
  types : ∀ inum, 1 ≤ inum ∧ inum < image.freeinode → (dinodes image inum).type ≠ tDev
  limits : ∀ inum, (files inum).length ≤ maxFile * bsize
  unused : ∀ inum, image.freeinode ≤ inum → files inum = []

variable {count : ℕ} {ops : List Op} {kind : Kind}

section Steps

variable {image image' : Image} {files : ℕ → List Byte} {inum : ℕ}

theorem iblock_lt_room (hinum : inum < room) : FileBytes.image.iblock inum < 39 := by
  simp only [room, Superblock.iblock, FileBytes.image, ipb, bsize, dinodeSize] at hinum ⊢
  omega

theorem dinodes_congr (hlow : ∀ b < 39, image'.disk.block b = image.disk.block b)
    (hinum : inum < room) : dinodes image' inum = dinodes image inum :=
  Disk.dinode_congr (hlow _ (iblock_lt_room hinum))

theorem rinode_some {din : Dinode} (hinum : inum < room)
    (hread : rinode image inum = some din) : din = dinodes image inum := by
  obtain ⟨buf, hsect, rfl⟩ := map_eq_some_iff.1 hread
  have hblock := iblock_lt_room hinum
  obtain ⟨-, rfl⟩ := rsect_some (by omega) hsect
  rfl

/-- What `winode` changes. -/
structure Put (image : Image) (inum : ℕ) (dinode : Dinode) (image' : Image) : Prop where
  freeinode : image'.freeinode = image.freeinode
  freeblock : image'.freeblock = image.freeblock
  self : dinodes image' inum = dinode
  others : ∀ other, other ≠ inum → dinodes image' other = dinodes image other
  high : ∀ b, nmeta ≤ b → image'.disk.block b = image.disk.block b

theorem put_of_winode {dinode : Dinode} (hinum : inum < room)
    (hwrite : winode image inum dinode = some image') : Put image inum dinode image' := by
  have hblock := iblock_lt_room hinum
  obtain ⟨-, rfl⟩ := change_some (by omega) hwrite
  refine ⟨rfl, rfl, Disk.dinode_putDinode_self inum dinode, ?_, ?_⟩
  · exact fun other hother => Disk.dinode_putDinode_of_ne hother dinode
  · intro b hb
    apply Disk.block_patch_of_ne
    rw [nmeta] at hb
    omega

/-- Bytes stay when only inodes are written. -/
theorem Good.high {dinodes dinodes' : ℕ → Dinode} (hgood : Good image dinodes files)
    (hinode : image'.freeinode = image.freeinode) (hfree : image'.freeblock = image.freeblock)
    (hblock : ∀ b, nmeta ≤ b → image'.disk.block b = image.disk.block b)
    (haddrs : ∀ inum, 1 ≤ inum ∧ inum < image.freeinode →
      (dinodes' inum).addrs = (dinodes inum).addrs) : Good image' dinodes' files := by
  obtain ⟨hsame, hlaid⟩ := hgood.laid.low hblock haddrs
  constructor
  · rw [hinode, hfree]
    exact hlaid
  · rw [hinode]
    apply hgood.stored.frame
    · intro place b hb
      rwa [hsame]
    · exact fun _ _ b hb => hblock b (hgood.laid.bounds hb).1

theorem Sound.iappend {data : List Byte} (hsound : Sound image files)
    (hroom : image.freeinode ≤ room) (hinum : 1 ≤ inum ∧ inum < image.freeinode)
    (happend : iappend image inum data = some image') :
    Sound image' (update files inum (files inum ++ data)) ∧ image'.freeinode = image.freeinode := by
  have hlt : inum < room := hinum.2.trans_le hroom
  rw [Mkfs.iappend] at happend
  split at happend
  · cases happend
  · next din hread =>
    split at happend
    · cases happend
    · next middle dinode last hloop =>
      have hdin := rinode_some hlt hread
      subst hdin
      have hdone := hsound.good.appendLoop hinum hsound.fits (hsound.sizes inum hinum) rfl le_rfl
        hloop
      have hput := put_of_winode hlt happend
      have hlimit := hdone.limit (hsound.limits inum)
      have hcount : image'.freeinode = image.freeinode := hput.freeinode.trans hdone.steps.freeinode
      have hothers : ∀ other, 1 ≤ other ∧ other < image.freeinode → other ≠ inum →
          dinodes image' other = dinodes image other := by
        intro other hother hne
        rw [hput.others other hne]
        apply dinodes_congr
        · exact fun b hb => hdone.steps.low b (hb.trans (by decide))
        · exact hother.2.trans_le hroom
      have hsize : (UInt32.ofNat last).toNat = last := by
        rw [UInt32.toNat_ofNat', Nat.mod_eq_of_lt]
        rw [show maxFile * bsize = 1067008 from rfl] at hlimit
        omega
      refine ⟨⟨?_, ?_, ?_, ?_, ?_, ?_⟩, hcount⟩
      · apply hdone.good.high hput.freeinode hput.freeblock hput.high
        intro other hother
        rw [hdone.steps.freeinode] at hother
        by_cases hne : other = inum
        · rw [hne, hput.self, update_self]
        · rw [hothers other hother hne, update_of_ne hne]
      · rw [hput.freeblock]
        exact hdone.fits
      · intro other hother
        rw [hcount] at hother
        by_cases hne : other = inum
        · rw [hne, hput.self, update_self, length_append, ← hdone.length]
          exact hsize
        · rw [hothers other hother hne, update_of_ne hne]
          exact hsound.sizes other hother
      · intro other hother
        rw [hcount] at hother
        by_cases hne : other = inum
        · rw [hne, hput.self, hdone.steps.fields]
          exact hsound.types inum hinum
        · rw [hothers other hother hne]
          exact hsound.types other hother
      · intro other
        by_cases hne : other = inum
        · rw [hne, update_self, length_append, ← hdone.length]
          exact hlimit
        · rw [update_of_ne hne]
          exact hsound.limits other
      · intro other hother
        rw [hcount] at hother
        have hne : other ≠ inum := by omega
        rw [update_of_ne hne]
        exact hsound.unused other hother

/-- An inode without addresses has no places. -/
theorem assigned_succ {disk : Disk} {dinodes : ℕ → Dinode}
    (hempty : ∀ index, (dinodes count).addrs index = 0) :
    assigned disk dinodes (count + 1) = assigned disk dinodes count := by
  funext ⟨inum, reference⟩
  by_cases hlast : inum = count
  · subst hlast
    have hnone : mapped disk (dinodes inum) reference = 0 := by
      cases reference with
      | addr index => rw [mapped, hempty]; rfl
      | entry index => rw [mapped, if_pos (hempty 9)]
    have hzero : nonzero 0 = none := rfl
    rw [assigned, assigned, hnone, hzero, ite_self, ite_self]
  · have hsame : (1 ≤ inum ∧ inum < count + 1) ↔ (1 ≤ inum ∧ inum < count) := by omega
    rw [assigned, assigned]
    simp only [hsame]

theorem Sound.ialloc {uid gid : UInt32} (hsound : Sound image files)
    (hroom : image.freeinode < room) (halloc : ialloc image kind uid gid = some image') :
    Sound image' files ∧ image'.freeinode = image.freeinode + 1 := by
  have hput := put_of_winode hroom halloc
  have hcount : image'.freeinode = image.freeinode + 1 := hput.freeinode
  have hothers : ∀ other, other < image.freeinode → dinodes image' other = dinodes image other :=
    fun other hother => hput.others other hother.ne
  have hnew : dinodes image' image.freeinode = newDinode kind uid gid := hput.self
  have hbefore : ∀ other, 1 ≤ other ∧ other < image'.freeinode →
      other = image.freeinode ∨ 1 ≤ other ∧ other < image.freeinode := by
    intro other hother
    omega
  have hsame : assigned image'.disk (dinodes image') image'.freeinode =
      assigned image'.disk (dinodes image') image.freeinode := by
    rw [hcount]
    apply assigned_succ
    intro index
    rw [hnew]
    rfl
  have hlow := hsound.good.laid.low hput.high
    fun other hother => congrArg Dinode.addrs (hothers other hother.2)
  refine ⟨⟨⟨⟨?_, ?_⟩, ?_⟩, ?_, ?_, ?_, hsound.limits, ?_⟩, hcount⟩
  · rw [hsame, hput.freeblock]
    exact hlow.2.owned
  · rw [hput.freeblock]
    exact hlow.2.fresh
  · intro other hother position hposition
    rw [hsame, hlow.1]
    obtain rfl | hold := hbefore other hother
    · rw [hsound.unused _ le_rfl] at hposition
      cases hposition
    · obtain ⟨b, hb, hbyte⟩ := hsound.good.stored other hold position hposition
      exact ⟨b, hb, (congrArg (·[position % bsize]?)
        (hput.high b (hsound.good.laid.bounds hb).1)).trans hbyte⟩
  · rw [hput.freeblock]
    exact hsound.fits
  · intro other hother
    obtain rfl | hold := hbefore other hother
    · rw [hnew, hsound.unused _ le_rfl]
      rfl
    · rw [hothers other hold.2]
      exact hsound.sizes other hold
  · intro other hother
    obtain rfl | hold := hbefore other hother
    · rw [hnew]
      change kind.type ≠ tDev
      cases kind with
      | dir => decide
      | file => decide
    · rw [hothers other hold.2]
      exact hsound.types other hold
  · intro other hother
    exact hsound.unused other (by omega)

end Steps

def allocs : List Op → ℕ
  | [] => 0
  | .ialloc _ _ _ :: rest => allocs rest + 1
  | .iappend _ _ :: rest => allocs rest

section Runs

variable {image image' : Image} {files : ℕ → List Byte}

theorem appended_iappend (inum : ℕ) (data : List Byte) (rest : List Op) (other : ℕ) :
    appended (.iappend inum data :: rest) other =
      (if inum = other then data else []) ++ appended rest other := flatMap_cons

theorem Sound.run (hsound : Sound image files)
    (hroom : image.freeinode + allocs ops ≤ room) (hrun : ops.foldlM perform image = some image') :
    Sound image' (fun inum => files inum ++ appended ops inum) ∧
      image'.freeinode = image.freeinode + allocs ops := by
  induction ops generalizing image files with
  | nil =>
    cases hrun
    simp only [appended, flatMap_nil, append_nil]
    exact ⟨hsound, rfl⟩
  | cons op rest ih =>
    obtain ⟨middle, hop, hrest⟩ := bind_eq_some_iff.1 hrun
    cases op with
    | ialloc kind uid gid =>
      rw [allocs] at hroom
      obtain ⟨hmiddle, hcount⟩ := hsound.ialloc (by omega) hop
      obtain ⟨hdone, hlast⟩ := ih hmiddle (by omega) hrest
      refine ⟨hdone, ?_⟩
      rw [hlast, hcount, allocs]
      omega
    | iappend inum data =>
      rw [allocs] at hroom
      rw [perform] at hop
      split_ifs at hop with hinum
      obtain ⟨hmiddle, hcount⟩ := hsound.iappend (by omega) hinum hop
      obtain ⟨hdone, hlast⟩ := ih hmiddle (by omega) hrest
      refine ⟨?_, by rw [hlast, hcount, allocs]⟩
      have hfiles : (fun other => files other ++ appended (.iappend inum data :: rest) other) =
          fun other => update files inum (files inum ++ data) other ++
            appended rest other := by
        funext other
        rw [appended_iappend]
        by_cases hother : other = inum
        · rw [hother, update_self, if_pos rfl, append_assoc]
        · rw [update_of_ne hother, if_neg (Ne.symm hother), nil_append]
      rw [hfiles]
      exact hdone

theorem sound_blank : Sound blank fun _ => [] := by
  have hnone : ∀ place, assigned blank.disk (dinodes blank) blank.freeinode place = none := by
    intro place
    rw [assigned, if_neg]
    rw [show blank.freeinode = 1 from rfl]
    omega
  refine ⟨⟨⟨⟨?_, ?_, ?_⟩, fun _ _ => rfl⟩, ?_⟩, by decide, ?_, ?_, ?_, fun _ _ => rfl⟩
  · intro b
    constructor
    · exact .inl
    · rintro (hlow | ⟨place, hplace⟩)
      · exact hlow
      · cases (hnone place).symm.trans hplace
  · intro left right b hleft
    cases (hnone left).symm.trans hleft
  · intro place b hplace
    cases (hnone place).symm.trans hplace
  · exact fun _ _ _ hposition => absurd hposition (Nat.not_lt_zero _)
  · intro inum hinum
    rw [show blank.freeinode = 1 from rfl] at hinum
    omega
  · intro inum hinum
    rw [show blank.freeinode = 1 from rfl] at hinum
    omega
  · exact fun _ => Nat.zero_le _

/-- The bitmap lies between the inodes and the blocks of files. -/
theorem Sound.balloc {used : ℕ} (hsound : Sound image files) (hroom : image.freeinode ≤ room)
    (hballoc : balloc image used = some image') :
    Sound image' files ∧ image'.freeinode = image.freeinode := by
  rw [Mkfs.balloc] at hballoc
  split_ifs at hballoc
  cases hballoc
  have hmap : FileBytes.image.bmapstart = 39 := rfl
  have hothers : ∀ b, b ≠ 39 → (image.disk.patch FileBytes.image.bmapstart 0
      (bitmap used)).block b = image.disk.block b := by
    intro b hb
    apply Disk.block_patch_of_ne
    rwa [hmap]
  have hsame : ∀ inum, 1 ≤ inum ∧ inum < image.freeinode → dinodes { image with
      disk := image.disk.patch FileBytes.image.bmapstart 0 (bitmap used) } inum =
        dinodes image inum := by
    intro inum hinum
    apply dinodes_congr
    · exact fun b hb => hothers b hb.ne
    · exact hinum.2.trans_le hroom
  refine ⟨⟨?_, hsound.fits, ?_, ?_, hsound.limits, hsound.unused⟩, rfl⟩
  · refine hsound.good.high (by rfl) (by rfl) ?_ ?_
    · intro b hb
      apply hothers
      rw [nmeta] at hb
      omega
    · exact fun inum hinum => congrArg Dinode.addrs (hsame inum hinum)
  · intro inum hinum
    rw [hsame inum hinum]
    exact hsound.sizes inum hinum
  · intro inum hinum
    rw [hsame inum hinum]
    exact hsound.types inum hinum

theorem sound_of_mkfs (hmkfs : mkfs ops = some image) (hroom : allocs ops < room) :
    Sound image (appended ops) ∧ image.freeinode = allocs ops + 1 := by
  obtain ⟨middle, hfilled, hballoc⟩ := bind_eq_some_iff.1 hmkfs
  have hblank : blank.freeinode = 1 := rfl
  obtain ⟨hmiddle, hcount⟩ := sound_blank.run (by omega) hfilled
  obtain ⟨hdone, hlast⟩ := hmiddle.balloc (by omega) hballoc
  exact ⟨hdone, by omega⟩

/-- The bytes of an inode lie where its addresses lead. -/
theorem Sound.mappedBytes {inum start : ℕ} (hsound : Sound image files)
    (hinum : 1 ≤ inum ∧ inum < image.freeinode) (hend : start + count ≤ (files inum).length) :
    mappedBytes image.disk (dinodes image inum) start count = field count start (files inum) := by
  apply ext_getElem?
  intro index
  rw [getElem?_field]
  split_ifs with hindex
  · obtain ⟨b, hb, hbyte⟩ := hsound.good.stored inum hinum (start + index) (by omega)
    rw [assigned, if_pos hinum, nonzero_eq_some] at hb
    have hmod : (start + index) % bsize < (image.disk.block b).length := by
      rw [image.disk.whole]
      exact Nat.mod_lt _ (by decide)
    rw [getElem?_mappedBytes hindex, hb.1, ← hbyte, getElem?_eq_getElem hmod,
      getD_eq_getElem?_getD, getElem?_eq_getElem hmod, getD_some]
  · rw [getElem?_eq_none]
    rw [length_mappedBytes]
    exact not_lt.1 hindex

/-- In the image of a run that allocates fewer than 224 inodes, the kernel reads from an
inode the bytes that were appended to it. -/
theorem kernel_reads_image {ops : List Op} (hmkfs : mkfs ops = some image)
    (hroom : allocs ops < 224) {inum : ℕ} (hinum : 1 ≤ inum ∧ inum ≤ allocs ops)
    {state : State} (hdisk : state.disk = image.disk)
    (hcopy : state.inodes inum = some (image.disk.dinode FileBytes.image inum))
    {off n : UInt32} (hrange : off.toNat + n.toNat ≤ (appended ops inum).length)
    (answer : Option (List Byte)) :
    readi FileBytes.image inum off n answer state =
      .done (some (field n.toNat off.toNat (appended ops inum))) state := by
  obtain ⟨hsound, hcount⟩ := sound_of_mkfs hmkfs hroom
  have hthere : 1 ≤ inum ∧ inum < image.freeinode := by omega
  have hsize := hsound.sizes inum hthere
  have hlimit := hsound.limits inum
  have hwraps : off.toNat + n.toNat < 2 ^ 32 := by
    rw [show maxFile * bsize = 1067008 from rfl] at hlimit
    omega
  have hblocks : ∀ bn, bn * bsize < (dinodes image inum).size.toNat →
      mapped state.disk (dinodes image inum) (ref bn) ≠ 0 := by
    intro bn hbn
    obtain ⟨b, hb, -⟩ := hsound.good.stored inum hthere (bn * bsize) (by omega)
    rw [Nat.mul_div_cancel bn (by decide), assigned, if_pos hthere, nonzero_eq_some] at hb
    rw [hdisk, hb.1]
    exact hb.2
  have hloaded : state.inodes inum = some (dinodes image inum) := hcopy
  have hcount' : min n.toNat ((dinodes image inum).size.toNat - off.toNat) = n.toNat := by
    omega
  rw [readi_mapped hloaded (hsound.types inum hthere) (hsize.trans_le hlimit) hblocks
    (by omega) hwraps answer, hdisk, hcount', hsound.mappedBytes hthere (by omega)]

end Runs

section Overflow

variable {image : Image} {inum : ℕ}

theorem iblock_lt_fssize (hinum : inum < 256) : FileBytes.image.iblock inum < 40 := by
  simp only [Superblock.iblock, FileBytes.image, ipb, bsize, dinodeSize]
  omega

theorem winode_eq (hinum : inum < 256) (dinode : Dinode) :
    winode image inum dinode =
      some { image with disk := image.disk.putDinode FileBytes.image inum dinode } := by
  have hblock := iblock_lt_fssize hinum
  rw [winode, change, seek_of_lt (by omega), if_pos (hblock.trans (by decide))]
  rfl

theorem rinode_eq (hinum : inum < 256) : rinode image inum = some (dinodes image inum) := by
  have hblock := iblock_lt_fssize hinum
  rw [rinode, rsect, seek_of_lt (by omega), if_pos (hblock.trans (by decide))]
  rfl

/-- The first byte of an inode. -/
theorem iappend_first {uid gid : UInt32} (hinum : inum < 256)
    (hnew : dinodes image inum = newDinode kind uid gid) (hfree : image.freeblock < fssize)
    (byte : Byte) :
    ∃ image', iappend image inum [byte] = some image' ∧ image'.freeblock = image.freeblock + 1 := by
  have hnumber : (UInt32.ofNat image.freeblock).toNat = image.freeblock :=
    toNat_ofNat_of_small (by omega)
  have htake : takeBlock image (newDinode kind uid gid) 0 =
      some ({ image with freeblock := image.freeblock + 1 },
        setAddr (newDinode kind uid gid) 0 (UInt32.ofNat image.freeblock), image.freeblock) := by
    rw [takeBlock, dif_pos (by decide)]
    dsimp only
    rw [takeAddr, if_pos (by rfl)]
    rw [show (⟨0, _⟩ : Fin 10) = 0 from rfl, addrs_setAddr_self, hnumber]
  have hchange : change { image with freeblock := image.freeblock + 1 } image.freeblock 0
      [byte] = some ⟨image.disk.patch image.freeblock 0 [byte], image.freeinode,
        image.freeblock + 1⟩ := by
    have hsize : fssize = 1000 := rfl
    rw [change, seek_of_lt (by omega), if_pos hfree]
  have hloop : appendLoop 1 image (newDinode kind uid gid) 0 [byte] =
      some (⟨image.disk.patch image.freeblock 0 [byte], image.freeinode,
        image.freeblock + 1⟩, setAddr (newDinode kind uid gid) 0
          (UInt32.ofNat image.freeblock), 1) := by
    rw [appendLoop, if_neg (by rintro ⟨⟩), if_neg (by decide), Nat.zero_div, htake]
    dsimp only
    rw [Nat.zero_mul, Nat.sub_zero, Nat.zero_add, Nat.one_mul, Nat.sub_zero,
      show min [byte].length bsize = 1 from rfl, take_succ_cons, take_zero, hchange]
    rfl
  rw [iappend, rinode_eq hinum, hnew]
  dsimp only [length_singleton]
  rw [show (newDinode kind uid gid).size.toNat = 0 from rfl, hloop]
  dsimp only
  rw [winode_eq hinum]
  exact ⟨_, rfl, rfl⟩

/-- Inodes are allocated one after another. -/
theorem replicate_ialloc (count : ℕ) (hcount : count < 256) :
    ∃ image, (replicate count (Op.ialloc .file 0 0)).foldlM perform blank = some image ∧
      image.freeinode = count + 1 ∧ image.freeblock = nmeta ∧
      (0 < count → dinodes image count = newDinode .file 0 0) := by
  induction count with
  | zero => exact ⟨blank, rfl, rfl, rfl, fun hpos => absurd hpos (lt_irrefl 0)⟩
  | succ count ih =>
    obtain ⟨image, hrun, hinode, hblock, -⟩ := ih (by omega)
    have halloc : perform image (.ialloc .file 0 0) = some ⟨image.disk.putDinode
        FileBytes.image (count + 1) (newDinode .file 0 0), count + 2, nmeta⟩ := by
      rw [perform, ialloc, hinode, winode_eq hcount, hblock]
    refine ⟨⟨image.disk.putDinode FileBytes.image (count + 1) (newDinode .file 0 0),
      count + 2, nmeta⟩, ?_, rfl, rfl, fun _ => Disk.dinode_putDinode_self (count + 1) _⟩
    rw [replicate_succ', foldlM_append, hrun]
    exact (bind_some _ _).trans ((foldlM_cons ..).trans (by rw [halloc]; rfl))

def lastByte (count : ℕ) (byte : Byte) : List Op :=
  replicate count (.ialloc .file 0 0) ++ [.iappend count [byte]]

theorem mkfs_lastByte (hpos : 1 ≤ count) (hcount : count < 256) (byte : Byte) :
    ∃ image : Image, mkfs (lastByte count byte) = some { image with
      disk := image.disk.patch FileBytes.image.bmapstart 0 (bitmap (nmeta + 1)) } := by
  obtain ⟨image, hrun, hinode, hblock, hnew⟩ := replicate_ialloc count hcount
  obtain ⟨image', happend, hfree⟩ := iappend_first hcount (hnew hpos) (by rw [hblock]; decide) byte
  have hperform : perform image (.iappend count [byte]) = some image' := by
    rw [perform, if_pos (by omega), happend]
  have hfilled : filled (lastByte count byte) = some image' := by
    rw [filled, lastByte, foldlM_append, hrun]
    exact (bind_some _ _).trans ((foldlM_cons ..).trans (by rw [hperform]; rfl))
  refine ⟨image', ?_⟩
  rw [mkfs, hfilled, bind_some, balloc, if_pos]
  · rw [hfree, hblock]
  · rw [hfree, hblock]
    decide

theorem length_bitmap (used : ℕ) : (bitmap used).length = bsize := by
  rw [bitmap]
  induction used with
  | zero => exact length_replicate
  | succ used ih => rw [range_succ, foldl_append, foldl_cons, foldl_nil, Bitmap.length_setBit, ih]

/-- The bitmap that is written last lies over inode 224. -/
theorem dinode_overwritten (disk : Disk) :
    (disk.patch FileBytes.image.bmapstart 0 (bitmap (nmeta + 1))).dinode FileBytes.image 224 =
      decode (field dinodeSize 0 (bitmap (nmeta + 1))) := by
  have hwhole : overlay (disk.block FileBytes.image.bmapstart) 0 (bitmap (nmeta + 1)) =
      bitmap (nmeta + 1) := by
    apply ext_getElem?
    intro index
    rw [getElem?_overlay, length_bitmap, disk.whole]
    by_cases hindex : index < bsize
    · rw [if_pos (by omega)]
      rfl
    · rw [if_neg (by omega), getElem?_eq_none (by rw [disk.whole]; omega),
        getElem?_eq_none (by rw [length_bitmap]; omega)]
  have hblock : FileBytes.image.iblock 224 = FileBytes.image.bmapstart := rfl
  rw [Disk.dinode, hblock, Disk.block_patch_self, hwhole]
  rfl

theorem bitmap_dinode :
    (decode (field dinodeSize 0 (bitmap (nmeta + 1)))).size = 0 ∧
      (decode (field dinodeSize 0 (bitmap (nmeta + 1)))).type ≠ tDev := by
  decide +kernel

def loaded (image : Image) (inum : ℕ) : State where
  disk := image.disk
  logged := []
  outstanding := 0
  inodes := update (fun _ => none) inum (some (image.disk.dinode FileBytes.image inum))

theorem loaded_inodes (image : Image) (inum : ℕ) :
    (loaded image inum).inodes inum = some (image.disk.dinode FileBytes.image inum) := by
  rw [loaded]
  dsimp only
  rw [update_self]

theorem lastByte_is_read : ∃ image, mkfs (lastByte 223 7) = some image ∧
    readi FileBytes.image 223 0 1 none (loaded image 223) =
      .done (some [7]) (loaded image 223) := by
  obtain ⟨image, hmkfs⟩ := mkfs_lastByte (show 1 ≤ 223 by decide) (by decide) 7
  have happended : appended (lastByte 223 7) 223 = [7] := by decide +kernel
  have hread := kernel_reads_image hmkfs (by decide +kernel) (by decide +kernel) rfl
    (loaded_inodes _ 223) (show (0 : UInt32).toNat + (1 : UInt32).toNat ≤ _ by
      rw [happended]; decide) none
  rw [happended] at hread
  exact ⟨_, hmkfs, hread⟩

theorem lastByte_is_lost : ∃ image, mkfs (lastByte 224 7) = some image ∧
    appended (lastByte 224 7) 224 = [7] ∧
    readi FileBytes.image 224 0 1 none (loaded image 224) = .done (some []) (loaded image 224) := by
  obtain ⟨before, hmkfs⟩ := mkfs_lastByte (show 1 ≤ 224 by decide) (by decide) 7
  refine ⟨_, hmkfs, by decide +kernel, ?_⟩
  have hcopy := loaded_inodes { before with
    disk := before.disk.patch FileBytes.image.bmapstart 0 (bitmap (nmeta + 1)) } 224
  rw [dinode_overwritten] at hcopy
  obtain ⟨hsize, htype⟩ := bitmap_dinode
  have hzero : (decode (field dinodeSize 0 (bitmap (nmeta + 1)))).size.toNat = 0 := by
    rfl
  rw [readi_mapped hcopy htype (by omega) (fun bn hbn => by omega) (Nat.zero_le _) (by decide),
    hzero]
  rfl

end Overflow

end Xv6Users.Mkfs
