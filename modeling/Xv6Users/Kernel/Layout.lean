import Xv6Users.Core.Bitmap
import Xv6Users.Core.LittleEndian
import Xv6Users.Kernel.Inodes

/-!
# The layout of the disk

The blocks of a file system as `kernel/fs.h` lays them out: inodes, the bitmap of used
blocks, and data.  Each of the three has its own views and writes, and a write into one
region leaves the views of the others alone.
-/

namespace Xv6Users.Layout

open Buffers LittleEndian Processes List Function

variable {b inum other : ℕ}

def bsize : ℕ := 2048

def ndirect : ℕ := 9

instance neZero_addrs : NeZero 10 := ⟨by decide⟩

theorem direct_lt {bn : ℕ} (hdirect : bn < ndirect) : bn < 10 :=
  hdirect.trans (by decide)

def nindirect : ℕ := bsize / 4

def maxFile : ℕ := ndirect + nindirect

/-! ## Inodes on disk -/

def dinodeSize : ℕ := 64

/-- `struct dinode`. -/
structure Dinode where
  type : UInt16
  major : UInt16
  minor : UInt16
  nlink : UInt16
  size : UInt32
  addrs : Fin 10 → UInt32
  uid : UInt32
  gid : UInt32
  mode : UInt32
  deriving DecidableEq

def encode (dinode : Dinode) : List Byte :=
  bytes16 dinode.type ++ (bytes16 dinode.major ++ (bytes16 dinode.minor ++
    (bytes16 dinode.nlink ++ (bytes32 dinode.size ++
      ((finRange 10).flatMap (fun index => bytes32 (dinode.addrs index)) ++
        (bytes32 dinode.uid ++ (bytes32 dinode.gid ++ bytes32 dinode.mode)))))))

def decode (bytes : List Byte) : Dinode where
  type := word16 0 bytes
  major := word16 2 bytes
  minor := word16 4 bytes
  nlink := word16 6 bytes
  size := word32 8 bytes
  addrs index := word32 (12 + 4 * index) bytes
  uid := word32 52 bytes
  gid := word32 56 bytes
  mode := word32 60 bytes

theorem length_addrs (dinode : Dinode) :
    ((finRange 10).flatMap fun index => bytes32 (dinode.addrs index)).length = 40 := by
  simp [length_flatMap]

@[simp]
theorem length_encode (dinode : Dinode) : (encode dinode).length = dinodeSize := by
  rfl

theorem field_addrs (dinode : Dinode) (index : Fin 10) :
    field 4 (12 + 4 * index) (encode dinode) = bytes32 (dinode.addrs index) := by
  have hoff : 12 + 4 * (index : ℕ) - 2 - 2 - 2 - 2 - 4 = 4 * index := by omega
  have hindex : (index : ℕ) < (finRange 10).length := by simp
  have hflat := field_flatMap (fun value => length_bytes32 (dinode.addrs value))
    (finRange 10) (bytes32 dinode.uid ++ (bytes32 dinode.gid ++ bytes32 dinode.mode))
    hindex
  rw [encode, field_append_right (by simp; omega), field_append_right (by simp; omega),
    field_append_right (by simp; omega), field_append_right (by simp; omega),
    field_append_right (by simp; omega)]
  simp only [length_bytes16, length_bytes32, hoff]
  rw [hflat, getElem_finRange]
  rfl

theorem decode_encode (dinode : Dinode) : decode (encode dinode) = dinode := by
  have hback : ∀ value : UInt32, field 4 0 (bytes32 value) = bytes32 value := by
    intro value
    rw [field, drop_zero, take_of_length_le (length_bytes32 value).le]
  have haddrs : (fun index : Fin 10 => word32 (12 + 4 * index) (encode dinode)) =
      dinode.addrs := by
    funext index
    rw [word32, field_addrs, word32_bytes32]
  rw [decode, haddrs]
  simp only [encode, word16, word32]
  simp (disch := simp [length_addrs]) only [field_append_right, length_bytes16,
    length_bytes32, length_addrs, Nat.reduceSub, field_append_self, hback,
    word16_bytes16, word32_bytes32]

def ipb : ℕ := bsize / dinodeSize

def bpb : ℕ := bsize * 8

/-- The part of `struct superblock` that the kernel uses after the start.  The inodes
lie before the bitmap, and the bitmap before the data. -/
structure Superblock where
  size : ℕ
  ninodes : ℕ
  nlog : ℕ
  inodestart : ℕ
  bmapstart : ℕ
  inodes_fit : inodestart + ninodes / ipb + 1 ≤ bmapstart
  data_fits : bmapstart + size / bpb + 1 ≤ size
  size_lt : size < 2 ^ 31

namespace Superblock

variable (sb : Superblock)

/-- `IBLOCK`. -/
def iblock (inum : ℕ) : ℕ := inum / ipb + sb.inodestart

/-- `BBLOCK`. -/
def bblock (b : ℕ) : ℕ := b / bpb + sb.bmapstart

/-- The first block behind the bitmap. -/
def dataStart : ℕ := sb.bmapstart + sb.size / bpb + 1

variable {sb}

theorem iblock_lt (hinum : inum < sb.ninodes) : sb.iblock inum < sb.bmapstart := by
  have hfit := sb.inodes_fit
  have hdiv : inum / ipb ≤ sb.ninodes / ipb := Nat.div_le_div_right hinum.le
  rw [iblock]
  omega

theorem bmapstart_le_bblock (b : ℕ) : sb.bmapstart ≤ sb.bblock b :=
  Nat.le_add_left _ _

theorem bblock_lt (hb : b < sb.size) : sb.bblock b < sb.dataStart := by
  have hdiv : b / bpb ≤ sb.size / bpb := Nat.div_le_div_right hb.le
  rw [bblock, dataStart]
  omega

theorem bmapstart_lt_dataStart : sb.bmapstart < sb.dataStart :=
  Nat.lt_succ_of_le (Nat.le_add_right _ _)

theorem dataStart_pos : 0 < sb.dataStart :=
  Nat.succ_pos _

end Superblock

/-- The blocks as they are seen through the buffer cache. -/
structure Disk where
  block : ℕ → List Byte
  whole : ∀ b, (block b).length = bsize

variable {disk' : Disk}

namespace Disk

variable (disk : Disk)

def set (b : ℕ) (bytes : List Byte) (hbytes : bytes.length = bsize) : Disk where
  block := update disk.block b bytes
  whole other := by
    by_cases hother : other = b
    · rw [hother, update_self, hbytes]
    · rw [update_of_ne hother, disk.whole]

@[simp]
theorem block_set_self (b : ℕ) (bytes : List Byte) (hbytes : bytes.length = bsize) :
    (disk.set b bytes hbytes).block b = bytes := update_self ..

theorem block_set_of_ne (hother : other ≠ b) (bytes : List Byte) (hbytes : bytes.length = bsize) :
    (disk.set b bytes hbytes).block other = disk.block other := update_of_ne hother ..

def zero (b : ℕ) : Disk :=
  disk.set b (replicate bsize 0) length_replicate

def patch (b off : ℕ) (src : List Byte) : Disk :=
  disk.set b (overlay (disk.block b) off src) (by rw [length_overlay, disk.whole])

def entry (b index : ℕ) : UInt32 :=
  word32 (4 * index) (disk.block b)

variable (sb : Superblock)

def dinode (inum : ℕ) : Dinode :=
  decode (field dinodeSize (dinodeSize * (inum % ipb)) (disk.block (sb.iblock inum)))

def putDinode (inum : ℕ) (dinode : Dinode) : Disk :=
  disk.patch (sb.iblock inum) (dinodeSize * (inum % ipb)) (encode dinode)

def bit (b : ℕ) : Bool :=
  Bitmap.testBit (disk.block (sb.bblock b)) (b % bpb)

def mark (b : ℕ) : Disk :=
  disk.set (sb.bblock b) (Bitmap.setBit (disk.block (sb.bblock b)) (b % bpb))
    (by rw [Bitmap.length_setBit, disk.whole])

def unmark (b : ℕ) : Disk :=
  disk.set (sb.bblock b) (Bitmap.clearBit (disk.block (sb.bblock b)) (b % bpb))
    (by rw [Bitmap.length_clearBit, disk.whole])

variable {disk sb}

theorem block_patch_of_ne (hother : other ≠ b) (off : ℕ) (src : List Byte) :
    (disk.patch b off src).block other = disk.block other := block_set_of_ne disk hother ..

theorem block_patch_self (b off : ℕ) (src : List Byte) :
    (disk.patch b off src).block b = overlay (disk.block b) off src := block_set_self ..

theorem block_zero_of_ne (hother : other ≠ b) : (disk.zero b).block other = disk.block other :=
  block_set_of_ne disk hother ..

theorem block_mark_of_ne (hother : other ≠ sb.bblock b) :
    (disk.mark sb b).block other = disk.block other := block_set_of_ne disk hother ..

theorem dinode_congr (hblock : disk'.block (sb.iblock inum) = disk.block (sb.iblock inum)) :
    disk'.dinode sb inum = disk.dinode sb inum := by
  rw [dinode, dinode, hblock]

theorem bit_congr (hblock : disk'.block (sb.bblock b) = disk.block (sb.bblock b)) :
    disk'.bit sb b = disk.bit sb b := by
  rw [bit, bit, hblock]

theorem dinode_putDinode_self (inum : ℕ) (dinode : Dinode) :
    (disk.putDinode sb inum dinode).dinode sb inum = dinode := by
  have hfits : dinodeSize * (inum % ipb) + (encode dinode).length ≤
      (disk.block (sb.iblock inum)).length := by
    have hrow : inum % ipb < ipb := Nat.mod_lt _ (by decide)
    rw [length_encode, disk.whole]
    simp only [dinodeSize, ipb, bsize] at hrow ⊢
    omega
  have hfield := field_overlay_self hfits
  rw [length_encode] at hfield
  rw [Disk.dinode, putDinode, block_patch_self, hfield, decode_encode]

theorem dinode_putDinode_of_ne (hother : other ≠ inum) (dinode : Dinode) :
    (disk.putDinode sb inum dinode).dinode sb other = disk.dinode sb other := by
  by_cases hblock : sb.iblock other = sb.iblock inum
  · -- Another row of the same block.
    have hrow : other % ipb ≠ inum % ipb := by
      intro hrow
      rw [Superblock.iblock, Superblock.iblock] at hblock
      apply hother
      rw [← Nat.div_add_mod other ipb, ← Nat.div_add_mod inum ipb, hrow]
      congr 2
      omega
    rw [Disk.dinode, Disk.dinode, putDinode, hblock, block_patch_self, field_overlay_of_disjoint]
    rw [length_encode]
    simp only [dinodeSize] at hrow ⊢
    omega
  · exact dinode_congr (block_patch_of_ne hblock _ _)

theorem div_eight_lt (b : ℕ) : b % bpb / 8 < (disk.block (sb.bblock b)).length := by
  have hlt : b % bpb < bpb := Nat.mod_lt _ (by decide)
  rw [disk.whole]
  simp only [bpb] at hlt ⊢
  omega

theorem mod_bpb_inj (hblock : sb.bblock other = sb.bblock b) :
    b % bpb = other % bpb ↔ b = other := by
  rw [Superblock.bblock, Superblock.bblock] at hblock
  constructor
  · intro hmod
    rw [← Nat.div_add_mod other bpb, ← Nat.div_add_mod b bpb, hmod]
    congr 2
    omega
  · intro hsame
    rw [hsame]

theorem bit_mark (b other : ℕ) :
    (disk.mark sb b).bit sb other = (disk.bit sb other || decide (b = other)) := by
  by_cases hblock : sb.bblock other = sb.bblock b
  · rw [bit, bit, mark, hblock, block_set_self, Bitmap.testBit_setBit (div_eight_lt b)]
    simp only [mod_bpb_inj hblock]
  · have hne : b ≠ other := fun hsame => hblock (by rw [hsame])
    rw [bit_congr (block_mark_of_ne hblock)]
    simp [hne]

end Disk

end Xv6Users.Layout
