import Xv6Users.Kernel.FileBytes

/-!
# The image that `mkfs` writes

The part of `tools/mkfs.c` that puts inodes and their bytes into the image: it numbers
inodes and blocks in the order in which they are asked for, and writes the bitmap at the
end.  `none` stands for a run that ends with an error: an assertion that fails, or a sector
behind the end of the image.  The host stores integers as the kernel does.
-/

namespace Xv6Users.Mkfs

open Buffers LittleEndian Processes Layout Blocks BlockOwners BlockSpecs FileBytes

def fssize : ℕ := 1000

/-- `2 + nlog + ninodeblocks + nbitmap`. -/
def nmeta : ℕ := 40

/-- The image file with the counters of the program. -/
structure Image where
  disk : Disk
  freeinode : ℕ
  freeblock : ℕ

/-- Where `lseek` goes for a sector: the product with `BSIZE` has 32 bits. -/
def seek (sec : ℕ) : ℕ :=
  sec % 2 ^ 21

def rsect (image : Image) (sec : ℕ) : Option (List Byte) :=
  if seek sec < fssize then some (image.disk.block (seek sec)) else none

/-- `rsect`, a change of the buffer, and `wsect`. -/
def change (image : Image) (sec off : ℕ) (src : List Byte) : Option Image :=
  if seek sec < fssize then
    some { image with disk := image.disk.patch (seek sec) off src }
  else none

def winode (image : Image) (inum : ℕ) (dinode : Dinode) : Option Image :=
  change image (FileBytes.image.iblock inum) (dinodeSize * (inum % ipb)) (encode dinode)

def rinode (image : Image) (inum : ℕ) : Option Dinode :=
  (rsect image (FileBytes.image.iblock inum)).map fun buf =>
    decode (field dinodeSize (dinodeSize * (inum % ipb)) buf)

/-- `T_DIR` and `T_FILE`. -/
inductive Kind where
  | dir
  | file
  deriving DecidableEq

def Kind.type : Kind → UInt16
  | .dir => 1
  | .file => 2

def newDinode (kind : Kind) (uid gid : UInt32) : Dinode :=
  { emptyDinode kind.type with nlink := 1, uid := uid, gid := gid, mode := 0o644 }

def ialloc (image : Image) (kind : Kind) (uid gid : UInt32) : Option Image :=
  winode { image with freeinode := image.freeinode + 1 } image.freeinode
    (newDinode kind uid gid)

def bitmap (used : ℕ) : List Byte :=
  (List.range used).foldl Bitmap.setBit (List.replicate bsize 0)

def balloc (image : Image) (used : ℕ) : Option Image :=
  if used < bsize * 8 then
    some { image with disk := image.disk.patch FileBytes.image.bmapstart 0 (bitmap used) }
  else none

/-- The address of an inode, set to the next free block if there is none. -/
def takeAddr (image : Image) (din : Dinode) (index : Fin 10) : Image × Dinode :=
  if din.addrs index = 0 then
    ({ image with freeblock := image.freeblock + 1 },
      setAddr din index (UInt32.ofNat image.freeblock))
  else (image, din)

def takeBlock (image : Image) (din : Dinode) (fbn : ℕ) : Option (Image × Dinode × ℕ) :=
  if h : fbn < ndirect then
    let (image, din) := takeAddr image din ⟨fbn, direct_lt h⟩
    some (image, din, (din.addrs ⟨fbn, direct_lt h⟩).toNat)
  else
    let (image, din) := takeAddr image din 9
    match rsect image (din.addrs 9).toNat with
    | none => none
    | some indirect =>
      if word32 (4 * (fbn - ndirect)) indirect = 0 then
        let x := UInt32.ofNat image.freeblock
        (change { image with freeblock := image.freeblock + 1 } (din.addrs 9).toNat
          (4 * (fbn - ndirect)) (bytes32 x)).map fun image => (image, din, x.toNat)
      else some (image, din, (word32 (4 * (fbn - ndirect)) indirect).toNat)

/-- The loop of `iappend` over the bytes that are left; every round takes at least one. -/
def appendLoop : ℕ → Image → Dinode → ℕ → List Byte → Option (Image × Dinode × ℕ)
  | 0, image, din, off, _ => some (image, din, off)
  | rounds + 1, image, din, off, data =>
    if data = [] then some (image, din, off)
    else if maxFile ≤ off / bsize then none
    else
      match takeBlock image din (off / bsize) with
      | none => none
      | some (image, din, x) =>
        let n1 := min data.length ((off / bsize + 1) * bsize - off)
        match change image x (off - off / bsize * bsize) (data.take n1) with
        | none => none
        | some image => appendLoop rounds image din (off + n1) (data.drop n1)

def iappend (image : Image) (inum : ℕ) (data : List Byte) : Option Image :=
  match rinode image inum with
  | none => none
  | some din =>
    match appendLoop data.length image din din.size.toNat data with
    | none => none
    | some (image, din, off) => winode image inum { din with size := UInt32.ofNat off }

inductive Op where
  | ialloc (kind : Kind) (uid gid : UInt32)
  | iappend (inum : ℕ) (data : List Byte)

/-- Bytes are appended to inodes that are there. -/
def perform (image : Image) : Op → Option Image
  | .ialloc kind uid gid => ialloc image kind uid gid
  | .iappend inum data =>
    if 1 ≤ inum ∧ inum < image.freeinode then iappend image inum data else none

def blank : Image where
  disk := ⟨fun _ => zeros, fun _ => List.length_replicate⟩
  freeinode := 1
  freeblock := nmeta

def filled (ops : List Op) : Option Image :=
  ops.foldlM perform blank

def mkfs (ops : List Op) : Option Image :=
  (filled ops).bind fun image => balloc image image.freeblock

def appended (ops : List Op) (inum : ℕ) : List Byte :=
  ops.flatMap fun
    | .ialloc _ _ _ => []
    | .iappend other data => if other = inum then data else []

end Xv6Users.Mkfs
