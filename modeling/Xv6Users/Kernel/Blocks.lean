import Xv6Users.Kernel.Layout

/-!
# Blocks and file contents

The lower half of `kernel/fs.c`: the allocation of blocks, the block map of an inode,
and reading and writing its bytes.  `blocks` are seen through the buffer cache, and of
the inode cache only the loaded copies count.  The log knows which blocks have been
written since the last commit.
-/

namespace Xv6Users.Blocks

open Contracts Buffers LittleEndian Processes Function
open Inodes (Stop)
open Layout

structure State where
  disk : Disk
  logged : List ℕ
  outstanding : ℕ
  inodes : ℕ → Option Dinode

abbrev B := Op State Stop

def kpanic {α : Type} (message : String) : B α :=
  Op.halt (.panic message)

def setDisk (change : Disk → Disk) : B Unit :=
  Op.modify fun state => { state with disk := change state.disk }

variable (sb : Superblock)

/-! ## The log -/

def logSize : ℕ := 30

/-- Whether the log takes another block. -/
def isFull (logged : List ℕ) : Prop :=
  logSize ≤ logged.length ∨ sb.nlog - 1 ≤ logged.length
  deriving Decidable

/-- A block that is in the log is absorbed. -/
def absorb (logged : List ℕ) (b : ℕ) : List ℕ :=
  if b ∈ logged then logged else logged ++ [b]

def logWrite (b : ℕ) : B Unit := do
  let logged ← Op.gets State.logged
  let outstanding ← Op.gets State.outstanding
  if isFull sb logged then kpanic "too big a transaction"
  else if outstanding < 1 then kpanic "log_write outside of trans"
  else Op.modify fun state => { state with logged := absorb state.logged b }

/-! ## Allocation -/

def bzero (b : ℕ) : B Unit := do
  setDisk (·.zero b)
  logWrite sb b

/-- The two loops of `balloc` visit the blocks below `sb.size` in order. -/
def balloc : B ℕ := do
  let free ← Op.gets fun state => (List.range sb.size).find? fun b => !state.disk.bit sb b
  match free with
  | none => kpanic "balloc: out of blocks"
  | some b => do
    setDisk (·.mark sb b)
    logWrite sb (sb.bblock b)
    bzero sb b
    pure b

def bfree (b : ℕ) : B Unit := do
  let used ← Op.gets fun state => state.disk.bit sb b
  if used then do
    setDisk (·.unmark sb b)
    logWrite sb (sb.bblock b)
  else kpanic "freeing free block"

/-! ## Copies of inodes -/

def getInode (inum : ℕ) : B Dinode := do
  let copy ← Op.gets fun state => state.inodes inum
  match copy with
  | none => Op.halt .null
  | some dinode => pure dinode

def setCopy (inum : ℕ) (copy : Option Dinode) : B Unit :=
  Op.modify fun state => { state with inodes := update state.inodes inum copy }

def setInode (inum : ℕ) (change : Dinode → Dinode) : B Unit := do
  let dinode ← getInode inum
  setCopy inum (some (change dinode))

def iupdate (inum : ℕ) : B Unit := do
  let dinode ← getInode inum
  setDisk (·.putDinode sb inum dinode)
  logWrite sb (sb.iblock inum)

/-- The part of `ilock` that reads the inode from disk. -/
def ilock (inum : ℕ) : B Unit := do
  let copy ← Op.gets fun state => state.inodes inum
  match copy with
  | some _ => pure ()
  | none => do
    let dinode ← Op.gets fun state => state.disk.dinode sb inum
    setCopy inum (some dinode)
    if dinode.type = 0 then kpanic "ilock: no type" else pure ()

def emptyDinode (type : UInt16) : Dinode where
  type := type
  major := 0
  minor := 0
  nlink := 0
  size := 0
  addrs _ := 0
  uid := 0
  gid := 0
  mode := 0

/-- The number that `iget` is called with. -/
def ialloc (type : UInt16) : B ℕ := do
  let free ← Op.gets fun state => (List.range sb.ninodes).find? fun inum =>
    1 ≤ inum ∧ (state.disk.dinode sb inum).type = 0
  match free with
  | none => kpanic "ialloc: no inodes"
  | some inum => do
    setDisk (·.putDinode sb inum (emptyDinode type))
    logWrite sb (sb.iblock inum)
    pure inum

/-! ## The block map -/

/-- An address in the inode, allocated on demand. -/
def mapAddr (inum : ℕ) (index : Fin 10) : B ℕ := do
  let dinode ← getInode inum
  if dinode.addrs index = 0 then do
    let b ← balloc sb
    setInode inum fun dinode =>
      { dinode with addrs := update dinode.addrs index (UInt32.ofNat b) }
    pure b
  else pure (dinode.addrs index).toNat

/-- An entry of the indirect block, allocated on demand. -/
def mapEntry (addr index : ℕ) : B ℕ := do
  let entry ← Op.gets fun state => state.disk.entry addr index
  if entry = 0 then do
    let b ← balloc sb
    setDisk (·.patch addr (4 * index) (bytes32 (UInt32.ofNat b)))
    logWrite sb addr
    pure b
  else pure entry.toNat

def bmap (inum bn : ℕ) : B ℕ :=
  if h : bn < ndirect then
    mapAddr sb inum ⟨bn, direct_lt h⟩
  else if bn - ndirect < nindirect then do
    let addr ← mapAddr sb inum 9
    mapEntry sb addr (bn - ndirect)
  else kpanic "bmap: out of range"

/-- The loop of `itrunc` over addresses of the inode. -/
def freeAddrs (inum : ℕ) : List (Fin 10) → B Unit
  | [] => pure ()
  | index :: rest => do
    let dinode ← getInode inum
    if dinode.addrs index = 0 then freeAddrs inum rest
    else do
      bfree sb (dinode.addrs index).toNat
      setInode inum fun dinode =>
        { dinode with addrs := update dinode.addrs index 0 }
      freeAddrs inum rest

/-- The loop of `itrunc` over the indirect block. -/
def freeEntries (addr : ℕ) : List ℕ → B Unit
  | [] => pure ()
  | index :: rest => do
    let entry ← Op.gets fun state => state.disk.entry addr index
    if entry = 0 then freeEntries addr rest
    else do
      bfree sb entry.toNat
      freeEntries addr rest

def directs : List (Fin 10) := (List.finRange 10).take ndirect

/-- The part of `itrunc` for the indirect block. -/
def freeIndirect (inum : ℕ) : B Unit := do
  let dinode ← getInode inum
  if dinode.addrs 9 = 0 then pure ()
  else do
    freeEntries sb (dinode.addrs 9).toNat (List.range nindirect)
    bfree sb (dinode.addrs 9).toNat
    setInode inum fun dinode =>
      { dinode with addrs := update dinode.addrs 9 0 }

def itrunc (inum : ℕ) : B Unit := do
  freeAddrs sb inum directs
  freeIndirect sb inum
  setInode inum fun dinode => { dinode with size := 0 }
  iupdate sb inum

/-- `iput` of the last reference; the copy is gone then. -/
def iput (inum : ℕ) : B Unit := do
  let copy ← Op.gets fun state => state.inodes inum
  match copy with
  | none => pure ()
  | some dinode => do
    if dinode.nlink = 0 then do
      itrunc sb inum
      setInode inum fun dinode => { dinode with type := 0 }
      iupdate sb inum
      setCopy inum none
    else setCopy inum none

/-! ## Reading and writing -/

def tDev : UInt16 := 3

/-- The loop of `readi`; every round takes at least one byte, so `n` is enough fuel. -/
def readLoop (inum : ℕ) : ℕ → ℕ → ℕ → B (List Byte)
  | 0, _, _ => pure []
  | fuel + 1, off, n =>
    if n = 0 then pure []
    else do
      let b ← bmap sb inum (off / bsize)
      let m := min n (bsize - off % bsize)
      let bytes ← Op.gets fun state => field m (off % bsize) (state.disk.block b)
      let rest ← readLoop inum fuel (off + m) (n - m)
      pure (bytes ++ rest)

/-- What `readi` copies, or `none` where it returns -1; `answer` is what a device
returns. -/
def readi (inum : ℕ) (off n : UInt32) (answer : Option (List Byte)) :
    B (Option (List Byte)) := do
  let dinode ← getInode inum
  if dinode.type = tDev then pure answer
  else if off > dinode.size ∨ off + n < off then pure none
  else do
    let n := if off + n > dinode.size then dinode.size - off else n
    let bytes ← readLoop sb inum n.toNat off.toNat n.toNat
    pure (some bytes)

/-- The loop of `writei`; every round takes at least one byte. -/
def writeLoop (inum : ℕ) : ℕ → ℕ → List Byte → B Unit
  | 0, _, _ => pure ()
  | fuel + 1, off, src =>
    if src = [] then pure ()
    else do
      let b ← bmap sb inum (off / bsize)
      let m := min src.length (bsize - off % bsize)
      setDisk (·.patch b (off % bsize) (src.take m))
      logWrite sb b
      writeLoop inum fuel (off + m) (src.drop m)

/-- The end of `writei`. -/
def growInode (inum last : ℕ) (n : UInt32) : B Unit := do
  let dinode ← getInode inum
  if 0 < n ∧ last > dinode.size.toNat then do
    setInode inum fun dinode => { dinode with size := UInt32.ofNat last }
    iupdate sb inum
  else pure ()

/-- `src` holds the `n` bytes to write. -/
def writei (inum : ℕ) (src : List Byte) (off n : UInt32) (answer : ℤ) : B ℤ := do
  let dinode ← getInode inum
  if dinode.type = tDev then pure answer
  else if off > dinode.size ∨ off + n < off then pure (-1)
  else if (off + n).toNat > maxFile * bsize then pure (-1)
  else do
    writeLoop sb inum src.length off.toNat src
    growInode sb inum (off.toNat + n.toNat) n
    pure n.toNat

end Xv6Users.Blocks
