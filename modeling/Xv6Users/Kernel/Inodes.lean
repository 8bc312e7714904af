import Xv6Users.Core.Contracts
import Xv6Users.Kernel.Processes

/-!
# Inodes, directories and paths

`kernel/fs.c` on one device.  A cached inode is a slot of the inode cache with
a reference count; its owner and mode are read from disk when it is first
locked.  The blocks of a file are the bytes `data`, which the cached and the
disk inode share since a change of the size is written through.  `gen` counts
how often an inode number was allocated; the code does not look at it.
-/

namespace Xv6Users.Inodes

open Contracts Processes Function List

inductive FileType where
  | free
  | dir
  | file
  | dev
  deriving DecidableEq

/-- The part of `struct dinode` that is also in `struct inode`. -/
structure Dinode where
  type : FileType
  major : ℤ
  minor : ℤ
  nlink : ℤ
  uid : ℤ
  gid : ℤ
  mode : UInt32
  deriving DecidableEq

abbrev Ip := Fin 50

instance neZero_ip : NeZero 50 := ⟨by decide⟩

abbrev Fp := Fin 100

/-- An index of the open files of a process. -/
abbrev Fd := Fin 16

/-- `lock` is the holder of the sleep lock. -/
structure Inode where
  inum : ℕ
  ref : ℤ
  lock : Option Slot
  valid : Bool
  info : Dinode
  deriving DecidableEq

inductive FdType where
  | none
  | pipe
  | inode
  deriving DecidableEq

structure File where
  type : FdType
  ref : ℤ
  readable : Bool
  writable : Bool
  ip : Option Ip
  off : ℕ
  deriving DecidableEq

structure State where
  ninodes : ℕ
  disk : ℕ → Dinode
  data : ℕ → List Byte
  gen : ℕ → ℕ
  icache : Ip → Inode
  ftable : Fp → File
  table : Processes.Table
  ofile : Slot → Fd → Option Fp
  cwd : Slot → Option Ip
  outstanding : ℕ

/-- Why the machine stops: a panic, an access through a null pointer, or the
overflow of a counter. -/
inductive Stop where
  | panic (message : String)
  | null
  | overflow
  deriving DecidableEq

abbrev K := Op State Stop

/-- The `panic` of the kernel. -/
def kpanic {α : Type} (message : String) : K α :=
  Op.halt (.panic message)

def whenever (condition : Prop) [Decidable condition] (op : K Unit) : K Unit :=
  if condition then op else pure ()

def State.setInode (state : State) (ip : Ip) (change : Inode → Inode) : State :=
  { state with icache := update state.icache ip (change (state.icache ip)) }

def setInode (ip : Ip) (change : Inode → Inode) : K Unit :=
  Op.modify (·.setInode ip change)

def getInode (ip : Ip) : K Inode :=
  Op.gets (·.icache ip)

/-! ## The log -/

def maxOpBlocks : ℕ := 10

def logSize : ℕ := 3 * maxOpBlocks

/-- Of the log only the number of operations counts. -/
def beginOp : K Unit := do
  let outstanding ← Op.gets State.outstanding
  if (outstanding + 1) * maxOpBlocks > logSize then Op.block
  else Op.modify ({ · with outstanding := outstanding + 1 })

def endOp : K Unit :=
  Op.modify fun state => { state with outstanding := state.outstanding - 1 }

def logWrite : K Unit := do
  let outstanding ← Op.gets State.outstanding
  if outstanding < 1 then kpanic "log_write outside of trans" else pure ()

/-! ## The inode cache -/

def State.setDisk (state : State) (inum : ℕ) (dinode : Dinode) : State :=
  { state with disk := update state.disk inum dinode }

def State.setData (state : State) (inum : ℕ) (bytes : List Byte) : State :=
  { state with data := update state.data inum bytes }

def iupdate (ip : Ip) : K Unit := do
  logWrite
  let inode ← getInode ip
  Op.modify (·.setDisk inode.inum inode.info)

/-- The increment of a reference count, an `int`. -/
def retain (ip : Ip) : K Unit := do
  let inode ← getInode ip
  if inode.ref = 2 ^ 31 - 1 then Op.halt .overflow
  else setInode ip fun inode => { inode with ref := inode.ref + 1 }

def ips : List Ip := finRange 50

def State.cached (state : State) (inum : ℕ) : Option Ip :=
  ips.find? fun ip => 0 < (state.icache ip).ref ∧ (state.icache ip).inum = inum

def State.empty (state : State) : Option Ip :=
  ips.find? fun ip => (state.icache ip).ref = 0

/-- A recycled slot keeps the owner of the inode it held before. -/
def iget (inum : ℕ) : K Ip := do
  let found ← Op.gets fun state => (state.cached inum, state.empty)
  match found with
  | (some ip, _) => do
    retain ip
    pure ip
  | (none, some ip) => do
    setInode ip fun inode => { inode with inum, ref := 1, valid := false }
    pure ip
  | (none, none) => kpanic "iget: no inodes"

def idup (ip : Option Ip) : K Ip :=
  match ip with
  | none => Op.halt .null
  | some ip => do
    retain ip
    pure ip

/-- The part of `ilock` that reads the inode from disk. -/
def loadInode (ip : Ip) : K Unit := do
  let inode ← getInode ip
  if inode.valid then pure ()
  else do
    let dinode ← Op.gets fun state => state.disk inode.inum
    if dinode.type = .free then kpanic "ilock: no type"
    else setInode ip fun inode => { inode with info := dinode, valid := true }

/-- `curproc` is the process that the kernel works for. -/
def ilock (curproc : Slot) (ip : Option Ip) : K Unit :=
  match ip with
  | none => kpanic "ilock"
  | some ip => do
    let inode ← getInode ip
    if inode.ref < 1 then kpanic "ilock"
    else if inode.lock.isSome then Op.block
    else do
      setInode ip fun inode => { inode with lock := some curproc }
      loadInode ip

def iunlock (curproc : Slot) (ip : Ip) : K Unit := do
  let inode ← getInode ip
  if inode.lock ≠ some curproc ∨ inode.ref < 1 then kpanic "iunlock"
  else setInode ip fun inode => { inode with lock := none }

def itrunc (ip : Ip) : K Unit := do
  let inode ← getInode ip
  Op.modify (·.setData inode.inum [])
  iupdate ip

/-- The part of `iput` that frees an inode without links. -/
def freeInode (ip : Ip) : K Unit := do
  itrunc ip
  setInode ip fun inode => { inode with info := { inode.info with type := .free } }
  iupdate ip
  setInode ip fun inode => { inode with valid := false }

/-- The lock is taken and released here, so only a lock of someone else
matters. -/
def iput (ip : Ip) : K Unit := do
  let inode ← getInode ip
  if inode.lock.isSome then Op.block
  else do
    whenever (inode.valid ∧ inode.info.nlink = 0 ∧ inode.ref = 1) (freeInode ip)
    setInode ip fun inode => { inode with ref := inode.ref - 1 }

def iunlockput (curproc : Slot) (ip : Ip) : K Unit := do
  iunlock curproc ip
  iput ip

def emptyDinode (type : FileType) : Dinode where
  type := type
  major := 0
  minor := 0
  nlink := 0
  uid := 0
  gid := 0
  mode := 0

/-- A new inode is zero but for its type. -/
def State.allocate (state : State) (inum : ℕ) (type : FileType) : State :=
  { (state.setDisk inum (emptyDinode type)).setData inum [] with
    gen := update state.gen inum (state.gen inum + 1) }

def ialloc (type : FileType) : K Ip := do
  let free ← Op.gets fun state =>
    (range state.ninodes).find? fun inum =>
      1 ≤ inum ∧ (state.disk inum).type = .free
  match free with
  | none => kpanic "ialloc: no inodes"
  | some inum => do
    logWrite
    Op.modify (·.allocate inum type)
    iget inum

/-! ## Directories -/

def direntSize : ℕ := 16

def dirsiz : ℕ := 14

structure Dirent where
  inum : ℕ
  name : List Byte
  deriving DecidableEq

/-- The entry at an offset, with its name up to the terminator; `none` when
fewer bytes are left. -/
def direntAt (bytes : List Byte) (off : ℕ) : Option Dirent :=
  match (bytes.drop off).take direntSize with
  | low :: high :: name =>
    if name.length = dirsiz then
      some ⟨low.toNat + 256 * high.toNat, name.takeWhile (· != 0)⟩
    else none
  | _ => none

/-- The bytes of an entry; the number is a `ushort`. -/
def direntBytes (inum : ℕ) (name : List Byte) : List Byte :=
  UInt8.ofNat inum :: UInt8.ofNat (inum / 256) ::
    (name.take dirsiz ++ replicate (dirsiz - name.length) 0)

def offsets (size : ℕ) : List ℕ :=
  (range ((size + direntSize - 1) / direntSize)).map (direntSize * ·)

/-- The loop of `dirlookup`: `none` for a short read, else the offset and the
number that was found. -/
def findDirent (bytes name : List Byte) : List ℕ → Option (Option (ℕ × ℕ))
  | [] => some none
  | off :: rest =>
    match direntAt bytes off with
    | none => none
    | some de =>
      if de.inum ≠ 0 ∧ de.name = name then some (some (off, de.inum))
      else findDirent bytes name rest

def dirlookup (dp : Ip) (name : List Byte) : K (Option (Ip × ℕ)) := do
  let inode ← getInode dp
  if inode.info.type ≠ .dir then kpanic "dirlookup not DIR"
  else do
    let bytes ← Op.gets fun state => state.data inode.inum
    match findDirent bytes name (offsets bytes.length) with
    | none => kpanic "dirlookup read"
    | some none => pure none
    | some (some (off, inum)) => do
      let ip ← iget inum
      pure (some (ip, off))

def maxFileSize : ℕ := (9 + 2048 / 4) * 2048

def splice (bytes src : List Byte) (off : ℕ) : List Byte :=
  bytes.take off ++ src ++ bytes.drop (off + src.length)

/-- `answer` is what a device returns. -/
def writei (ip : Ip) (src : List Byte) (off : ℕ) (answer : ℤ) : K ℤ := do
  let inode ← getInode ip
  if inode.info.type = .dev then pure answer
  else do
    let bytes ← Op.gets fun state => state.data inode.inum
    if off > bytes.length ∨ off + src.length > maxFileSize then pure (-1)
    else if src = [] then pure 0
    else do
      logWrite
      Op.modify (·.setData inode.inum (splice bytes src off))
      whenever (off + src.length > bytes.length) (iupdate ip)
      pure src.length

/-- The loop of `dirlink`: the offset of the first unused entry or of the end. -/
def findUnused (bytes : List Byte) : List ℕ → Option ℕ
  | [] => some bytes.length
  | off :: rest =>
    match direntAt bytes off with
    | none => none
    | some de => if de.inum = 0 then some off else findUnused bytes rest

def dirlink (dp : Ip) (name : List Byte) (inum : ℕ) : K ℤ := do
  match ← dirlookup dp name with
  | some (ip, _) => do
    iput ip
    pure (-1)
  | none => do
    let inode ← getInode dp
    let bytes ← Op.gets fun state => state.data inode.inum
    match findUnused bytes (offsets bytes.length) with
    | none => kpanic "dirlink read"
    | some off => do
      let written ← writei dp (direntBytes inum name) off 0
      if written = direntSize then pure 0 else kpanic "dirlink"

/-! ## Paths -/

def slash : Byte := 47

/-- The next path element, cut to `DIRSIZ`, and the path after it. -/
def skipelem (path : List Byte) : Option (List Byte × List Byte) :=
  let path := path.dropWhile (· == slash)
  if path = [] then none
  else some ((path.takeWhile (· != slash)).take dirsiz,
    (path.dropWhile (· != slash)).dropWhile (· == slash))

/-- The elements that repeated calls of `skipelem` return. -/
def elements (path : List Byte) : List (List Byte) :=
  ((path.splitOn slash).filter (· ≠ [])).map (take dirsiz)

/-- The loop of `namex` over the elements.  `name` is the name buffer, which is
returned too. -/
def namexLoop (curproc : Slot) (parent : Bool) :
    List (List Byte) → Ip → List Byte → K (Option Ip × List Byte)
  | [], ip, name =>
    if parent then do
      iput ip
      pure (none, name)
    else pure (some ip, name)
  | elem :: rest, ip, _ => do
    ilock curproc (some ip)
    let inode ← getInode ip
    if inode.info.type ≠ .dir then do
      iunlockput curproc ip
      pure (none, elem)
    else if parent ∧ rest = [] then do
      iunlock curproc ip
      pure (some ip, elem)
    else do
      match ← dirlookup ip elem with
      | none => do
        iunlockput curproc ip
        pure (none, elem)
      | some (next, _) => do
        iunlockput curproc ip
        namexLoop curproc parent rest next elem

def rootIno : ℕ := 1

def startInode (curproc : Slot) (path : List Byte) : K Ip :=
  if path.head? = some slash then iget rootIno
  else do
    let cwd ← Op.gets fun state => state.cwd curproc
    idup cwd

def namex (curproc : Slot) (path : List Byte) (parent : Bool)
    (name : List Byte) : K (Option Ip × List Byte) := do
  let ip ← startInode curproc path
  namexLoop curproc parent (elements path) ip name

def namei (curproc : Slot) (path : List Byte) : K (Option Ip) := do
  let found ← namex curproc path false []
  pure found.1

/-- `name` is what the buffer holds before. -/
def nameiparent (curproc : Slot) (path name : List Byte) : K (Option Ip × List Byte) :=
  namex curproc path true name

end Xv6Users.Inodes
