import Xv6Users.Kernel.Inodes

/-!
# The system calls

`kernel/sysfile.c`, `kernel/file.c` and the calls of `kernel/sysproc.c`, run
one at a time.  An argument is `none` when it cannot be fetched from user
memory.  What a pipe or a device answers, whether memory suffices, and what
lies in uninitialised stack memory are parameters of a call.
-/

namespace Xv6Users.Syscalls

open Contracts Processes Inodes Function

/-! ## Files -/

def getFile (fp : Fp) : K File :=
  Op.gets (·.ftable fp)

def State.setFile (state : State) (fp : Fp) (change : File → File) : State :=
  { state with
    ftable := update state.ftable fp (change (state.ftable fp)) }

def setFile (fp : Fp) (change : File → File) : K Unit :=
  Op.modify (State.setFile · fp change)

def fps : List Fp := List.finRange 100

def fds : List Fd := List.finRange 16

def filealloc : K (Option Fp) := do
  let free ← Op.gets fun state =>
    fps.find? fun fp => (state.ftable fp).ref = 0
  match free with
  | none => pure none
  | some fp => do
    setFile fp fun file => { file with ref := 1 }
    pure (some fp)

def filedup (fp : Fp) : K Unit := do
  let file ← getFile fp
  if file.ref < 1 then kpanic "filedup"
  else setFile fp fun file => { file with ref := file.ref + 1 }

/-- The end of `fileclose`, for the last reference. -/
def closeInode (file : File) : K Unit :=
  match file.type, file.ip with
  | .inode, some ip => do
    beginOp
    iput ip
    endOp
  | .inode, none => Op.halt .null
  | _, _ => pure ()

def fileclose (fp : Fp) : K Unit := do
  let file ← getFile fp
  if file.ref < 1 then kpanic "fileclose"
  else if file.ref - 1 > 0 then
    setFile fp fun file => { file with ref := file.ref - 1 }
  else do
    setFile fp fun file => { file with ref := 0, type := .none }
    closeInode file

/-- A pipe that has to wait blocks. -/
def respond (answer : Option ℤ) : K ℤ :=
  match answer with
  | none => Op.block
  | some answer => pure answer

/-- Only the number of bytes counts.  The console sleeps without the lock. -/
def readi (curproc : Slot) (ip : Ip) (off n : ℕ) (answer : Option ℤ) : K ℤ := do
  let inode ← getInode ip
  if inode.info.type = .dev then
    match answer with
    | none => do
      iunlock curproc ip
      Op.block
    | some answer => pure answer
  else do
    let bytes ← Op.gets fun state => state.data inode.inum
    if off > bytes.length then pure (-1)
    else pure (min n (bytes.length - off) : ℕ)

def fileread (curproc : Slot) (fp : Fp) (n : ℕ) (answer : Option ℤ) : K ℤ := do
  let file ← getFile fp
  if file.readable = false then pure (-1)
  else
    match file.type, file.ip with
    | .pipe, _ => respond answer
    | .inode, some ip => do
      ilock curproc (some ip)
      let r ← readi curproc ip file.off n answer
      whenever (0 < r) (setFile fp fun file => { file with off := file.off + r.toNat })
      iunlock curproc ip
      pure r
    | .inode, none => kpanic "ilock"
    | .none, _ => kpanic "fileread"

/-- Bytes that one transaction of `filewrite` takes. -/
def writeMax : ℕ := (maxOpBlocks - 1 - 1 - 2) / 2 * 512

/-- One round of the loop of `filewrite`.  A `device` that is there takes every
byte. -/
def writeChunk (curproc : Slot) (fp : Fp) (ip : Ip) (device : Bool)
    (chunk : List Byte) : K ℤ := do
  beginOp
  ilock curproc (some ip)
  let file ← getFile fp
  let r ← writei ip chunk file.off (if device then chunk.length else -1)
  whenever (0 < r) (setFile fp fun file => { file with off := file.off + r.toNat })
  iunlock curproc ip
  endOp
  pure r

/-- The loop of `filewrite`; the result says whether all bytes were written.
Every round takes at least one byte, so the length is enough fuel. -/
def filewriteLoop (curproc : Slot) (fp : Fp) (ip : Ip) (device : Bool) :
    ℕ → List Byte → K Bool
  | 0, src => pure (src = [])
  | fuel + 1, src =>
    if src = [] then pure true
    else do
      let r ← writeChunk curproc fp ip device (src.take writeMax)
      if r < 0 then pure false
      else if r ≠ (src.take writeMax).length then kpanic "short filewrite"
      else filewriteLoop curproc fp ip device fuel (src.drop writeMax)

def filewrite (curproc : Slot) (fp : Fp) (src : List Byte)
    (answer : Option ℤ) (device : Bool) : K ℤ := do
  let file ← getFile fp
  if file.writable = false then pure (-1)
  else
    match file.type, file.ip with
    | .pipe, _ => respond answer
    | .inode, some ip => do
      let all ← filewriteLoop curproc fp ip device src.length src
      pure (if all then src.length else -1)
    | .inode, none => kpanic "ilock"
    | .none, _ => kpanic "filewrite"

/-- Only the locking of `filestat` counts. -/
def filestat (curproc : Slot) (fp : Fp) : K ℤ := do
  let file ← getFile fp
  match file.type, file.ip with
  | .inode, some ip => do
    ilock curproc (some ip)
    iunlock curproc ip
    pure 0
  | .inode, none => kpanic "ilock"
  | _, _ => pure (-1)

/-! ## Descriptors -/

def argfd (state : State) (curproc : Slot) (fd : Option ℤ) : Option (Fd × Fp) :=
  match fd with
  | none => none
  | some fd =>
    if h : 0 ≤ fd ∧ fd < 16 then
      let index : Fd := ⟨fd.toNat, by omega⟩
      (state.ofile curproc index).map fun fp => (index, fp)
    else none

def getFd (curproc : Slot) (fd : Option ℤ) : K (Option (Fd × Fp)) :=
  Op.gets (argfd · curproc fd)

def State.setOfile (state : State) (curproc : Slot) (fd : Fd) (fp : Option Fp) : State :=
  { state with
    ofile := update state.ofile curproc
      (update (state.ofile curproc) fd fp) }

def setOfile (curproc : Slot) (fd : Fd) (fp : Option Fp) : K Unit :=
  Op.modify (State.setOfile · curproc fd fp)

def fdalloc (curproc : Slot) (fp : Fp) : K (Option Fd) := do
  let free ← Op.gets fun state =>
    fds.find? fun fd => state.ofile curproc fd = none
  match free with
  | none => pure none
  | some fd => do
    setOfile curproc fd (some fp)
    pure (some fd)

def sysDup (curproc : Slot) (fd : Option ℤ) : K ℤ := do
  match ← getFd curproc fd with
  | none => pure (-1)
  | some (_, fp) => do
    match ← fdalloc curproc fp with
    | none => pure (-1)
    | some fd => do
      filedup fp
      pure fd

def sysRead (curproc : Slot) (fd : Option ℤ) (n : Option ℕ)
    (answer : Option ℤ) : K ℤ := do
  match ← getFd curproc fd, n with
  | some (_, fp), some n => fileread curproc fp n answer
  | _, _ => pure (-1)

def sysWrite (curproc : Slot) (fd : Option ℤ) (src : Option (List Byte))
    (answer : Option ℤ) (device : Bool) : K ℤ := do
  match ← getFd curproc fd, src with
  | some (_, fp), some src => filewrite curproc fp src answer device
  | _, _ => pure (-1)

def sysClose (curproc : Slot) (fd : Option ℤ) : K ℤ := do
  match ← getFd curproc fd with
  | none => pure (-1)
  | some (fd, fp) => do
    setOfile curproc fd none
    fileclose fp
    pure 0

def sysFstat (curproc : Slot) (fd : Option ℤ) (fetched : Bool) : K ℤ := do
  match ← getFd curproc fd, fetched with
  | some (_, fp), true => filestat curproc fp
  | _, _ => pure (-1)

/-- `word` is what a null pointer finds in place of the size. -/
def sysFsize (curproc : Slot) (fd : Option ℤ) (word : ℤ) : K ℤ := do
  match ← getFd curproc fd with
  | none => pure (-1)
  | some (_, fp) => do
    let file ← getFile fp
    match file.ip with
    | none => pure word
    | some ip => Op.gets fun state => ((state.data (state.icache ip).inum).length : ℤ)

/-! ## Owners and modes -/

def procUid (curproc : Slot) : K ℤ :=
  Op.gets fun state => (state.table.proc curproc).uid

/-- The word that `ip->uid` reads, which may be that of a recycled slot;
`nullUid` is what a null pointer finds. -/
def ownerWord (ip : Option Ip) (nullUid : ℤ) : K ℤ :=
  match ip with
  | none => pure nullUid
  | some ip => Op.gets fun state => (state.icache ip).info.uid

/-- `ilock`, an assignment to the inode, `iunlock`. -/
def setLocked (curproc : Slot) (ip : Option Ip) (change : Dinode → Dinode) : K Unit :=
  match ip with
  | none => kpanic "ilock"
  | some ip => do
    ilock curproc (some ip)
    setInode ip fun inode => { inode with info := change inode.info }
    iunlock curproc ip

def sysChmod (curproc : Slot) (path : Option (List Byte)) (mode : Option UInt32)
    (nullUid : ℤ) : K ℤ :=
  match path, mode with
  | some path, some mode => do
    let ip ← namei curproc path
    let owner ← ownerWord ip nullUid
    let uid ← procUid curproc
    if uid ≠ owner ∧ uid ≠ root then pure (-1)
    else do
      setLocked curproc ip fun info => { info with mode }
      pure 1
  | _, _ => pure (-1)

def changeOwnerGroup (curproc : Slot) (uid gid : ℤ) (ip : Option Ip) : K Unit :=
  setLocked curproc ip fun info => { info with uid, gid }

def sysChown (curproc : Slot) (path : Option (List Byte)) (uid gid : Option ℤ) : K ℤ :=
  match path, uid, gid with
  | some path, some uid, some gid => do
    let ip ← namei curproc path
    let caller ← procUid curproc
    if caller ≠ root then pure (-1)
    else do
      changeOwnerGroup curproc uid gid ip
      pure 1
  | _, _, _ => pure (-1)

/-- The string at `de.name`, which runs on into the memory `beyond` when the
name has no terminator; `none` for a short read. -/
def direntPath (bytes : List Byte) (off : ℕ) (beyond : List Byte) : Option (List Byte) :=
  let entry := (bytes.drop off).take direntSize
  if entry.length = direntSize then
    some ((entry.drop 2 ++ beyond).takeWhile (· != 0))
  else none

/-- The loop of `sys_updateDirOwner`; the names are looked up from the current
directory. -/
def updateLoop (curproc : Slot) (uid gid : ℤ) (dp : Ip) (beyond : List Byte) :
    List ℕ → K Unit
  | [] => pure ()
  | off :: rest => do
    let inode ← getInode dp
    let bytes ← Op.gets fun state => state.data inode.inum
    match direntPath bytes off beyond with
    | none => kpanic "updateDirOwner"
    | some path => do
      let ip ← namei curproc path
      changeOwnerGroup curproc uid gid ip
      updateLoop curproc uid gid dp beyond rest

/-- There is no check of the caller. -/
def sysUpdateDirOwner (curproc : Slot) (path : Option (List Byte))
    (uid gid : Option ℤ) (beyond : List Byte) : K ℤ :=
  match path, uid, gid with
  | some path, some uid, some gid => do
    match ← namei curproc path with
    | none => kpanic "ilock"
    | some dp => do
      changeOwnerGroup curproc uid gid (some dp)
      let size ← Op.gets fun state =>
        (state.data (state.icache dp).inum).length
      updateLoop curproc uid gid dp beyond ((offsets size).drop 2)
      pure 1
  | _, _, _ => pure (-1)

/-! ## Links -/

def int16 (value : ℤ) : ℤ := Int.bmod value (2 ^ 16)

/-- `nlink` is a `short`. -/
def addLinks (count : ℤ) (info : Dinode) : Dinode :=
  { info with nlink := int16 (info.nlink + count) }

/-- `ip->nlink` is changed and written back. -/
def updateLinks (ip : Ip) (count : ℤ) : K Unit := do
  setInode ip fun inode => { inode with info := addLinks count inode.info }
  iupdate ip

/-- The label `bad` of `sys_link`. -/
def undoLink (curproc : Slot) (ip : Ip) : K ℤ := do
  ilock curproc (some ip)
  updateLinks ip (-1)
  iunlockput curproc ip
  endOp
  pure (-1)

/-- The second half of `sys_link`, from `nameiparent` on. -/
def linkParent (curproc : Slot) (ip : Ip) (new : List Byte) : K ℤ := do
  match ← nameiparent curproc new [] with
  | (none, _) => undoLink curproc ip
  | (some dp, name) => do
    ilock curproc (some dp)
    let inode ← getInode ip
    let linked ← dirlink dp name inode.inum
    iunlockput curproc dp
    if linked < 0 then undoLink curproc ip
    else do
      iput ip
      endOp
      pure 0

def sysLink (curproc : Slot) (old new : Option (List Byte)) : K ℤ :=
  match old, new with
  | some old, some new => do
    beginOp
    match ← namei curproc old with
    | none => do
      endOp
      pure (-1)
    | some ip => do
      ilock curproc (some ip)
      let inode ← getInode ip
      if inode.info.type = .dir then do
        iunlockput curproc ip
        endOp
        pure (-1)
      else do
        updateLinks ip 1
        iunlock curproc ip
        linkParent curproc ip new
  | _, _ => pure (-1)

/-- The loop of `isdirempty`; `none` for a short read. -/
def allUnused (bytes : List Byte) : List ℕ → Option Bool
  | [] => some true
  | off :: rest =>
    match direntAt bytes off with
    | none => none
    | some de => if de.inum ≠ 0 then some false else allUnused bytes rest

def isdirempty (dp : Ip) : K Bool := do
  let inode ← getInode dp
  let bytes ← Op.gets fun state => state.data inode.inum
  match allUnused bytes ((offsets bytes.length).drop 2) with
  | none => kpanic "isdirempty: readi"
  | some empty => pure empty

/-- Whether an inode is a directory that still holds entries. -/
def isOccupied (ip : Ip) : K Bool := do
  let inode ← getInode ip
  if inode.info.type = .dir then do
    let empty ← isdirempty ip
    pure (!empty)
  else pure false

/-- The label `bad` of `sys_unlink`. -/
def undoUnlink (curproc : Slot) (dp : Ip) : K ℤ := do
  iunlockput curproc dp
  endOp
  pure (-1)

/-- The part of `sys_unlink` that clears the entry. -/
def clearEntry (curproc : Slot) (dp ip : Ip) (off : ℕ) : K ℤ := do
  let written ← writei dp (List.replicate direntSize 0) off 0
  if written ≠ direntSize then kpanic "unlink: writei"
  else do
    let inode ← getInode ip
    whenever (inode.info.type = .dir) (updateLinks dp (-1))
    iunlockput curproc dp
    updateLinks ip (-1)
    iunlockput curproc ip
    endOp
    pure 0

def dot : List Byte := [46]

def dotdot : List Byte := [46, 46]

def sysUnlink (curproc : Slot) (path : Option (List Byte)) : K ℤ :=
  match path with
  | none => pure (-1)
  | some path => do
    beginOp
    match ← nameiparent curproc path [] with
    | (none, _) => do
      endOp
      pure (-1)
    | (some dp, name) => do
      ilock curproc (some dp)
      if name = dot ∨ name = dotdot then undoUnlink curproc dp
      else do
        match ← dirlookup dp name with
        | none => undoUnlink curproc dp
        | some (ip, off) => do
          ilock curproc (some ip)
          let inode ← getInode ip
          if inode.info.nlink < 1 then kpanic "unlink: nlink < 1"
          else do
            let occupied ← isOccupied ip
            if occupied then do
              iunlockput curproc ip
              undoUnlink curproc dp
            else clearEntry curproc dp ip off

/-! ## Checks of rights -/

def readRight : UInt32 := 4

def writeRight : UInt32 := 2

def executeRight : UInt32 := 1

def passwdName : List Byte := [112, 97, 115, 115, 119, 100]

def groupName : List Byte := [103, 114, 111, 117, 112]

/-- The `strncmp` tests that let every name with these first bytes pass. -/
def isExempt (name : List Byte) : Prop :=
  name.take 6 = passwdName ∨ name.take 5 = groupName
  deriving Decidable

/-- The owner has the right and is the user, or everybody has it. -/
def grants (right : UInt32) (info : Dinode) (uid : ℤ) : Prop :=
  (info.mode &&& (right <<< 6) ≠ 0 ∧ info.uid = uid) ∨ info.mode &&& right ≠ 0
  deriving Decidable

/-- `validateRead` and `validateWrite` differ in the right only.  `stale` is
what the buffer `s` holds before. -/
def validateParent (right : UInt32) (curproc : Slot) (path stale : List Byte) :
    K ℤ := do
  let uid ← procUid curproc
  let found ← nameiparent curproc path stale
  if isExempt found.2 then pure 1
  else
    match found.1 with
    | none => kpanic "ilock"
    | some ip => do
      ilock curproc (some ip)
      let inode ← getInode ip
      iunlock curproc ip
      pure (if grants right inode.info uid then 1 else -1)

def validateRead (curproc : Slot) (path stale : List Byte) : K ℤ :=
  validateParent readRight curproc path stale

def validateWrite (curproc : Slot) (path stale : List Byte) : K ℤ :=
  validateParent writeRight curproc path stale

def validateExecute (curproc : Slot) (ip : Ip) : K ℤ := do
  let uid ← procUid curproc
  ilock curproc (some ip)
  let inode ← getInode ip
  iunlock curproc ip
  pure (if grants executeRight inode.info uid then 1 else -1)

/-! ## Creating and opening -/

def checkWhen (condition : Prop) [Decidable condition] (check : K ℤ) : K ℤ :=
  if condition then check else pure 1

/-- The new inode keeps uid and gid 0. -/
def initInode (ip : Ip) (major minor : ℤ) : K Unit := do
  setInode ip fun inode =>
    { inode with info := { inode.info with
        major, minor, nlink := 1, mode := 0o644 } }
  iupdate ip

def makeDots (dp ip : Ip) : K Unit := do
  updateLinks dp 1
  let parent ← getInode dp
  let inode ← getInode ip
  let first ← dirlink ip dot inode.inum
  if first < 0 then kpanic "create dots"
  else do
    let second ← dirlink ip dotdot parent.inum
    if second < 0 then kpanic "create dots" else pure ()

/-- The part of `create` for a name that is new. -/
def createNew (curproc : Slot) (dp : Ip) (name : List Byte) (type : FileType)
    (major minor : ℤ) : K (Option Ip) := do
  let ip ← ialloc type
  ilock curproc (some ip)
  initInode ip major minor
  whenever (type = .dir) (makeDots dp ip)
  let inode ← getInode ip
  let linked ← dirlink dp name inode.inum
  if linked < 0 then kpanic "create: dirlink"
  else do
    iunlockput curproc dp
    pure (some ip)

/-- The part of `create` after the check. -/
def createAt (curproc : Slot) (path : List Byte) (type : FileType)
    (major minor : ℤ) : K (Option Ip) := do
  match ← nameiparent curproc path [] with
  | (none, _) => pure none
  | (some dp, name) => do
    ilock curproc (some dp)
    match ← dirlookup dp name with
    | some (ip, _) => do
      iunlockput curproc dp
      ilock curproc (some ip)
      let inode ← getInode ip
      if (type = .file ∧ inode.info.type = .file) ∨ inode.info.type = .dev
      then pure (some ip)
      else do
        iunlockput curproc ip
        pure none
    | none => createNew curproc dp name type major minor

def create (curproc : Slot) (path : List Byte) (type : FileType)
    (major minor : ℤ) (stale : List Byte) : K (Option Ip) := do
  let uid ← procUid curproc
  let allowed ← checkWhen (uid ≠ root) (validateWrite curproc path stale)
  if allowed < 0 then pure none
  else createAt curproc path type major minor

def oRdonly : UInt32 := 0

def oWronly : UInt32 := 1

def oRdwr : UInt32 := 2

def oCreate : UInt32 := 0x200

/-- The checks at the start of `sys_open`. -/
def checkOpen (curproc : Slot) (path : List Byte) (omode : UInt32)
    (stale : List Byte) : K Bool := do
  let uid ← procUid curproc
  if uid ≠ root then do
    let readable ← checkWhen (omode = oRdonly ∨ omode = oRdwr)
      (validateRead curproc path stale)
    if readable < 0 then pure false
    else do
      let writable ← checkWhen
        (omode = oWronly ∨ omode = oRdwr ∨ omode = oCreate)
        (validateWrite curproc path stale)
      pure (0 ≤ writable)
  else pure true

def openInode (curproc : Slot) (path : List Byte) (omode : UInt32)
    (stale : List Byte) : K (Option Ip) :=
  if omode &&& oCreate ≠ 0 then create curproc path .file 0 0 stale
  else do
    match ← namei curproc path with
    | none => pure none
    | some ip => do
      ilock curproc (some ip)
      let inode ← getInode ip
      if inode.info.type = .dir ∧ omode ≠ oRdonly then do
        iunlockput curproc ip
        pure none
      else pure (some ip)

/-- A failed `sys_open` gives the inode back. -/
def undoOpen (curproc : Slot) (ip : Ip) : K ℤ := do
  iunlockput curproc ip
  endOp
  pure (-1)

def openedFile (ip : Ip) (omode : UInt32) (file : File) : File :=
  { file with
    type := .inode
    ip := some ip
    off := 0
    readable := omode &&& oWronly = 0
    writable := omode &&& oWronly ≠ 0 ∨ omode &&& oRdwr ≠ 0 }

/-- The part of `sys_open` that makes the descriptor. -/
def installFile (curproc : Slot) (ip : Ip) (omode : UInt32) : K ℤ := do
  match ← filealloc with
  | none => undoOpen curproc ip
  | some fp => do
    match ← fdalloc curproc fp with
    | none => do
      fileclose fp
      undoOpen curproc ip
    | some fd => do
      iunlock curproc ip
      endOp
      setFile fp (openedFile ip omode)
      pure fd

def sysOpen (curproc : Slot) (path : Option (List Byte))
    (omode : Option UInt32) (stale : List Byte) : K ℤ :=
  match path, omode with
  | some path, some omode => do
    let checked ← checkOpen curproc path omode stale
    if checked then do
      beginOp
      match ← openInode curproc path omode stale with
      | none => do
        endOp
        pure (-1)
      | some ip => installFile curproc ip omode
    else pure (-1)
  | _, _ => pure (-1)

/-- `sys_mkdir` and `sys_mknod` differ in what they create. -/
def createAndPut (curproc : Slot) (path : Option (List Byte)) (type : FileType)
    (major minor : ℤ) (stale : List Byte) : K ℤ := do
  beginOp
  match path with
  | none => do
    endOp
    pure (-1)
  | some path => do
    match ← create curproc path type major minor stale with
    | none => do
      endOp
      pure (-1)
    | some ip => do
      iunlockput curproc ip
      endOp
      pure 0

def sysMkdir (curproc : Slot) (path : Option (List Byte)) (stale : List Byte) : K ℤ :=
  createAndPut curproc path .dir 0 0 stale

/-- The device numbers are cut to `short`. -/
def sysMknod (curproc : Slot) (path : Option (List Byte))
    (major minor : Option ℤ) (stale : List Byte) : K ℤ :=
  match major, minor with
  | some major, some minor => createAndPut curproc path .dev (int16 major) (int16 minor) stale
  | _, _ => createAndPut curproc none .dev 0 0 stale

/-! ## Directories and programs -/

def setCwd (curproc : Slot) (ip : Option Ip) : K Unit :=
  Op.modify fun state =>
    { state with cwd := update state.cwd curproc ip }

/-- `iput` of the current directory. -/
def putCwd (curproc : Slot) : K Unit := do
  let cwd ← Op.gets fun state => state.cwd curproc
  match cwd with
  | none => Op.halt .null
  | some ip => iput ip

/-- The part of `sys_chdir` after the check. -/
def enterDir (curproc : Slot) (ip : Ip) : K ℤ := do
  ilock curproc (some ip)
  let inode ← getInode ip
  if inode.info.type ≠ .dir then do
    iunlockput curproc ip
    endOp
    pure (-1)
  else do
    iunlock curproc ip
    putCwd curproc
    endOp
    setCwd curproc (some ip)
    pure 0

def sysChdir (curproc : Slot) (path : Option (List Byte)) : K ℤ := do
  beginOp
  match path with
  | none => do
    endOp
    pure (-1)
  | some path => do
    match ← namei curproc path with
    | none => do
      endOp
      pure (-1)
    | some ip => do
      let uid ← procUid curproc
      let allowed ← checkWhen (uid ≠ root) (validateExecute curproc ip)
      if allowed < 0 then do
        endOp
        pure (-1)
      else enterDir curproc ip

def setTable (change : Processes.Table → Processes.Table) : K Unit :=
  Op.modify fun state => { state with table := change state.table }

/-- `loads` says whether the file is a program that fits into memory. -/
def sysExec (curproc : Slot) (path : Option (List Byte)) (loads : Bool) : K ℤ :=
  match path with
  | none => pure (-1)
  | some path => do
    beginOp
    match ← namei curproc path with
    | none => do
      endOp
      pure (-1)
    | some ip => do
      ilock curproc (some ip)
      iunlockput curproc ip
      endOp
      if loads then do
        setTable (Processes.exec · curproc (some path))
        pure 0
      else pure (-1)

def pipeFile (readable : Bool) (file : File) : File :=
  { file with type := .pipe, readable, writable := !readable }

def installPipe (curproc : Slot) (rf wf : Fp) : K ℤ := do
  match ← fdalloc curproc rf with
  | none => do
    fileclose rf
    fileclose wf
    pure (-1)
  | some fd0 => do
    match ← fdalloc curproc wf with
    | none => do
      setOfile curproc fd0 none
      fileclose rf
      fileclose wf
      pure (-1)
    | some _ => pure 0

/-- `pipealloc` and `sys_pipe`; `memory` says whether `kalloc` succeeds. -/
def sysPipe (curproc : Slot) (fetched memory : Bool) : K ℤ :=
  if fetched then do
    match ← filealloc with
    | none => pure (-1)
    | some rf => do
      match ← filealloc with
      | none => do
        fileclose rf
        pure (-1)
      | some wf =>
        if memory then do
          setFile rf (pipeFile true)
          setFile wf (pipeFile false)
          installPipe curproc rf wf
        else do
          fileclose rf
          fileclose wf
          pure (-1)
  else pure (-1)

/-! ## Processes -/

/-- The loop of `fork` over the open files. -/
def dupFiles (curproc child : Slot) : List Fd → K Unit
  | [] => pure ()
  | fd :: rest => do
    let fp ← Op.gets fun state => state.ofile curproc fd
    match fp with
    | none => dupFiles curproc child rest
    | some fp => do
      filedup fp
      setOfile child fd (some fp)
      dupFiles curproc child rest

/-- The child is runnable when the call returns; `memory` says whether the
process image can be copied. -/
def sysFork (curproc : Slot) (memory : Bool) : K ℤ := do
  let slot ← Op.gets fun state => (allocproc state.table).map Prod.snd
  match slot with
  | none => pure (-1)
  | some child => do
    setTable (Processes.fork · curproc)
    if memory then do
      setTable (forkCopy · curproc child)
      dupFiles curproc child fds
      let cwd ← Op.gets fun state => state.cwd curproc
      let ip ← idup cwd
      setCwd child (some ip)
      setTable (forkReturn · curproc child)
      Op.gets fun state => (state.table.proc child).pid
    else do
      setTable (forkFails · curproc child)
      pure (-1)

/-- The loop of `exit` over the open files. -/
def closeFiles (curproc : Slot) : List Fd → K Unit
  | [] => pure ()
  | fd :: rest => do
    let fp ← Op.gets fun state => state.ofile curproc fd
    match fp with
    | none => closeFiles curproc rest
    | some fp => do
      fileclose fp
      setOfile curproc fd none
      closeFiles curproc rest

def sysExit (curproc : Slot) : K ℤ := do
  let initproc ← Op.gets fun state => state.table.initproc
  if curproc = initproc then kpanic "init exiting"
  else do
    closeFiles curproc fds
    beginOp
    putCwd curproc
    endOp
    setCwd curproc none
    setTable (exitLocked · curproc)
    pure 0

/-- The pid of the child that `wait` finds. -/
def waitResult (table : Processes.Table) (curproc : Slot) : ℤ :=
  match slots.find? fun slot =>
      (table.proc slot).parent = some curproc ∧ (table.proc slot).state = .zombie with
  | some child => (table.proc child).pid
  | none => -1

/-- A `wait` that would sleep blocks and is called again later. -/
def sysWait (curproc : Slot) : K ℤ := do
  let table ← Op.gets State.table
  if (Processes.wait table curproc).control curproc = .waiting then Op.block
  else do
    setTable (Processes.wait · curproc)
    pure (waitResult table curproc)

def sysKill (pid : Option ℤ) : K ℤ :=
  match pid with
  | none => pure (-1)
  | some pid => do
    let table ← Op.gets State.table
    setTable (Processes.kill · pid)
    pure (if slots.any fun slot => (table.proc slot).pid = pid then 0 else -1)

def sysSetuid (curproc : Slot) (uid : Option ℤ) : K ℤ := do
  let caller ← procUid curproc
  setTable (Processes.setuid · curproc uid)
  pure (if uid.isSome ∧ caller = root then 1 else -1)

/-! ## The table of system calls -/

inductive Call where
  | fork (memory : Bool)
  | exit
  | wait
  | pipe (fetched memory : Bool)
  | read (fd : Option ℤ) (n : Option ℕ) (answer : Option ℤ)
  | kill (pid : Option ℤ)
  | exec (path : Option (List Byte)) (loads : Bool)
  | fstat (fd : Option ℤ) (fetched : Bool)
  | chdir (path : Option (List Byte))
  | dup (fd : Option ℤ)
  | getpid
  | sbrk (answer : ℤ)
  | sleep (answer : Option ℤ)
  | uptime (answer : ℤ)
  | open (path : Option (List Byte)) (omode : Option UInt32) (stale : List Byte)
  | write (fd : Option ℤ) (src : Option (List Byte)) (answer : Option ℤ)
      (device : Bool)
  | mknod (path : Option (List Byte)) (major minor : Option ℤ)
      (stale : List Byte)
  | unlink (path : Option (List Byte))
  | link (old new : Option (List Byte))
  | mkdir (path : Option (List Byte)) (stale : List Byte)
  | close (fd : Option ℤ)
  | fsize (fd : Option ℤ) (word : ℤ)
  | echoOnOff (answer : ℤ)
  | clear (answer : ℤ)
  | getuid
  | geteuid
  | setuid (uid : Option ℤ)
  | chmod (path : Option (List Byte)) (mode : Option UInt32) (nullUid : ℤ)
  | chown (path : Option (List Byte)) (uid gid : Option ℤ)
  | updateDirOwner (path : Option (List Byte)) (uid gid : Option ℤ)
      (beyond : List Byte)
  deriving DecidableEq

/-- Calls that touch no inode, file or process of this model return what they
are given. -/
def syscall (curproc : Slot) : Call → K ℤ
  | .fork memory => sysFork curproc memory
  | .exit => sysExit curproc
  | .wait => sysWait curproc
  | .pipe fetched memory => sysPipe curproc fetched memory
  | .read fd n answer => sysRead curproc fd n answer
  | .kill pid => sysKill pid
  | .exec path loads => sysExec curproc path loads
  | .fstat fd fetched => sysFstat curproc fd fetched
  | .chdir path => sysChdir curproc path
  | .dup fd => sysDup curproc fd
  | .getpid => Op.gets fun state => (state.table.proc curproc).pid
  | .sbrk answer => pure answer
  | .sleep answer => respond answer
  | .uptime answer => pure answer
  | .open path omode stale => sysOpen curproc path omode stale
  | .write fd src answer device => sysWrite curproc fd src answer device
  | .mknod path major minor stale => sysMknod curproc path major minor stale
  | .unlink path => sysUnlink curproc path
  | .link old new => sysLink curproc old new
  | .mkdir path stale => sysMkdir curproc path stale
  | .close fd => sysClose curproc fd
  | .fsize fd word => sysFsize curproc fd word
  | .echoOnOff answer => pure answer
  | .clear answer => pure answer
  | .getuid => procUid curproc
  | .geteuid => Op.gets fun state => (state.table.proc curproc).euid
  | .setuid uid => sysSetuid curproc uid
  | .chmod path mode nullUid => sysChmod curproc path mode nullUid
  | .chown path uid gid => sysChown curproc path uid gid
  | .updateDirOwner path uid gid beyond => sysUpdateDirOwner curproc path uid gid beyond

end Xv6Users.Syscalls
