import Xv6Users.Core.Attempts
import Xv6Users.Kernel.Processes
import Xv6Users.Kernel.UserBytes

/-!
# Loading a program

`exec` of `kernel/exec.c` with `loaduvm`.  The file is given by its bytes, and the arguments
are strings of the calling process, whose pages do not change while `exec` runs.
-/

namespace Xv6Users.VirtualMemory

open Attempts Buffers LittleEndian

/-- What `readi` copies from a regular file, or `none` where it returns -1. -/
def readi (content : List UInt8) (off n : ℕ) : Option (List UInt8) :=
  if content.length < off ∨ (off + n) % 2 ^ 32 < off then none else some (field n off content)

/-- The fields of a program header that `exec` reads. -/
structure Proghdr where
  type : UInt32
  off : UInt32
  vaddr : UInt32
  filesz : UInt32
  memsz : UInt32
  deriving DecidableEq

def proghdr (bytes : List UInt8) : Proghdr where
  type := word32 0 bytes
  off := word32 4 bytes
  vaddr := word32 8 bytes
  filesz := word32 16 bytes
  memsz := word32 20 bytes

/-- The fields of the file's header that `exec` reads. -/
structure Elfhdr where
  magic : UInt32
  entry : UInt32
  phoff : UInt32
  phnum : UInt16
  deriving DecidableEq

def elfhdr (bytes : List UInt8) : Elfhdr where
  magic := word32 0 bytes
  entry := word32 24 bytes
  phoff := word32 28 bytes
  phnum := word16 44 bytes

def elfMagic : UInt32 := 0x464C457F

def header (content : List UInt8) : Option Elfhdr :=
  match readi content 0 52 with
  | none => none
  | some bytes =>
    if bytes.length ≠ 52 then none
    else if (elfhdr bytes).magic ≠ elfMagic then none
    else some (elfhdr bytes)

/-! ## Segments -/

/-- The loop of `loaduvm` over the pages that are left. -/
def loadLoop (content : List UInt8) (pgdir addr offset sz : ℕ) :
    List ℕ → Memory → Option (Bool × Memory)
  | [], memory => some (true, memory)
  | i :: rest, memory =>
    match walkpgdir memory pgdir (addr / 4096 + i) false with
    | (none, _) => none
    | (some (pgtab, index), memory) =>
      let page := (memory.words pgtab index).page
      let n := min (sz - i * 4096) 4096
      match readi content ((offset + i * 4096) % 2 ^ 32) n with
      | none => some (false, memory)
      | some bytes =>
        if bytes.length ≠ n then some (false, memory.store page 0 bytes)
        else loadLoop content pgdir addr offset sz rest (memory.store page 0 bytes)

/-- The result `false` is the error; an address that is not aligned stops the machine. -/
def loaduvm (content : List UInt8) (memory : Memory) (pgdir addr offset sz : ℕ) :
    Option (Bool × Memory) :=
  if addr % 4096 ≠ 0 then none
  else loadLoop content pgdir addr offset sz (List.range ((sz + 4095) / 4096)) memory

variable (kernel : Kernel)

/-- The call of `allocuvm`; 0 makes `exec` give up. -/
def enlarge (pgdir sz newsz : ℕ) : Attempt Memory ℕ :=
  fun memory =>
    match allocuvm kernel memory pgdir sz newsz with
    | none => none
    | some (size, memory) => if size = 0 then some (none, memory) else some (some size, memory)

/-- The call of `loaduvm`; an error makes `exec` give up. -/
def load (content : List UInt8) (pgdir : ℕ) (ph : Proghdr) : Attempt Memory Unit :=
  fun memory =>
    match loaduvm content memory pgdir ph.vaddr.toNat ph.off.toNat ph.filesz.toNat with
    | none => none
    | some (ok, memory) => if ok then some (some (), memory) else some (none, memory)

def elfProgLoad : UInt32 := 1

/-- One program header: the size of the image after it. -/
def loadSegment (content : List UInt8) (pgdir sz : ℕ) (ph : Proghdr) : Attempt Memory ℕ :=
  if ph.type ≠ elfProgLoad then pure sz
  else if ph.memsz < ph.filesz then Attempt.giveUp
  else if ph.vaddr + ph.memsz < ph.vaddr then Attempt.giveUp
  else do
    let sz ← enlarge kernel pgdir sz (ph.vaddr + ph.memsz).toNat
    if ph.vaddr.toNat % 4096 ≠ 0 then Attempt.giveUp
    else do
      load content pgdir ph
      pure sz

/-- The program headers that are left, from an offset of the file on. -/
def loadSegments (content : List UInt8) (pgdir : ℕ) : ℕ → ℕ → ℕ → Attempt Memory ℕ
  | 0, _, sz => pure sz
  | count + 1, off, sz =>
    match readi content off 32 with
    | none => Attempt.giveUp
    | some bytes =>
      if bytes.length ≠ 32 then Attempt.giveUp
      else do
        let sz ← loadSegment kernel content pgdir sz (proghdr bytes)
        loadSegments content pgdir count ((off + 32) % 2 ^ 32) sz

/-! ## The stack -/

def stackPages (pgdir sz : ℕ) : Attempt Memory ℕ := do
  let sz ← enlarge kernel pgdir (pgroundup sz * 4096) ((pgroundup sz * 4096 + 8192) % 2 ^ 32)
  (fun memory =>
    (clearpteu memory pgdir ((sz - 8192) / 4096)).map fun memory => (some sz, memory))

/-- A string of a process. -/
structure CString where
  bytes : List UInt8
  nonzero : 0 ∉ bytes
  short : bytes.length + 1 < 2 ^ 32

def maxArg : ℕ := 32

/-- The call of `copyout`; -1 makes `exec` give up. -/
def push (checked : Bool) (pgdir sp : ℕ) (buf : List UInt8) : Attempt Memory Unit :=
  fun memory =>
    match copyout checked memory pgdir sp buf with
    | none => none
    | some (status, memory) => if status < 0 then some (none, memory) else some (some (), memory)

/-- The stack pointer after a string, aligned. -/
def below (sp len : ℕ) : ℕ :=
  (((sp : ℤ) - len) % 2 ^ 32).toNat / 4 * 4

/-- The strings that are left are pushed; `ustack` has the addresses of the others. -/
def pushArgs (checked : Bool) (pgdir : ℕ) :
    List CString → ℕ → List ℕ → Attempt Memory (ℕ × List ℕ)
  | [], sp, ustack => pure (sp, ustack)
  | arg :: rest, sp, ustack =>
    if ustack.length ≥ maxArg then Attempt.giveUp
    else do
      push checked pgdir (below sp (arg.bytes.length + 1)) (arg.bytes ++ [0])
      pushArgs checked pgdir rest (below sp (arg.bytes.length + 1))
        (ustack ++ [below sp (arg.bytes.length + 1)])

def subtract (sp len : ℕ) : ℕ :=
  (((sp : ℤ) - len) % 2 ^ 32).toNat

/-- The words that `exec` pushes last. -/
def frame (sp : ℕ) (ustack : List ℕ) : List ℕ :=
  [0xffffffff, ustack.length, subtract sp ((ustack.length + 1) * 4)] ++ ustack ++ [0]

/-- The image of a program in a new directory: its size and its stack pointer. -/
def image (checked : Bool) (content : List UInt8) (elf : Elfhdr) (argv : List CString)
    (pgdir : ℕ) : Attempt Memory (ℕ × ℕ) := do
  let sz ← loadSegments kernel content pgdir elf.phnum.toNat elf.phoff.toNat 0
  let sz ← stackPages kernel pgdir sz
  let (sp, ustack) ← pushArgs checked pgdir argv sz []
  let esp := subtract sp ((3 + ustack.length + 1) * 4)
  push checked pgdir esp ((frame sp ustack).flatMap (toBytes 4))
  pure (sz, esp)

/-- The fields of the process that `exec` sets. -/
structure Process where
  pgdir : ℕ
  sz : ℕ
  eip : ℕ
  esp : ℕ
  name : List UInt8
  deriving DecidableEq

/-- The call with the bytes of the file; `file` is `none` where `namei` finds nothing. -/
def exec (checked : Bool) (path : List UInt8) (file : Option (List UInt8)) (argv : List CString)
    (curproc : Process) (memory : Memory) : Option (ℤ × Process × Memory) :=
  match file with
  | none => some (-1, curproc, memory)
  | some content =>
    match header content with
    | none => some (-1, curproc, memory)
    | some elf =>
      match setupkvm kernel memory with
      | none => none
      | some (none, memory) => some (-1, curproc, memory)
      | some (some pgdir, memory) =>
        match image kernel checked content elf argv pgdir memory with
        | none => none
        | some (none, memory) =>
          (freevm kernel memory pgdir).map fun memory => (-1, curproc, memory)
        | some (some (sz, esp), memory) =>
          (freevm kernel memory curproc.pgdir).map fun memory =>
            (0, ⟨pgdir, sz, elf.entry.toNat, esp, Processes.programName path⟩, memory)

end Xv6Users.VirtualMemory
