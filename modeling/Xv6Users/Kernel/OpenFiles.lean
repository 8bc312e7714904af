import Xv6Users.Core.Holders
import Xv6Users.Core.ReferenceCounts
import Xv6Users.Kernel.Syscalls

/-!
# Open files and pipes

The file table of `kernel/file.c`, the descriptors of the processes and the pipes of
`kernel/pipe.c`.  A step is what a process does under one lock or to its own descriptors, so
that the calls of several processes interleave; `Control` says where a process is in its
call.  Calls that fail before they reach the file table are no steps.
-/

namespace Xv6Users.OpenFiles

open Holders ReferenceCounts Function
open Processes (Slot)
open Inodes (Fp Fd)
open Syscalls (fps fds)

/-- `FD_NONE`, `FD_PIPE` with its pipe, and `FD_INODE`. -/
inductive FileType where
  | none
  | pipe (id : ℕ)
  | inode
  deriving DecidableEq

structure File where
  ref : ℕ
  type : FileType
  writable : Bool
  deriving DecidableEq

/-- `freed` counts the calls of `kfree` for the page of the pipe. -/
structure Pipe where
  readopen : Bool
  writeopen : Bool
  freed : ℕ
  deriving DecidableEq

/-- The end of a pipe that a file is, the writing one if `true`. -/
abbrev End := ℕ × Bool

/-- What a process has yet to do in its call. -/
inductive Control where
  | idle
  /-- `sys_open` has a file, then a descriptor for it. -/
  | opening (f : Fp)
  | naming (fd : Fd) (f : Fp)
  /-- `sys_dup` has a descriptor and counts it next. -/
  | duplicating (fd : Fd) (f : Fp)
  /-- `pipealloc` has one file, then two. -/
  | halfPipe (rf : Fp)
  | twoFiles (rf wf : Fp)
  /-- `sys_pipe` has a pipe, then one descriptor. -/
  | piping (rf wf : Fp)
  | halfPiped (fd0 : Fd) (rf wf : Fp)
  /-- The call ends when these files are closed. -/
  | closing (rest : List Fp)
  | closingPipe (pipe : End) (rest : List Fp)
  | forking (child : Slot) (rest : List Fd)
  | exiting (rest : List Fd)
  /-- `exit` has dropped the reference of a descriptor. -/
  | clearing (pipe : Option End) (fd : Fd) (rest : List Fd)
  deriving DecidableEq

/-- Whether a slot of the process table holds no process, one that is being made or one
that runs. -/
inductive Status where
  | free
  | fresh
  | live
  deriving DecidableEq

structure State where
  files : Fp → File
  ofile : Slot → Fd → Option Fp
  control : Slot → Control
  status : Slot → Status
  pipes : ℕ → Pipe
  npipes : ℕ

def State.setFile (state : State) (f : Fp) (file : File) : State :=
  { state with files := update state.files f file }

def State.setFd (state : State) (p : Slot) (fd : Fd) (f : Option Fp) : State :=
  { state with
    ofile := update state.ofile p (update (state.ofile p) fd f) }

def State.goto (state : State) (p : Slot) (control : Control) : State :=
  { state with control := update state.control p control }

def State.setStatus (state : State) (p : Slot) (status : Status) : State :=
  { state with status := update state.status p status }

/-! ## The functions of the source -/

/-- The free file that `filealloc` finds. -/
def freeFile (state : State) : Option Fp :=
  fps.find? fun f => (state.files f).ref = 0

def filealloc (state : State) (f : Fp) : State :=
  state.setFile f { state.files f with ref := 1 }

/-- The free descriptor that `fdalloc` finds. -/
def freeFd (state : State) (p : Slot) : Option Fd :=
  fds.find? fun fd => state.ofile p fd = none

/-- `none` is the panic. -/
def filedup (state : State) (f : Fp) : Option State :=
  if (state.files f).ref < 1 then none
  else some (state.setFile f { state.files f with ref := (state.files f).ref + 1 })

def endOf (file : File) : Option End :=
  match file.type with
  | .pipe id => some (id, file.writable)
  | .none | .inode => none

/-- `fileclose` under the lock of the table, with the end of a pipe that is to be closed
then; `none` is the panic. -/
def fileclose (state : State) (f : Fp) : Option (State × Option End) :=
  if (state.files f).ref < 1 then none
  else if (state.files f).ref - 1 > 0 then
    some (state.setFile f { state.files f with ref := (state.files f).ref - 1 }, none)
  else
    some (state.setFile f { state.files f with ref := 0, type := .none },
      endOf (state.files f))

/-- The pipe with one end closed; the page is freed if it was the last. -/
def Pipe.close (pipe : Pipe) (writable : Bool) : Pipe :=
  let pipe :=
    if writable then { pipe with writeopen := false } else { pipe with readopen := false }
  if pipe.readopen = false ∧ pipe.writeopen = false then
    { pipe with freed := pipe.freed + 1 }
  else pipe

def pipeclose (state : State) (pipe : End) : State :=
  { state with
    pipes := update state.pipes pipe.1 ((state.pipes pipe.1).close pipe.2) }

/-- The page is there: both files become the ends of a new pipe. -/
def pipealloc (state : State) (rf wf : Fp) : State :=
  { (state.setFile rf { state.files rf with type := .pipe state.npipes, writable := false }).setFile
      wf { state.files wf with type := .pipe state.npipes, writable := true } with
    pipes := update state.pipes state.npipes ⟨true, true, 0⟩
    npipes := state.npipes + 1 }

inductive Action where
  | open
  | openFd
  | openDone (writable : Bool)
  | dup (fd : Fd)
  | dupCount
  | close (fd : Fd)
  | closeFile
  | closePipe
  | pipe
  | pipeFile
  | pipePage (memory : Bool)
  | pipeFd
  | pipeDone
  | fork (child : Slot)
  | forkFile
  | exit
  | exitFile
  | exitClear
  deriving DecidableEq

/-- One step of a live process; `none` when it is not possible or the machine stops. -/
def act (state : State) (p : Slot) : Control → Action → Option State
  | .idle, .open =>
    match freeFile state with
    | none => some state
    | some f => some ((filealloc state f).goto p (.opening f))
  | .opening f, .openFd =>
    match freeFd state p with
    | none => some (state.goto p (.closing [f]))
    | some fd => some ((state.setFd p fd (some f)).goto p (.naming fd f))
  | .naming _ f, .openDone writable =>
    some ((state.setFile f { state.files f with type := .inode, writable }).goto p .idle)
  | .idle, .dup fd =>
    match state.ofile p fd, freeFd state p with
    | some f, some fd' => some ((state.setFd p fd' (some f)).goto p (.duplicating fd' f))
    | _, _ => some state
  | .duplicating _ f, .dupCount => (filedup state f).map (·.goto p .idle)
  | .idle, .close fd =>
    match state.ofile p fd with
    | none => some state
    | some f => some ((state.setFd p fd none).goto p (.closing [f]))
  | .closing [], .closeFile => some (state.goto p .idle)
  | .closing (f :: rest), .closeFile =>
    match fileclose state f with
    | none => none
    | some (state, none) => some (state.goto p (.closing rest))
    | some (state, some pipe) => some (state.goto p (.closingPipe pipe rest))
  | .closingPipe pipe rest, .closePipe => some ((pipeclose state pipe).goto p (.closing rest))
  | .idle, .pipe =>
    match freeFile state with
    | none => some state
    | some rf => some ((filealloc state rf).goto p (.halfPipe rf))
  | .halfPipe rf, .pipeFile =>
    match freeFile state with
    | none => some (state.goto p (.closing [rf]))
    | some wf => some ((filealloc state wf).goto p (.twoFiles rf wf))
  | .twoFiles rf wf, .pipePage memory =>
    if memory then some ((pipealloc state rf wf).goto p (.piping rf wf))
    else some (state.goto p (.closing [rf, wf]))
  | .piping rf wf, .pipeFd =>
    match freeFd state p with
    | none => some (state.goto p (.closing [rf, wf]))
    | some fd0 => some ((state.setFd p fd0 (some rf)).goto p (.halfPiped fd0 rf wf))
  | .halfPiped fd0 rf wf, .pipeDone =>
    match freeFd state p with
    | none => some ((state.setFd p fd0 none).goto p (.closing [rf, wf]))
    | some fd1 => some ((state.setFd p fd1 (some wf)).goto p .idle)
  | .idle, .fork child =>
    if state.status child = .free then
      some ((state.setStatus child .fresh).goto p (.forking child fds))
    else none
  | .forking child [], .forkFile => some ((state.setStatus child .live).goto p .idle)
  | .forking child (fd :: rest), .forkFile =>
    match state.ofile p fd with
    | none => some (state.goto p (.forking child rest))
    | some f => (filedup state f).map fun state =>
      (state.setFd child fd (some f)).goto p (.forking child rest)
  | .idle, .exit => some (state.goto p (.exiting fds))
  | .exiting [], .exitFile => some ((state.setStatus p .free).goto p .idle)
  | .exiting (fd :: rest), .exitFile =>
    match state.ofile p fd with
    | none => some (state.goto p (.exiting rest))
    | some f => (fileclose state f).map fun (state, pipe) => state.goto p (.clearing pipe fd rest)
  | .clearing none fd rest, .exitClear => some ((state.setFd p fd none).goto p (.exiting rest))
  | .clearing (some pipe) fd rest, .exitClear =>
    some (((pipeclose state pipe).setFd p fd none).goto p (.exiting rest))
  | _, _ => none

def step (state : State) (p : Slot) (action : Action) : Option State :=
  if state.status p = .live then act state p (state.control p) action else none

/-- No file is open, and the first process runs. -/
def start : State where
  files _ := ⟨0, .none, false⟩
  ofile _ _ := none
  control _ := .idle
  status p := if p = 0 then .live else .free
  pipes _ := ⟨false, false, 0⟩
  npipes := 0

def Reachable (state : State) : Prop :=
  Relation.ReflTransGen (fun before after => ∃ p action, step before p action = some after)
    start state

end Xv6Users.OpenFiles
