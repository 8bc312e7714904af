import Xv6Users.Core.RingBuffer
import Xv6Users.Kernel.Processes

/-!
# Pipes

`kernel/pipe.c` with the part of `sleep`, `wakeup` and `kill` that pipes use.  A step is
what a process does while it holds the lock of the pipe: from `acquire`, or from the
return of `sleep`, to the next `sleep` or `release`.  So the states between steps are
those in which the lock is free.
-/

namespace Xv6Users.Pipes

open RingBuffer
open Processes (Byte)

/-- `PIPESIZE`. -/
def pipesize : ℕ := 512

structure Pipe where
  data : ℕ → Byte
  nread : UInt32
  nwrite : UInt32
  readopen : Bool
  writeopen : Bool

/-- Where a process is in `piperead` or `pipewrite`; one that does not sleep takes the
lock next. -/
inductive Stage where
  | idle
  | reading (n : ℕ)
  | readSleeps (n : ℕ)
  | writing (addr : List Byte)
  | writeSleeps (addr : List Byte)

/-- The pipe, the processes that use it, and the bytes that writers have put into it and
readers have got from it so far. -/
structure State (Proc : Type) where
  pipe : Pipe
  stage : Proc → Stage
  killed : Proc → Bool
  accepted : List Byte
  delivered : List Byte

namespace Pipe

variable (pipe : Pipe)

def isFull : Prop :=
  pipe.nwrite = pipe.nread + UInt32.ofNat pipesize
  deriving Decidable

def push (byte : Byte) : Pipe :=
  { pipe with
    data := Function.update pipe.data (cell pipesize pipe.nwrite) byte
    nwrite := pipe.nwrite + 1 }

def pop : Pipe :=
  { pipe with nread := pipe.nread + 1 }

def buffered : List Byte :=
  contents pipesize pipe.data pipe.nread pipe.nwrite

end Pipe

/-- The loop of `pipewrite` up to the point where it is done or the buffer is full: the
bytes that are in the buffer now and those that are not. -/
def fill (pipe : Pipe) : List Byte → Pipe × List Byte × List Byte
  | [] => (pipe, [], [])
  | byte :: rest =>
    if pipe.isFull then (pipe, [], byte :: rest)
    else
      let (pipe', taken, left) := fill (pipe.push byte) rest
      (pipe', byte :: taken, left)

/-- The loop of `piperead` that copies. -/
def drain (pipe : Pipe) : ℕ → Pipe × List Byte
  | 0 => (pipe, [])
  | n + 1 =>
    if pipe.nread = pipe.nwrite then (pipe, [])
    else
      let (pipe', bytes) := drain pipe.pop n
      (pipe', pipe.data (cell pipesize pipe.nread) :: bytes)

/-- `wakeup(&p->nread)`. -/
def wakeReader : Stage → Stage
  | .readSleeps n => .reading n
  | stage => stage

/-- `wakeup(&p->nwrite)`. -/
def wakeWriter : Stage → Stage
  | .writeSleeps addr => .writing addr
  | stage => stage

section Calls

variable {Proc : Type} [DecidableEq Proc]

namespace State

variable (state : State Proc)

def goto (self : Proc) (stage : Stage) : State Proc :=
  { state with stage := Function.update state.stage self stage }

def wakeReaders : State Proc :=
  { state with stage := fun proc => wakeReader (state.stage proc) }

def wakeWriters : State Proc :=
  { state with stage := fun proc => wakeWriter (state.stage proc) }

def accept (addr : List Byte) : State Proc :=
  { state with
    pipe := (fill state.pipe addr).1
    accepted := state.accepted ++ (fill state.pipe addr).2.1 }

/-- Bytes have come out of the buffer. -/
def deliver (n : ℕ) : State Proc :=
  { state with
    pipe := (drain state.pipe n).1
    delivered := state.delivered ++ (drain state.pipe n).2 }

end State

/-- `pipewrite` from the top of its loop, with the bytes that are left; there is no result
where the process goes to sleep, and -1 stands for a failure. -/
def pipewrite (state : State Proc) (self : Proc) (addr : List Byte) : State Proc × Option ℤ :=
  if (fill state.pipe addr).2.2 = [] then
    ((state.accept addr).wakeReaders.goto self .idle, some addr.length)
  else if state.pipe.readopen = false ∨ state.killed self then
    ((state.accept addr).goto self .idle, some (-1))
  else
    ((state.accept addr).wakeReaders.goto self (.writeSleeps (fill state.pipe addr).2.2), none)

/-- `piperead` from the top of its loop. -/
def piperead (state : State Proc) (self : Proc) (n : ℕ) : State Proc × Option ℤ :=
  if state.pipe.nread = state.pipe.nwrite ∧ state.pipe.writeopen then
    if state.killed self then (state.goto self .idle, some (-1))
    else (state.goto self (.readSleeps n), none)
  else
    ((state.deliver n).wakeWriters.goto self .idle, some (drain state.pipe n).2.length)

def pipeclose (state : State Proc) (writable : Bool) : State Proc :=
  if writable then
    ({ state with pipe := { state.pipe with writeopen := false } }).wakeReaders
  else ({ state with pipe := { state.pipe with readopen := false } }).wakeWriters

/-- `kill` wakes its process wherever it sleeps. -/
def kill (state : State Proc) (self : Proc) : State Proc :=
  ({ state with killed := Function.update state.killed self true }).goto self
    (wakeReader (wakeWriter (state.stage self)))

/-- What `pipealloc` leaves, in a page that may hold anything. -/
def pipealloc (data : ℕ → Byte) (killed : Proc → Bool) : State Proc where
  pipe := { data := data, nread := 0, nwrite := 0, readopen := true, writeopen := true }
  stage _ := .idle
  killed := killed
  accepted := []
  delivered := []

/-- What happens next. -/
inductive Action (Proc : Type) where
  | read (self : Proc) (n : ℕ)
  | write (self : Proc) (addr : List Byte)
  | run (self : Proc)
  | close (writable : Bool)
  | kill (self : Proc)
  | renew (self : Proc)

/-- A process that is idle calls `piperead` or `pipewrite` or is replaced by another; one
that does not sleep runs. -/
def step (state : State Proc) : Action Proc → State Proc
  | .read self n =>
    match state.stage self with
    | .idle => state.goto self (.reading n)
    | _ => state
  | .write self addr =>
    match state.stage self with
    | .idle => state.goto self (.writing addr)
    | _ => state
  | .run self =>
    match state.stage self with
    | .reading n => (piperead state self n).1
    | .writing addr => (pipewrite state self addr).1
    | _ => state
  | .close writable => pipeclose state writable
  | .kill self => Pipes.kill state self
  | .renew self =>
    match state.stage self with
    | .idle => { state with killed := Function.update state.killed self false }
    | _ => state

def runAll (state : State Proc) (actions : List (Action Proc)) : State Proc :=
  actions.foldl step state

end Calls

theorem pipesize_dvd : pipesize ∣ 2 ^ 32 := by
  decide

namespace Pipe

variable {pipe : Pipe}

/-- The counters are at most the size apart. -/
def Bounded (pipe : Pipe) : Prop :=
  count pipe.nread pipe.nwrite ≤ pipesize

theorem length_buffered : pipe.buffered.length = count pipe.nread pipe.nwrite :=
  length_contents

theorem isFull_iff : pipe.isFull ↔ count pipe.nread pipe.nwrite = pipesize := by
  rw [isFull, count, ← UInt32.toNat_inj, UInt32.toNat_add, UInt32.toNat_sub, pipesize,
    UInt32.toNat_ofNat']
  have hread := pipe.nread.toNat_lt
  have hwrite := pipe.nwrite.toNat_lt
  omega

theorem Bounded.room (hbounded : pipe.Bounded) (hfull : ¬ pipe.isFull) :
    count pipe.nread pipe.nwrite < pipesize :=
  lt_of_le_of_ne hbounded fun hsame => hfull (isFull_iff.2 hsame)

theorem Bounded.push (hbounded : pipe.Bounded) (hfull : ¬ pipe.isFull) (byte : Byte) :
    (pipe.push byte).Bounded ∧ (pipe.push byte).buffered = pipe.buffered ++ [byte] := by
  have hroom := hbounded.room hfull
  have hsize : pipesize < 2 ^ 32 := by decide
  refine ⟨?_, contents_push pipesize_dvd hroom hsize byte⟩
  change count pipe.nread (pipe.nwrite + 1) ≤ pipesize
  rw [count_succ (by omega)]
  exact hroom

theorem Bounded.pop (hbounded : pipe.Bounded) (hne : pipe.nread ≠ pipe.nwrite) :
    pipe.pop.Bounded ∧
      pipe.buffered = pipe.data (cell pipesize pipe.nread) :: pipe.pop.buffered := by
  refine ⟨?_, contents_pop hne⟩
  have hcount := count_pop hne
  rw [Bounded] at hbounded
  change count (pipe.nread + 1) pipe.nwrite ≤ pipesize
  omega

end Pipe

/-- What the loop of `pipewrite` has done. -/
structure Filled (pipe : Pipe) (addr : List Byte) (pipe' : Pipe) (taken left : List Byte) :
    Prop where
  bounded : pipe'.Bounded
  buffered : pipe'.buffered = pipe.buffered ++ taken
  addr_eq : addr = taken ++ left
  full : left ≠ [] → pipe'.isFull
  readopen : pipe'.readopen = pipe.readopen
  writeopen : pipe'.writeopen = pipe.writeopen

variable {pipe : Pipe}

theorem fill_spec (hbounded : pipe.Bounded) (addr : List Byte) :
    Filled pipe addr (fill pipe addr).1 (fill pipe addr).2.1 (fill pipe addr).2.2 := by
  induction addr generalizing pipe with
  | nil => exact ⟨hbounded, (List.append_nil _).symm, rfl, fun h => absurd rfl h, rfl, rfl⟩
  | cons byte rest ih =>
    rw [fill]
    split_ifs with hfull
    · exact ⟨hbounded, (List.append_nil _).symm, rfl, fun _ => hfull, rfl, rfl⟩
    · obtain ⟨hpushed, hbuffered⟩ := hbounded.push hfull byte
      have hrest := ih hpushed
      refine ⟨hrest.bounded, ?_, congrArg (byte :: ·) hrest.addr_eq, hrest.full,
        hrest.readopen, hrest.writeopen⟩
      rw [hrest.buffered, hbuffered, List.append_assoc]
      rfl

/-- What the loop of `piperead` has done. -/
structure Drained (pipe : Pipe) (n : ℕ) (pipe' : Pipe) (bytes : List Byte) : Prop where
  bounded : pipe'.Bounded
  buffered : pipe.buffered = bytes ++ pipe'.buffered
  some_byte : 0 < n → pipe.nread ≠ pipe.nwrite → bytes ≠ []
  readopen : pipe'.readopen = pipe.readopen
  writeopen : pipe'.writeopen = pipe.writeopen

theorem drain_spec (hbounded : pipe.Bounded) (n : ℕ) :
    Drained pipe n (drain pipe n).1 (drain pipe n).2 := by
  induction n generalizing pipe with
  | zero => exact ⟨hbounded, rfl, fun h => absurd h (lt_irrefl 0), rfl, rfl⟩
  | succ n ih =>
    rw [drain]
    split_ifs with hempty
    · exact ⟨hbounded, rfl, fun _ hne => absurd hempty hne, rfl, rfl⟩
    · obtain ⟨hpopped, hbuffered⟩ := hbounded.pop hempty
      have hrest := ih hpopped
      refine ⟨hrest.bounded, ?_, fun _ _ => List.cons_ne_nil _ _, hrest.readopen,
        hrest.writeopen⟩
      rw [hbuffered, hrest.buffered]
      rfl

section Fifo

variable {Proc : Type} [DecidableEq Proc] {state : State Proc}

/-- Every byte that was accepted is delivered or in the buffer, in order. -/
structure Fifo (state : State Proc) : Prop where
  bounded : state.pipe.Bounded
  stream : state.accepted = state.delivered ++ state.pipe.buffered

theorem Fifo.pipewrite (hfifo : Fifo state) (self : Proc) (addr : List Byte) :
    Fifo (pipewrite state self addr).1 := by
  have hfilled := fill_spec hfifo.bounded addr
  have haccepted : Fifo (state.accept addr) := by
    refine ⟨hfilled.bounded, ?_⟩
    change state.accepted ++ (fill state.pipe addr).2.1 =
      state.delivered ++ (fill state.pipe addr).1.buffered
    rw [hfilled.buffered, hfifo.stream, List.append_assoc]
  rw [Pipes.pipewrite]
  split_ifs <;> exact ⟨haccepted.bounded, haccepted.stream⟩

theorem Fifo.piperead (hfifo : Fifo state) (self : Proc) (n : ℕ) :
    Fifo (piperead state self n).1 := by
  have hdrained := drain_spec hfifo.bounded n
  rw [Pipes.piperead]
  split_ifs
  · exact ⟨hfifo.bounded, hfifo.stream⟩
  · exact ⟨hfifo.bounded, hfifo.stream⟩
  · refine ⟨hdrained.bounded, ?_⟩
    change state.accepted =
      state.delivered ++ (drain state.pipe n).2 ++ (drain state.pipe n).1.buffered
    rw [hfifo.stream, hdrained.buffered, List.append_assoc]

theorem Fifo.step (hfifo : Fifo state) (action : Action Proc) : Fifo (step state action) := by
  cases action with
  | read self n =>
    rw [Pipes.step]
    split <;> exact ⟨hfifo.bounded, hfifo.stream⟩
  | write self addr =>
    rw [Pipes.step]
    split <;> exact ⟨hfifo.bounded, hfifo.stream⟩
  | run self =>
    rw [Pipes.step]
    split
    · exact hfifo.piperead self _
    · exact hfifo.pipewrite self _
    · exact hfifo
  | close writable =>
    rw [Pipes.step, pipeclose]
    split_ifs <;> exact ⟨hfifo.bounded, hfifo.stream⟩
  | kill self => exact ⟨hfifo.bounded, hfifo.stream⟩
  | renew self =>
    rw [Pipes.step]
    split <;> exact ⟨hfifo.bounded, hfifo.stream⟩

omit [DecidableEq Proc] in
theorem fifo_pipealloc (data : ℕ → Byte) (killed : Proc → Bool) : Fifo (pipealloc data killed) where
  bounded := by
    change count 0 0 ≤ pipesize
    exact Nat.zero_le _
  stream := contents_self.symm

theorem Fifo.runAll (hfifo : Fifo state) (actions : List (Action Proc)) :
    Fifo (runAll state actions) := by
  induction actions generalizing state with
  | nil => exact hfifo
  | cons action rest ih => exact ih (hfifo.step action)

/-- `piperead` returns 0 only at the end of the stream. -/
theorem piperead_zero (hbounded : state.pipe.Bounded) {self : Proc} {n : ℕ} (hn : 0 < n)
    (hzero : (piperead state self n).2 = some 0) :
    state.pipe.nread = state.pipe.nwrite ∧ state.pipe.writeopen = false := by
  rw [Pipes.piperead] at hzero
  split_ifs at hzero with hempty hkilled
  · cases hzero
  · have hdrained := drain_spec hbounded n
    have hlength : (drain state.pipe n).2.length = 0 := by
      exact_mod_cast Option.some.inj hzero
    have hnil : (drain state.pipe n).2 = [] := List.length_eq_zero_iff.1 hlength
    have hread : state.pipe.nread = state.pipe.nwrite := by
      by_contra hne
      exact hdrained.some_byte hn hne hnil
    refine ⟨hread, ?_⟩
    rw [← Bool.not_eq_true]
    exact fun hopen => hempty ⟨hread, hopen⟩

/-- The counters are at most the size apart, what readers got is a prefix of what writers
put in, with the rest in the buffer, each writer puts in its bytes in order, and a read of
some bytes returns none only at the end. -/
def IsStream (state : State Proc) : Prop :=
  (state.pipe.nwrite - state.pipe.nread).toNat ≤ pipesize ∧ state.delivered <+: state.accepted ∧
    state.accepted = state.delivered ++ state.pipe.buffered ∧
    (∀ addr, (fill state.pipe addr).2.1 ++ (fill state.pipe addr).2.2 = addr) ∧
    ∀ self n, 0 < n → (piperead state self n).2 = some 0 →
      state.pipe.buffered = [] ∧ state.pipe.writeopen = false

end Fifo

variable {stage : Stage} {addr : List Byte}

section Wakeups

variable {Proc : Type} [DecidableEq Proc] {state : State Proc}

/-- No process sleeps that could go on. -/
structure Awake (state : State Proc) : Prop where
  readers : ∀ proc n, state.stage proc = .readSleeps n →
    state.pipe.buffered = [] ∧ state.pipe.writeopen = true
  writers : ∀ proc addr, state.stage proc = .writeSleeps addr →
    state.pipe.isFull ∧ state.pipe.readopen = true

/-- A writer that is killed or has no reader left fills the buffer and returns, while
somebody sleeps in `piperead`. -/
def GivesUp (state : State Proc) : Action Proc → Prop
  | .run self => ∃ addr, state.stage self = .writing addr ∧
      (state.pipe.readopen = false ∨ state.killed self = true) ∧
      state.pipe.buffered.length < pipesize ∧
      pipesize < state.pipe.buffered.length + addr.length ∧
      ∃ proc n, state.stage proc = .readSleeps n
  | _ => False

theorem wakeReader_ne (stage : Stage) (n : ℕ) : wakeReader stage ≠ .readSleeps n := by
  cases stage <;> exact nofun

theorem wakeWriter_ne (stage : Stage) (addr : List Byte) :
    wakeWriter stage ≠ .writeSleeps addr := by
  cases stage <;> exact nofun

theorem wakeReader_writer
    (hstage : wakeReader stage = .writeSleeps addr) : stage = .writeSleeps addr := by
  cases stage <;> first | exact hstage | cases hstage

theorem wakeWriter_reader {n : ℕ}
    (hstage : wakeWriter stage = .readSleeps n) : stage = .readSleeps n := by
  cases stage <;> first | exact hstage | cases hstage

theorem stage_goto_self (self : Proc) (stage : Stage) :
    (state.goto self stage).stage self = stage := Function.update_self ..

theorem stage_goto_of_ne {self proc : Proc} (hproc : proc ≠ self) (stage : Stage) :
    (state.goto self stage).stage proc = state.stage proc := Function.update_of_ne hproc ..

/-- A process moves on; where it sleeps, it has a reason. -/
theorem Awake.goto (hawake : Awake state) (self : Proc)
    (hreads : ∀ n, stage = .readSleeps n → state.pipe.buffered = [] ∧ state.pipe.writeopen = true)
    (hwrites : ∀ addr, stage = .writeSleeps addr → state.pipe.isFull ∧ state.pipe.readopen = true) :
    Awake (state.goto self stage) where
  readers proc n hstage := by
    by_cases hproc : proc = self
    · subst hproc
      rw [stage_goto_self] at hstage
      exact hreads n hstage
    · rw [stage_goto_of_ne hproc] at hstage
      exact hawake.readers proc n hstage
  writers proc addr hstage := by
    by_cases hproc : proc = self
    · subst hproc
      rw [stage_goto_self] at hstage
      exact hwrites addr hstage
    · rw [stage_goto_of_ne hproc] at hstage
      exact hawake.writers proc addr hstage

theorem Awake.idle (hawake : Awake state) (self : Proc) : Awake (state.goto self .idle) :=
  hawake.goto self nofun nofun

omit [DecidableEq Proc] in
/-- All readers are awake. -/
theorem awake_wakeReaders (hwriters : ∀ proc addr, state.stage proc = .writeSleeps addr →
    state.pipe.isFull ∧ state.pipe.readopen = true) : Awake state.wakeReaders where
  readers _ n hstage := absurd hstage (wakeReader_ne _ n)
  writers proc addr hstage := hwriters proc addr (wakeReader_writer hstage)

omit [DecidableEq Proc] in
/-- All writers are awake. -/
theorem awake_wakeWriters (hreaders : ∀ proc n, state.stage proc = .readSleeps n →
    state.pipe.buffered = [] ∧ state.pipe.writeopen = true) : Awake state.wakeWriters where
  readers proc n hstage := hreaders proc n (wakeWriter_reader hstage)
  writers _ addr hstage := absurd hstage (wakeWriter_ne _ addr)

/-- Nothing goes into a full buffer. -/
theorem fill_full (hfull : pipe.isFull) (addr : List Byte) : (fill pipe addr).1 = pipe := by
  cases addr with
  | nil => rfl
  | cons byte rest => rw [fill, if_pos hfull]

theorem Awake.piperead (hawake : Awake state) (self : Proc) (n : ℕ) :
    Awake (piperead state self n).1 := by
  rw [Pipes.piperead]
  split_ifs with hempty hkilled
  · exact hawake.idle self
  · refine hawake.goto self ?_ (fun _ hstage => by cases hstage)
    intro _ _
    exact ⟨contents_eq_nil.2 hempty.1, hempty.2⟩
  · refine (awake_wakeWriters ?_).idle self
    intro proc m hstage
    obtain ⟨hnone, hopen⟩ := hawake.readers proc m hstage
    exact absurd ⟨contents_eq_nil.1 hnone, hopen⟩ hempty

omit [DecidableEq Proc] in
/-- A writer that sleeps does so also after another has found the buffer full. -/
theorem Awake.accept_writers (hawake : Awake state) (addr : List Byte) (proc : Proc)
    (left : List Byte) (hstage : (state.accept addr).stage proc = .writeSleeps left) :
    (state.accept addr).pipe.isFull ∧ (state.accept addr).pipe.readopen = true := by
  obtain ⟨hfull, hopen⟩ := hawake.writers proc left hstage
  have hpipe : (state.accept addr).pipe = state.pipe := fill_full hfull addr
  rw [hpipe]
  exact ⟨hfull, hopen⟩

omit [DecidableEq Proc] in
/-- How much of its bytes a writer can put in. -/
theorem left_ne_nil_iff (hbounded : state.pipe.Bounded) (addr : List Byte) :
    (fill state.pipe addr).2.2 ≠ [] ↔ pipesize < state.pipe.buffered.length + addr.length := by
  have hfilled := fill_spec hbounded addr
  have hlength := congrArg List.length hfilled.buffered
  have haddr := congrArg List.length hfilled.addr_eq
  rw [List.length_append] at hlength haddr
  have hcount := hfilled.bounded
  rw [Pipe.Bounded, ← Pipe.length_buffered] at hcount
  constructor
  · intro hleft
    have hfull := Pipe.isFull_iff.1 (hfilled.full hleft)
    rw [← Pipe.length_buffered] at hfull
    have hpos := List.length_pos_iff.2 hleft
    omega
  · intro hmore hnil
    rw [hnil, List.length_nil] at haddr
    omega

theorem Awake.pipewrite (hawake : Awake state) (hbounded : state.pipe.Bounded) {self : Proc}
    (hstage : state.stage self = .writing addr)
    (hstays : ¬ GivesUp state (.run self)) : Awake (pipewrite state self addr).1 := by
  have hfilled := fill_spec hbounded addr
  rw [Pipes.pipewrite]
  split_ifs with hnil hgives
  · exact (awake_wakeReaders (hawake.accept_writers addr)).idle self
  · refine Awake.idle ⟨?_, hawake.accept_writers addr⟩ self
    intro proc n hsleeps
    obtain ⟨hempty, hopen⟩ := hawake.readers proc n hsleeps
    refine absurd ⟨addr, hstage, hgives, ?_, (left_ne_nil_iff hbounded addr).1 hnil, proc, n,
      hsleeps⟩ hstays
    rw [hempty]
    decide
  · refine (awake_wakeReaders (hawake.accept_writers addr)).goto self
      (fun _ hstage => by cases hstage) ?_
    intro _ _
    rw [not_or, Bool.not_eq_false] at hgives
    exact ⟨hfilled.full hnil, hfilled.readopen.trans hgives.1⟩

theorem Awake.step (hawake : Awake state) (hbounded : state.pipe.Bounded)
    {action : Action Proc} (hstays : ¬ GivesUp state action) : Awake (step state action) := by
  cases action with
  | read self n =>
    rw [Pipes.step]
    split
    · exact hawake.goto self nofun nofun
    · exact hawake
  | write self addr =>
    rw [Pipes.step]
    split
    · exact hawake.goto self nofun nofun
    · exact hawake
  | run self =>
    rw [Pipes.step]
    split
    · exact hawake.piperead self _
    next addr hstage => exact hawake.pipewrite hbounded hstage hstays
    · exact hawake
  | close writable =>
    rw [Pipes.step, pipeclose]
    split_ifs
    · exact awake_wakeReaders hawake.writers
    · exact awake_wakeWriters hawake.readers
  | kill self =>
    have hkilled : Awake { state with killed := Function.update state.killed self true } :=
      ⟨hawake.readers, hawake.writers⟩
    refine hkilled.goto self ?_ ?_
    · exact fun n hstage => absurd hstage (wakeReader_ne _ n)
    · exact fun addr hstage => absurd (wakeReader_writer hstage) (wakeWriter_ne _ addr)
  | renew self =>
    rw [Pipes.step]
    split
    · exact ⟨hawake.readers, hawake.writers⟩
    · exact hawake

/-- A reader is left asleep. -/
theorem GivesUp.not_awake {action : Action Proc} (hgives : GivesUp state action)
    (hbounded : state.pipe.Bounded) : ¬ Awake (step state action) := by
  cases action with
  | run self =>
    obtain ⟨addr, hstage, hcause, hroom, hmore, proc, n, hsleeps⟩ := hgives
    have hleft := (left_ne_nil_iff hbounded addr).2 hmore
    have hfilled := fill_spec hbounded addr
    have hstep : step state (.run self) = (state.accept addr).goto self .idle := by
      rw [step, hstage]
      dsimp only
      rw [Pipes.pipewrite, if_neg hleft, if_pos hcause]
    have hproc : proc ≠ self := by
      rintro rfl
      rw [hstage] at hsleeps
      cases hsleeps
    intro hawake
    rw [hstep] at hawake
    have hempty := (hawake.readers proc n ((stage_goto_of_ne hproc _).trans hsleeps)).1
    have hfull := Pipe.isFull_iff.1 (hfilled.full hleft)
    rw [← Pipe.length_buffered] at hfull
    have hlength : (fill state.pipe addr).1.buffered.length = 0 :=
      List.length_eq_zero_iff.2 hempty
    rw [hlength] at hfull
    cases hfull
  | read self n => exact hgives.elim
  | write self addr => exact hgives.elim
  | close writable => exact hgives.elim
  | kill self => exact hgives.elim
  | renew self => exact hgives.elim

/-- No step of the run is one in which a writer gives up. -/
def Patient (state : State Proc) : List (Action Proc) → Prop
  | [] => True
  | action :: rest => ¬ GivesUp state action ∧ Patient (step state action) rest

theorem Awake.runAll (hawake : Awake state) (hfifo : Fifo state)
    {actions : List (Action Proc)} (hpatient : Patient state actions) :
    Awake (runAll state actions) := by
  induction actions generalizing state with
  | nil => exact hawake
  | cons action rest ih =>
    exact ih (hawake.step hfifo.bounded hpatient.1) (hfifo.step action) hpatient.2

omit [DecidableEq Proc] in
theorem awake_pipealloc (data : ℕ → Byte) (killed : Proc → Bool) : Awake (pipealloc data killed) :=
  ⟨fun _ _ => nofun, fun _ _ => nofun⟩

/-- In a run in which no writer gives up, nobody sleeps who could go on; and the next
step keeps this exactly if no writer gives up in it. -/
theorem no_lost_wakeup (data : ℕ → Byte) (killed : Proc → Bool)
    (actions : List (Action Proc)) (hpatient : Patient (pipealloc data killed) actions) :
    Awake (runAll (pipealloc data killed) actions) ∧
      ∀ action, Awake (step (runAll (pipealloc data killed) actions) action) ↔
        ¬ GivesUp (runAll (pipealloc data killed) actions) action := by
  have hfifo : Fifo (runAll (pipealloc data killed) actions) :=
    (fifo_pipealloc data killed).runAll actions
  have hawake : Awake (runAll (pipealloc data killed) actions) :=
    (awake_pipealloc data killed).runAll (fifo_pipealloc data killed) hpatient
  refine ⟨hawake, fun action => ⟨?_, hawake.step hfifo.bounded⟩⟩
  intro hnext hgives
  exact hgives.not_awake hfifo.bounded hnext

end Wakeups

/-- A reader sleeps, and a writer puts in one byte. -/
theorem no_lost_wakeup_byte :
    Awake (runAll (pipealloc (fun _ => 0) fun _ : Bool => false)
      [.read false 1, .run false, .write true [7], .run true]) := by
  refine (no_lost_wakeup (fun _ => 0) (fun _ => false)
    [.read false 1, .run false, .write true [7], .run true] ?_).1
  refine ⟨not_false, ?_, not_false, ?_, trivial⟩
  · rintro ⟨addr, hstage, -⟩
    cases hstage
  · rintro ⟨addr, hstage, hcause, -⟩
    cases hcause with
    | inl hclosed => cases hclosed
    | inr hkilled => cases hkilled

/-- A reader sleeps, and a writer of 513 bytes is killed before it runs. -/
theorem killed_writer_leaves_reader :
    ¬ Awake (runAll (pipealloc (fun _ => 0) fun _ : Bool => false)
      [.read false 1, .run false, .write true (List.replicate 513 7), .kill true, .run true]) := by
  have hfifo : Fifo (runAll (pipealloc (fun _ => 0) fun _ : Bool => false)
      [.read false 1, .run false, .write true (List.replicate 513 7), .kill true]) :=
    (fifo_pipealloc _ _).runAll _
  have hgives : GivesUp (runAll (pipealloc (fun _ => 0) fun _ : Bool => false)
      [.read false 1, .run false, .write true (List.replicate 513 7), .kill true])
      (.run true) := by
    refine ⟨List.replicate 513 7, rfl, Or.inr rfl, ?_, ?_, false, 1, rfl⟩
    · decide
    · rw [List.length_replicate]
      exact Nat.lt_add_left _ (by decide)
  exact hgives.not_awake hfifo.bounded

end Xv6Users.Pipes
