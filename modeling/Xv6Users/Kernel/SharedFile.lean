import Xv6Users.Kernel.FileBytes

/-!
# A file that several processes write to

`filewrite` of `kernel/file.c` on one `struct file` that processes share.  A call is cut
into chunks, each a transaction under the lock of the inode; between two of them any other
process can write its own.  The inode of an open file stays in memory.
-/

namespace Xv6Users.SharedFile

open Contracts Processes Layout Blocks BlockOwners BlockSpecs FileBytes Function List
open Inodes (maxOpBlocks splice)
open Syscalls (writeMax)

/-! ## The functions of the source -/

def beginOp : B Unit := do
  let logged ← Op.gets State.logged
  let outstanding ← Op.gets State.outstanding
  if logged.length + (outstanding + 1) * maxOpBlocks > Blocks.logSize then Op.block
  else Op.modify ({ · with outstanding := outstanding + 1 })

/-- The last transaction commits, which empties the log. -/
def endOp : B Unit :=
  Op.modify fun state =>
    { state with
      outstanding := state.outstanding - 1
      logged := if state.outstanding - 1 = 0 then [] else state.logged }

variable (sb : Superblock) (inum : ℕ)

/-- The part of a round of `filewrite` that is one transaction. -/
def writeChunk (chunk : List Byte) (off : UInt32) : B ℤ := do
  beginOp
  let r ← writei sb inum chunk off (UInt32.ofNat chunk.length) (-1)
  endOp
  pure r

/-- Bytes that a process has written in one transaction. -/
structure Chunk (Process : Type) where
  process : Process
  start : ℕ
  bytes : List Byte

/-- The file system, the offset of the `struct file`, what each process has still to write
in its call, and what has been passed to calls and written so far. -/
structure Shared (Process : Type) where
  state : State
  off : UInt32
  left : Process → List Byte
  passed : Process → List Byte
  chunks : List (Chunk Process)

variable {Process : Type} [DecidableEq Process] {chunk : Chunk Process}

/-- A process calls `filewrite`. -/
def Shared.call (shared : Shared Process) (process : Process) (src : List Byte) : Shared Process :=
  { shared with
    left := update shared.left process src
    passed := update shared.passed process (shared.passed process ++ src) }

def Shared.next (shared : Shared Process) (process : Process) : List Byte :=
  (shared.left process).take writeMax

/-- One round of the loop of `filewrite`; `none` if the machine stops or the process has to
wait. -/
def Shared.round (shared : Shared Process) (process : Process) : Option (Shared Process) :=
  match writeChunk sb inum (shared.next process) shared.off shared.state with
  | .done r state =>
    if r < 0 then
      -- The call ends and returns -1.
      some { shared with state, left := update shared.left process [] }
    else if r ≠ (shared.next process).length then none
    else
      some
        { state
          off := if 0 < r then shared.off + UInt32.ofNat r.toNat else shared.off
          left := update shared.left process
            ((shared.left process).drop writeMax)
          passed := shared.passed
          chunks := shared.chunks ++
            [⟨process, shared.off.toNat, shared.next process⟩] }
  | .blocked _ | .halted _ => none

/-- The next chunk of a process ends below the greatest size of a file. -/
def Shared.Below (shared : Shared Process) (process : Process) : Prop :=
  shared.off.toNat + (shared.next process).length ≤ maxFile * bsize

/-- Any interleaving of calls and rounds that stays below the greatest size of a file. -/
inductive Reached (start : Shared Process) : Shared Process → Prop where
  | start : Reached start start
  | call {shared : Shared Process} (process : Process) (src : List Byte) :
      Reached start shared → shared.left process = [] →
      Reached start (shared.call process src)
  | round {shared shared' : Shared Process} (process : Process) :
      Reached start shared → shared.left process ≠ [] → shared.Below process →
      shared.round sb inum process = some shared' → Reached start shared'

/-- A file system between two transactions, with the inode of a file in memory. -/
structure Idle (sb : Superblock) (inum : ℕ) (state : State) : Prop where
  whole : Whole sb state
  copy : ∃ dinode, state.inodes inum = some dinode ∧ dinode.type ≠ tDev
  logged : state.logged = []
  outstanding : state.outstanding = 0

/-- Nobody has written, and the offset is the size of the file. -/
structure Ready (start : Shared Process) : Prop where
  idle : Idle sb inum start.state
  off : start.off.toNat = (content sb start.state inum).length
  left : ∀ process, start.left process = []
  passed : ∀ process, start.passed process = []
  chunks : start.chunks = []

section Chunks

variable {sb inum} {state : State} {dinode : Dinode} {chunk : List Byte} {off : UInt32}

theorem whole_relogged (hwhole : Whole sb state) {logged : List ℕ} (hlogged : logged.Nodup)
    (outstanding : ℕ) : Whole sb { state with logged, outstanding } where
  owned := hwhole.owned
  copies := hwhole.copies
  log := hlogged
  sizes := hwhole.sizes
  blocks := hwhole.blocks

/-- After `begin_op`. -/
def opened (state : State) : State := { state with outstanding := 1 }

theorem beginOp_bind {α : Type} {next : Unit → B α} {halts : Inodes.Stop → Prop}
    {post : α → State → Prop} (hidle : Idle sb inum state)
    (hnext : Yields (next ()) (opened state) halts post) :
    Yields (beginOp >>= next) state halts post := by
  have hroom : ¬ state.logged.length + (state.outstanding + 1) * maxOpBlocks > Blocks.logSize := by
    rw [hidle.logged, hidle.outstanding]
    decide
  have hbegin : beginOp state = .done () (opened state) := by
    simp only [beginOp, bind, Op.bind, Op.gets]
    rw [if_neg hroom, hidle.outstanding]
    rfl
  have hfirst : Yields beginOp state halts fun _ state' => state' = opened state := by
    rw [Yields, hbegin]
  apply hfirst.bind
  rintro _ _ rfl
  exact hnext

theorem splice_end {bytes src : List Byte} : splice bytes src bytes.length = bytes ++ src := by
  rw [splice, take_length, drop_eq_nil_of_le (Nat.le_add_right _ _), append_nil]

theorem not_refused {size : ℕ} (hoff : off.toNat = size) {n : ℕ}
    (hbelow : size + n ≤ maxFile * bsize) : ¬ Refused size off.toNat n := by
  have hmax : maxFile * bsize < 2 ^ 32 := by decide
  rw [Refused]
  omega

/-- A chunk at the end of the file is appended to it. -/
theorem writeChunk_spec (hidle : Idle sb inum state) (hcopy : state.inodes inum = some dinode)
    (hoff : off.toNat = (content sb state inum).length)
    (hbelow : off.toNat + chunk.length ≤ maxFile * bsize) :
    Yields (writeChunk sb inum chunk off) state
      (Short sb dinode (opened state) (span off.toNat chunk.length)) fun r state' =>
        r = chunk.length ∧ Idle sb inum state' ∧
          content sb state' inum = content sb state inum ++ chunk := by
  have hmax : maxFile * bsize < 2 ^ 32 := by decide
  have hlength : (UInt32.ofNat chunk.length).toNat = chunk.length := by
    exact Nat.mod_eq_of_lt (by omega)
  have hsize : dinode.size.toNat = (content sb state inum).length := by
    rw [length_content, current_of_copy hcopy]
  have hdev : dinode.type ≠ tDev := by
    obtain ⟨found, hfound, hdev⟩ := hidle.copy
    rw [hcopy] at hfound
    cases hfound
    exact hdev
  have hwhole : Whole sb (opened state) := whole_relogged hidle.whole hidle.whole.log 1
  have hok : ¬ Refused dinode.size.toNat off.toNat (UInt32.ofNat chunk.length).toNat := by
    rw [hsize, hlength]
    exact not_refused hoff (hoff ▸ hbelow)
  have hwrites := writei_spec hwhole hcopy hdev hlength.symm hok (-1)
  rw [hlength] at hwrites
  apply beginOp_bind hidle
  apply hwrites.bind
  rintro _ state' ⟨rfl, ⟨hwhole', hwritten, -⟩, houtstanding, dinode', hcopy', htype⟩
  apply Yields.modify_bind
  apply Yields.pure
  have hlast : state'.outstanding - 1 = 0 := by
    rw [houtstanding]
    rfl
  refine ⟨rfl, ⟨?_, ⟨dinode', hcopy', htype ▸ hdev⟩, if_pos hlast, hlast⟩, ?_⟩
  · rw [if_pos hlast]
    exact whole_relogged hwhole' nodup_nil _
  · have hbytes : content sb state' inum = splice (content sb state inum) chunk off.toNat := by
      apply hwritten.content_eq
      rw [← length_content]
      exact hoff.le
    rw [hoff, splice_end] at hbytes
    exact hbytes

end Chunks

def written (chunks : List (Chunk Process)) : List Byte :=
  chunks.flatMap Chunk.bytes

def ofProcess (chunks : List (Chunk Process)) (process : Process) : List (Chunk Process) :=
  chunks.filter (·.process = process)

/-- The chunks are in the file one after another behind what was there, those of a process
in its own order. -/
structure Appended (start shared : Shared Process) : Prop where
  idle : Idle sb inum shared.state
  content : content sb shared.state inum =
    FileBytes.content sb start.state inum ++ written shared.chunks
  off : shared.off.toNat = (FileBytes.content sb shared.state inum).length
  starts : ∀ before chunk after, shared.chunks = before ++ chunk :: after →
    chunk.start = (FileBytes.content sb start.state inum ++ written before).length
  order : ∀ process, written (ofProcess shared.chunks process) ++ shared.left process =
    shared.passed process

section Runs

variable {sb inum} {start shared shared' : Shared Process} {process : Process}

omit [DecidableEq Process] in
theorem written_concat (chunks : List (Chunk Process)) (chunk : Chunk Process) :
    written (chunks ++ [chunk]) = written chunks ++ chunk.bytes := by
  rw [written, flatMap_append, flatMap_singleton]
  rfl

theorem ofProcess_concat_self (chunks : List (Chunk Process)) (chunk : Chunk Process) :
    ofProcess (chunks ++ [chunk]) chunk.process = ofProcess chunks chunk.process ++ [chunk] := by
  rw [ofProcess, filter_append, filter_singleton, decide_eq_true rfl]
  rfl

theorem ofProcess_concat_of_ne (chunks : List (Chunk Process))
    (hprocess : chunk.process ≠ process) :
    ofProcess (chunks ++ [chunk]) process = ofProcess chunks process := by
  rw [ofProcess, filter_append, filter_singleton, decide_eq_false hprocess,
    cond_false, append_nil, ofProcess]

theorem Ready.appended (hready : Ready sb inum start) : Appended sb inum start start where
  idle := hready.idle
  content := by
    rw [hready.chunks]
    exact (append_nil _).symm
  off := hready.off
  starts before chunk after hchunks := by
    rw [hready.chunks] at hchunks
    exact absurd hchunks.symm (append_ne_nil_of_right_ne_nil _ (cons_ne_nil _ _))
  order process := by
    rw [hready.chunks, hready.left, hready.passed]
    rfl

theorem Appended.call (happended : Appended sb inum start shared) (src : List Byte)
    (hleft : shared.left process = []) : Appended sb inum start (shared.call process src) where
  idle := happended.idle
  content := happended.content
  off := happended.off
  starts := happended.starts
  order other := by
    have horder := happended.order other
    rw [Shared.call]
    dsimp only
    by_cases hother : other = process
    · subst hother
      rw [hleft, append_nil] at horder
      rw [update_self, update_self, horder]
    · rw [update_of_ne hother, update_of_ne hother, horder]

/-- The end of a list with one more item. -/
theorem concat_cases {α : Type} {items before after : List α} {item last : α}
    (hitems : items ++ [last] = before ++ item :: after) :
    (before = items ∧ item = last) ∨ ∃ after', items = before ++ item :: after' := by
  cases after using reverseRecOn with
  | nil =>
    obtain ⟨hbefore, hitem⟩ := append_inj' hitems rfl
    cases hitem
    exact .inl ⟨hbefore.symm, rfl⟩
  | append_singleton rest final =>
    rw [← cons_append, ← append_assoc] at hitems
    exact .inr ⟨rest, (append_inj' hitems rfl).1⟩

/-- What a round leaves behind. -/
theorem round_eq_some (happended : Appended sb inum start shared)
    (hbelow : shared.Below process) (hround : shared.round sb inum process = some shared') :
    ∃ state off, shared' =
        { state
          off
          left := update shared.left process ((shared.left process).drop writeMax)
          passed := shared.passed
          chunks := shared.chunks ++ [⟨process, shared.off.toNat, shared.next process⟩] } ∧
      Idle sb inum state ∧
      content sb state inum = content sb shared.state inum ++ shared.next process ∧
      off.toNat = shared.off.toNat + (shared.next process).length := by
  obtain ⟨dinode, hcopy, -⟩ := happended.idle.copy
  have hchunk := writeChunk_spec happended.idle hcopy happended.off hbelow
  rw [Shared.round] at hround
  cases hout : writeChunk sb inum (shared.next process) shared.off shared.state with
  | blocked state =>
    rw [hout] at hround
    cases hround
  | halted reason =>
    rw [hout] at hround
    cases hround
  | done r state =>
    rw [hout] at hround
    obtain ⟨rfl, hidle, hcontent⟩ := hchunk.of_done hout
    dsimp only at hround
    rw [if_neg (by omega), if_neg (by omega)] at hround
    refine ⟨state, _, (Option.some.inj hround).symm, hidle, hcontent, ?_⟩
    have hmax : maxFile * bsize < 2 ^ 32 := by decide
    rw [Shared.Below] at hbelow
    split_ifs with hpositive
    · rw [UInt32.toNat_add, UInt32.toNat_ofNat', Nat.add_mod_mod]
      exact Nat.mod_eq_of_lt (by omega)
    · omega

theorem Appended.round (happended : Appended sb inum start shared)
    (hbelow : shared.Below process) (hround : shared.round sb inum process = some shared') :
    Appended sb inum start shared' := by
  obtain ⟨state, off, rfl, hidle, hcontent, hoff⟩ := round_eq_some happended hbelow hround
  refine ⟨hidle, ?_, ?_, ?_, ?_⟩
  · rw [written_concat, hcontent, happended.content, append_assoc]
  · rw [hcontent, length_append, ← happended.off]
    exact hoff
  · intro before chunk after hchunks
    obtain ⟨rfl, rfl⟩ | ⟨after', hbefore⟩ := concat_cases hchunks
    · rw [← happended.content]
      exact happended.off
    · exact happended.starts before chunk after' hbefore
  · intro other
    have horder := happended.order other
    dsimp only
    by_cases hother : other = process
    · subst hother
      rw [update_self, ofProcess_concat_self, written_concat, append_assoc,
        Shared.next, take_append_drop]
      exact horder
    · rw [update_of_ne hother, ofProcess_concat_of_ne _ (Ne.symm hother)]
      exact horder

theorem Reached.appended (hready : Ready sb inum start)
    (hreached : Reached sb inum start shared) : Appended sb inum start shared := by
  induction hreached with
  | start => exact hready.appended
  | call process src _ hleft ih => exact ih.call src hleft
  | round process _ _ hbelow hround ih => exact ih.round hbelow hround

omit [DecidableEq Process] in
theorem pairwise_disjoint {chunks : List (Chunk Process)} {base : ℕ}
    (hstarts : ∀ before chunk after, chunks = before ++ chunk :: after →
      chunk.start = base + (written before).length) :
    chunks.Pairwise fun left right => left.start + left.bytes.length ≤ right.start := by
  induction chunks generalizing base with
  | nil => exact .nil
  | cons head tail ih =>
    have hhead : head.start = base := hstarts [] head tail rfl
    have htail : ∀ before chunk after, tail = before ++ chunk :: after →
        chunk.start = base + head.bytes.length + (written before).length := by
      intro before chunk after hchunks
      rw [hstarts (head :: before) chunk after (by rw [hchunks]; rfl), written,
        flatMap_cons, length_append, Nat.add_assoc]
      rfl
    apply List.Pairwise.cons
    · intro chunk hchunk
      obtain ⟨before, after, hsplit⟩ := append_of_mem hchunk
      rw [htail before chunk after hsplit, hhead]
      exact Nat.le_add_right _ _
    · exact ih htail

/-- A chunk is in the file where it was written. -/
theorem Appended.chunk_kept (happended : Appended sb inum start shared)
    {before after : List (Chunk Process)} (hchunks : shared.chunks = before ++ chunk :: after) :
    ((FileBytes.content sb shared.state inum).drop chunk.start).take chunk.bytes.length =
      chunk.bytes := by
  have hsplit : written shared.chunks = written before ++ (chunk.bytes ++ written after) := by
    rw [hchunks, written, flatMap_append, flatMap_cons]
    rfl
  rw [happended.starts before chunk after hchunks, happended.content, hsplit,
    ← append_assoc, drop_left, take_left]

/-- A round for which there is room ends. -/
theorem Appended.progress (happended : Appended sb inum start shared)
    (hbelow : shared.Below process)
    (hroomy : Roomy sb (opened shared.state) shared.off.toNat (shared.next process).length) :
    ∃ shared', shared.round sb inum process = some shared' := by
  obtain ⟨dinode, hcopy, -⟩ := happended.idle.copy
  have hchunk := writeChunk_spec happended.idle hcopy happended.off hbelow
  obtain ⟨r, state, hdone, rfl, -⟩ := (hchunk.mono (not_short hroomy dinode) fun _ _ => id).returns
  rw [Shared.round, hdone]
  dsimp only
  rw [if_neg (by omega), if_neg (by omega)]
  exact ⟨_, rfl⟩

end Runs

/-- Whatever the interleaving, the file is what it was followed by all chunks, each in its
own range and those of a process in the order of its calls, and a round for which the log
and the disk have room writes its chunk. -/
theorem shared_writes_kept {sb : Superblock} {inum : ℕ} {start shared : Shared Process}
    (hready : Ready sb inum start) (hreached : Reached sb inum start shared) :
    content sb shared.state inum = content sb start.state inum ++ written shared.chunks ∧
      (current sb shared.state inum).size.toNat = (current sb start.state inum).size.toNat +
        (shared.chunks.map (·.bytes.length)).sum ∧
      (∀ before chunk after, shared.chunks = before ++ chunk :: after →
        chunk.start = (current sb start.state inum).size.toNat + (written before).length ∧
          ((content sb shared.state inum).drop chunk.start).take chunk.bytes.length = chunk.bytes) ∧
      shared.chunks.Pairwise (fun left right => left.start + left.bytes.length ≤ right.start) ∧
      (∀ process, written (ofProcess shared.chunks process) ++ shared.left process =
        shared.passed process) ∧
      ∀ process, shared.Below process →
        Roomy sb (opened shared.state) shared.off.toNat (shared.next process).length →
          ∃ shared', shared.round sb inum process = some shared' := by
  have happended := hreached.appended hready
  have hstarts : ∀ before chunk after, shared.chunks = before ++ chunk :: after →
      chunk.start = (current sb start.state inum).size.toNat + (written before).length := by
    intro before chunk after hchunks
    rw [happended.starts before chunk after hchunks, length_append, length_content]
  refine ⟨happended.content, ?_, ?_, pairwise_disjoint hstarts, happended.order, ?_⟩
  · rw [← length_content, happended.content, length_append, length_content, written, length_flatMap]
  · intro before chunk after hchunks
    exact ⟨hstarts before chunk after hchunks, happended.chunk_kept hchunks⟩
  · intro process hbelow hroomy
    exact happended.progress hbelow hroomy

def twoWriters : Shared (Fin 2) where
  state := { oneFile [] with outstanding := 0 }
  off := 0
  left _ := []
  passed _ := []
  chunks := []

theorem ready_twoWriters : Ready image 1 twoWriters where
  idle := ⟨whole_relogged (whole_oneFile nodup_nil) nodup_nil 0,
    ⟨emptyFile, @copy_oneFile [], by decide⟩, rfl, rfl⟩
  off := by
    rfl
  left _ := rfl
  passed _ := rfl
  chunks := rfl

/-- The first process writes one byte. -/
theorem twoWriters_byte_kept : ∃ shared : Shared (Fin 2),
    Reached image 1 twoWriters shared ∧ written (ofProcess shared.chunks 0) = [7] ∧
      content image shared.state 1 = [7] := by
  have hcall : Reached image 1 twoWriters (twoWriters.call 0 [7]) := .call 0 [7] .start rfl
  obtain ⟨-, -, -, -, -, hprogress⟩ := shared_writes_kept ready_twoWriters hcall
  have hbelow : (twoWriters.call 0 [7]).Below 0 := by
    rw [Shared.Below]
    decide
  obtain ⟨shared, hround⟩ := hprogress 0 hbelow roomy_oneFile
  have hreached : Reached image 1 twoWriters shared :=
    .round 0 hcall (cons_ne_nil _ _) hbelow hround
  obtain ⟨state, off, hshared, -⟩ := round_eq_some (hcall.appended ready_twoWriters) hbelow hround
  obtain ⟨hcontent, -⟩ := shared_writes_kept ready_twoWriters hreached
  refine ⟨shared, hreached, ?_, ?_⟩
  · rw [hshared]
    rfl
  · rw [hcontent, hshared]
    rfl

end Xv6Users.SharedFile
