import Xv6Users.Core.RedoLog
import Xv6Users.Kernel.BufferCache
import Xv6Users.Kernel.Inodes

/-!
# The log

`kernel/log.c`: the admission of operations, the recording of written blocks and
the steps of commit and recovery, each with at most one disk write.
-/

namespace Xv6Users.DiskLog

open BufferCache Option
open Inodes (maxOpBlocks logSize)

/-- `struct log` without its place on disk. -/
structure Log where
  outstanding : ℕ
  committing : Bool
  lh : List ℕ
  deriving DecidableEq

/-- `begin_op`; `none` while the caller has to wait. -/
def beginOp (log : Log) : Option Log :=
  if log.committing then none
  else if log.lh.length + (log.outstanding + 1) * maxOpBlocks > logSize then none
  else some { log with outstanding := log.outstanding + 1 }

/-- The loop of `log_write`: a block that is listed keeps its place. -/
def absorb : List ℕ → ℕ → List ℕ
  | [], blockno => [blockno]
  | block :: rest, blockno =>
    if block = blockno then block :: rest else block :: absorb rest blockno

theorem length_absorb (blocks : List ℕ) (blockno : ℕ) :
    (absorb blocks blockno).length ≤ blocks.length + 1 := by
  induction blocks with
  | nil => exact le_rfl
  | cons block rest ih =>
    unfold absorb
    split
    · exact Nat.le_succ _
    · exact Nat.succ_le_succ ih

/-- `log_write`, with the message of the panic it can reach. -/
def logWrite (size : ℕ) (log : Log) (blockno : ℕ) : Except String Log :=
  if log.lh.length ≥ logSize ∨ log.lh.length + 1 ≥ size then
    .error "too big a transaction"
  else if log.outstanding < 1 then .error "log_write outside of trans"
  else .ok { log with lh := absorb log.lh blockno }

/-- `end_op` up to the commit; the flag is `do_commit`. -/
def endOp (log : Log) : Except String (Log × Bool) :=
  let log := { log with outstanding := log.outstanding - 1 }
  if log.committing then .error "log.committing"
  else if log.outstanding = 0 then .ok ({ log with committing := true }, true)
  else .ok (log, false)

/-- `struct logheader` at the start of a block. -/
def putHeader (lh : List ℕ) (data : Block) : Block
  | 0 => lh.length
  | i + 1 => if h : i < lh.length then lh[i] else data (i + 1)

def getHeader (data : Block) : List ℕ :=
  (List.range (data 0).toNat).map fun i => (data (i + 1)).toNat

theorem getHeader_putHeader (lh : List ℕ) (data : Block) : getHeader (putHeader lh data) = lh := by
  apply List.ext_getElem
  · simp [getHeader, putHeader]
  · intro i hi hi'
    simp [getHeader, putHeader, hi']

/-! ## Commit and recovery -/

/-- The place of the log, which includes its header. -/
structure Layout where
  start : ℕ
  size : ℕ
  size_pos : 0 < size

def Layout.IsHome (layout : Layout) (blockno : ℕ) : Prop :=
  blockno < layout.start ∨ layout.start + layout.size ≤ blockno
  deriving Decidable

/-- One iteration of `write_log`. -/
def writeLogBlock (layout : Layout) (tail blockno : ℕ) (dev : Device) :
    Option Device := do
  let (dev, target) ← bread dev (layout.start + tail + 1)
  let (dev, source) ← bread dev blockno
  let dev := bwrite (setData dev target (dev.buf source).data) target
  some (brelse (brelse dev source) target)

/-- One iteration of `install_trans`. -/
def installBlock (layout : Layout) (tail blockno : ℕ) (dev : Device) :
    Option Device := do
  let (dev, lbuf) ← bread dev (layout.start + tail + 1)
  let (dev, dbuf) ← bread dev blockno
  let dev := bwrite (setData dev dbuf (dev.buf lbuf).data) dbuf
  some (brelse (brelse dev lbuf) dbuf)

def writeHead (layout : Layout) (lh : List ℕ) (dev : Device) : Option Device := do
  let (dev, buf) ← bread dev layout.start
  let dev := bwrite (setData dev buf (putHeader lh (dev.buf buf).data)) buf
  some (brelse dev buf)

def readHead (layout : Layout) (dev : Device) : Option (Device × List ℕ) := do
  let (dev, buf) ← bread dev layout.start
  some (brelse dev buf, getHeader (dev.buf buf).data)

section Specs

variable {layout : Layout} {dev dev' : Device} {tail blockno : ℕ} {lh : List ℕ}

section

variable (hcoherent : Coherent dev)

include hcoherent

/-- Two blocks are read, one after the other, and both stay held. -/
theorem bread_two {dev₁ dev₂ : Device} {i j : BufId} {other : ℕ}
    (hfirst : bread dev blockno = some (dev₁, i)) (hsecond : bread dev₁ other = some (dev₂, j)) :
    Quiet dev dev₂ ∧ Holds dev₂ i blockno ∧ Holds dev₂ j other := by
  obtain ⟨hquiet₁, hholds₁⟩ := bread_quiet hcoherent hfirst
  obtain ⟨hquiet₂, hholds₂⟩ := bread_quiet hquiet₁.coherent hsecond
  exact ⟨hquiet₁.trans hquiet₂, (bread_held hquiet₁.coherent hholds₁ hsecond).2, hholds₂⟩

/-- The data of one held buffer is written to the block of another one. -/
theorem copy_written {i j : BufId} {source target : ℕ}
    (hsource : Holds dev i source) (htarget : Holds dev j target) :
    Written dev (brelse (brelse (bwrite (setData dev j (dev.buf i).data) j) i) j)
      target (current dev source) := by
  rw [hcoherent.current_held hsource]
  have hwritten := bwrite_written hcoherent htarget (dev.buf i).data
  have hfirst := brelse_quiet hwritten.coherent i
  exact hwritten.quiet (hfirst.trans (brelse_quiet hfirst.coherent j))

theorem writeLogBlock_written (hwrite : writeLogBlock layout tail blockno dev = some dev') :
    Written dev dev' (layout.start + tail + 1) (current dev blockno) := by
  simp only [writeLogBlock, bind_eq_bind, bind_eq_some_iff, Prod.exists, some.injEq] at hwrite
  obtain ⟨dev₁, target, hfirst, dev₂, source, hsecond, rfl⟩ := hwrite
  obtain ⟨hquiet, htarget, hsource⟩ := bread_two hcoherent hfirst hsecond
  rw [← hquiet.current blockno]
  exact hquiet.written (copy_written hquiet.coherent hsource htarget)

theorem installBlock_written (hwrite : installBlock layout tail blockno dev = some dev') :
    Written dev dev' blockno (current dev (layout.start + tail + 1)) := by
  simp only [installBlock, bind_eq_bind, bind_eq_some_iff, Prod.exists, some.injEq] at hwrite
  obtain ⟨dev₁, lbuf, hfirst, dev₂, dbuf, hsecond, rfl⟩ := hwrite
  obtain ⟨hquiet, hlbuf, hdbuf⟩ := bread_two hcoherent hfirst hsecond
  rw [← hquiet.current (layout.start + tail + 1)]
  exact hquiet.written (copy_written hquiet.coherent hlbuf hdbuf)

theorem writeHead_written (hwrite : writeHead layout lh dev = some dev') :
    Written dev dev' layout.start (putHeader lh (current dev layout.start)) := by
  simp only [writeHead, bind_eq_bind, bind_eq_some_iff, Prod.exists, some.injEq] at hwrite
  obtain ⟨dev₁, buf, hread, rfl⟩ := hwrite
  obtain ⟨hquiet, hholds⟩ := bread_quiet hcoherent hread
  rw [← hquiet.current layout.start, hquiet.coherent.current_held hholds]
  have hwritten := bwrite_written hquiet.coherent hholds
    (putHeader lh (dev₁.buf buf).data)
  exact hquiet.written (hwritten.quiet (brelse_quiet hwritten.coherent buf))

theorem readHead_quiet (hread : readHead layout dev = some (dev', lh)) :
    Quiet dev dev' ∧ lh = getHeader (current dev layout.start) := by
  simp only [readHead, bind_eq_bind, bind_eq_some_iff,
    Prod.exists, some.injEq, Prod.mk.injEq] at hread
  obtain ⟨dev₁, buf, hread, rfl, rfl⟩ := hread
  obtain ⟨hquiet, hholds⟩ := bread_quiet hcoherent hread
  refine ⟨hquiet.trans (brelse_quiet hquiet.coherent buf), ?_⟩
  rw [← hquiet.current layout.start, hquiet.coherent.current_held hholds]

end

theorem absorb_eq_addName (lh : List ℕ) (blockno : ℕ) :
    absorb lh blockno = RedoLog.addName lh blockno := by
  induction lh with
  | nil => simp [absorb, RedoLog.addName]
  | cons block rest ih =>
    by_cases hsame : block = blockno
    · simp [absorb, RedoLog.addName, hsame]
    · have hne : blockno ≠ block := Ne.symm hsame
      by_cases hmem : blockno ∈ rest <;>
        simp [absorb, ih, RedoLog.addName, hsame, hne, hmem]

end Specs

end Xv6Users.DiskLog
