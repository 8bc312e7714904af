import Mathlib

/-!
# The buffer cache

`kernel/bio.c` over one disk.  A buffer caches one block; `B_VALID` and
`B_DIRTY` are the fields `valid` and `dirty`, and a buffer that never held a
block of the disk has no block number.  A disk request is one atomic step.
-/

namespace Xv6Users.BufferCache

open Function Option List

abbrev Block := ℕ → ℤ

/-- One of the `NBUF` buffers. -/
abbrev BufId := Fin 30

structure Buf where
  blockno : Option ℕ
  valid : Bool
  dirty : Bool
  locked : Bool
  refcnt : ℕ
  data : Block

/-- The disk and the buffers, most recently used first. -/
structure Device where
  disk : ℕ → Block
  buf : BufId → Buf
  mru : List BufId

def Device.set (dev : Device) (i : BufId) (buf : Buf) : Device :=
  { dev with buf := update dev.buf i buf }

/-- `binit`: every buffer is put in front of those before it. -/
def binit (disk : ℕ → Block) : Device where
  disk
  buf := fun _ => ⟨none, false, false, false, 0, fun _ => 0⟩
  mru := (finRange 30).reverse

def cached (dev : Device) (blockno : ℕ) : Option BufId :=
  dev.mru.find? fun i => (dev.buf i).blockno = some blockno

/-- The buffer to recycle, searched from the back. -/
def unused (dev : Device) : Option BufId :=
  dev.mru.reverse.find? fun i => (dev.buf i).refcnt = 0 ∧ (dev.buf i).dirty = false

/-- The part of `bget` under the lock of the cache.  `none` is the panic. -/
def bget (dev : Device) (blockno : ℕ) : Option (Device × BufId) :=
  match cached dev blockno with
  | some i => some (dev.set i { dev.buf i with refcnt := (dev.buf i).refcnt + 1 }, i)
  | none => (unused dev).map fun i =>
    (dev.set i { dev.buf i with
      blockno := some blockno, valid := false, dirty := false, refcnt := 1 }, i)

/-- `iderw`: a dirty buffer is written, another one is read. -/
def iderw (dev : Device) (i : BufId) : Device :=
  match (dev.buf i).blockno with
  | none => dev
  | some blockno =>
    if (dev.buf i).dirty then
      { dev.set i { dev.buf i with valid := true, dirty := false } with
        disk := update dev.disk blockno (dev.buf i).data }
    else dev.set i { dev.buf i with valid := true, data := dev.disk blockno }

/-- The rest of `bread`.  `none` while another process holds the buffer. -/
def lockBuf (dev : Device) (i : BufId) : Option Device :=
  if (dev.buf i).locked then none
  else
    let dev := dev.set i { dev.buf i with locked := true }
    some (if (dev.buf i).valid then dev else iderw dev i)

def bread (dev : Device) (blockno : ℕ) : Option (Device × BufId) := do
  let (dev, i) ← bget dev blockno
  let dev ← lockBuf dev i
  some (dev, i)

/-- `B_DIRTY` is set, which also keeps a buffer in the cache. -/
def pin (dev : Device) (i : BufId) : Device :=
  dev.set i { dev.buf i with dirty := true }

def bwrite (dev : Device) (i : BufId) : Device :=
  iderw (pin dev i) i

/-- A buffer that nobody waits for moves to the front. -/
def brelse (dev : Device) (i : BufId) : Device :=
  let dev := dev.set i
    { dev.buf i with locked := false, refcnt := (dev.buf i).refcnt - 1 }
  if (dev.buf i).refcnt = 0 then { dev with mru := i :: dev.mru.erase i } else dev

def setData (dev : Device) (i : BufId) (data : Block) : Device :=
  dev.set i { dev.buf i with data }
/-- A buffer that is valid and not dirty holds what is on disk, a dirty buffer
is valid, and a held one is valid and counted. -/
structure Buf.Ok (disk : ℕ → Block) (buf : Buf) : Prop where
  clean : ∀ blockno, buf.blockno = some blockno → buf.valid = true →
    buf.dirty = false → buf.data = disk blockno
  dirty : buf.dirty = true → buf.valid = true
  held : buf.locked = true → buf.valid = true ∧ 0 < buf.refcnt

/-- Every buffer is listed and no block is cached twice. -/
structure Coherent (dev : Device) : Prop where
  listed : ∀ i, i ∈ dev.mru
  unique : ∀ i j blockno, (dev.buf i).blockno = some blockno →
    (dev.buf j).blockno = some blockno → i = j
  ok : ∀ i, (dev.buf i).Ok dev.disk

def current (dev : Device) (blockno : ℕ) : Block :=
  match cached dev blockno with
  | some i => if (dev.buf i).valid then (dev.buf i).data else dev.disk blockno
  | none => dev.disk blockno

def Dirty (dev : Device) (blockno : ℕ) : Prop :=
  ∃ i, (dev.buf i).blockno = some blockno ∧ (dev.buf i).dirty = true

/-- A process holds the lock of the buffer of the block. -/
structure Holds (dev : Device) (i : BufId) (blockno : ℕ) : Prop where
  blockno : (dev.buf i).blockno = some blockno
  locked : (dev.buf i).locked = true

variable {dev'' : Device}

section Coherence

variable {dev dev' : Device} {i j : BufId} {blockno other : ℕ} {buf : Buf}
  {data : Block}

@[simp]
theorem set_disk : (dev.set i buf).disk = dev.disk := rfl

@[simp]
theorem set_mru : (dev.set i buf).mru = dev.mru := rfl

@[simp]
theorem set_buf_self : (dev.set i buf).buf i = buf :=
  update_self ..

theorem set_buf_of_ne (hne : j ≠ i) : (dev.set i buf).buf j = dev.buf j :=
  update_of_ne hne ..

theorem Coherent.cached_eq (hcoherent : Coherent dev)
    (hblock : (dev.buf i).blockno = some blockno) : cached dev blockno = some i := by
  have hsome : (cached dev blockno).isSome := by
    simp only [cached, find?_isSome, decide_eq_true_eq]
    exact ⟨i, hcoherent.listed i, hblock⟩
  obtain ⟨j, hj⟩ := isSome_iff_exists.1 hsome
  have hfound : (dev.buf j).blockno = some blockno := by
    simpa using find?_some hj
  rw [hj, hcoherent.unique j i blockno hfound hblock]

theorem Coherent.not_cached (hcoherent : Coherent dev)
    (hnone : cached dev blockno = none) (i : BufId) : (dev.buf i).blockno ≠ some blockno := by
  intro hblock
  rw [hcoherent.cached_eq hblock] at hnone
  cases hnone

theorem cached_blockno (hcached : cached dev blockno = some i) :
    (dev.buf i).blockno = some blockno := by
  simpa using find?_some hcached

/-- A dirty buffer is what readers see. -/
theorem Coherent.current_dirty (hcoherent : Coherent dev)
    (hblock : (dev.buf i).blockno = some blockno) (hdirty : (dev.buf i).dirty = true) :
    current dev blockno = (dev.buf i).data := by
  simp [current, hcoherent.cached_eq hblock, (hcoherent.ok i).dirty hdirty]

/-- Without one they see the disk. -/
theorem Coherent.current_clean (hcoherent : Coherent dev)
    (hclean : ¬ Dirty dev blockno) : current dev blockno = dev.disk blockno := by
  unfold current
  split
  case h_1 i hcached =>
    have hblock := cached_blockno hcached
    split
    case isTrue hvalid =>
      apply (hcoherent.ok i).clean blockno hblock hvalid
      exact Bool.eq_false_iff.2 fun hdirty => hclean ⟨i, hblock, hdirty⟩
    case isFalse => rfl
  case h_2 => rfl

/-- Readers of a block see the same when its dirty buffer and, without one, the
disk stay the same. -/
theorem Coherent.current_congr (hcoherent : Coherent dev) (hcoherent' : Coherent dev')
    (hdisk : dev'.disk blockno = dev.disk blockno) (hback : Dirty dev' blockno → Dirty dev blockno)
    (hforth : ∀ i, (dev.buf i).blockno = some blockno → (dev.buf i).dirty = true →
      (dev'.buf i).blockno = some blockno ∧ (dev'.buf i).dirty = true ∧
        (dev'.buf i).data = (dev.buf i).data) : current dev' blockno = current dev blockno := by
  by_cases hdirty : Dirty dev blockno
  · obtain ⟨i, hblock, hi⟩ := hdirty
    obtain ⟨hblock', hi', hdata⟩ := hforth i hblock hi
    calc current dev' blockno
        = (dev'.buf i).data := hcoherent'.current_dirty hblock' hi'
      _ = (dev.buf i).data := hdata
      _ = current dev blockno := (hcoherent.current_dirty hblock hi).symm
  · calc current dev' blockno
        = dev'.disk blockno := hcoherent'.current_clean fun h => hdirty (hback h)
      _ = dev.disk blockno := hdisk
      _ = current dev blockno := (hcoherent.current_clean hdirty).symm

theorem Coherent.current_held (hcoherent : Coherent dev)
    (hholds : Holds dev i blockno) : current dev blockno = (dev.buf i).data := by
  simp [current, hcoherent.cached_eq hholds.blockno, ((hcoherent.ok i).held hholds.locked).1]

/-- Neither the disk nor what readers see changes, and nothing becomes dirty. -/
structure Quiet (dev dev' : Device) : Prop where
  coherent : Coherent dev'
  disk : dev'.disk = dev.disk
  current : ∀ blockno, current dev' blockno = current dev blockno
  dirty : ∀ blockno, Dirty dev' blockno → Dirty dev blockno

theorem Quiet.trans (hfirst : Quiet dev dev') (hsecond : Quiet dev' dev'') : Quiet dev dev'' where
  coherent := hsecond.coherent
  disk := hsecond.disk.trans hfirst.disk
  current blockno := (hsecond.current blockno).trans (hfirst.current blockno)
  dirty blockno hdirty := hfirst.dirty blockno (hsecond.dirty blockno hdirty)

theorem Coherent.set (hcoherent : Coherent dev) (hok : buf.Ok dev.disk)
    (hunique : ∀ j blockno, j ≠ i → buf.blockno = some blockno →
      (dev.buf j).blockno ≠ some blockno) : Coherent (dev.set i buf) := by
  refine ⟨hcoherent.listed, fun j k blockno hj hk => ?_, fun j => ?_⟩
  · by_cases hji : j = i <;> by_cases hki : k = i
    · rw [hji, hki]
    · rw [hji, set_buf_self] at hj
      rw [set_buf_of_ne hki] at hk
      exact absurd hk (hunique k blockno hki hj)
    · rw [hki, set_buf_self] at hk
      rw [set_buf_of_ne hji] at hj
      exact absurd hj (hunique j blockno hji hk)
    · rw [set_buf_of_ne hji] at hj
      rw [set_buf_of_ne hki] at hk
      exact hcoherent.unique j k blockno hj hk
  · by_cases hji : j = i
    · rw [hji, set_buf_self]
      exact hok
    · rw [set_buf_of_ne hji]
      exact hcoherent.ok j

/-- A dirty buffer keeps its block and data, any other stays clean. -/
theorem Coherent.quiet_set (hcoherent : Coherent dev) (hok : buf.Ok dev.disk)
    (hunique : ∀ j blockno, j ≠ i → buf.blockno = some blockno → (dev.buf j).blockno ≠ some blockno)
    (hdirty : buf.dirty = (dev.buf i).dirty)
    (hsame : buf.dirty = true → buf.blockno = (dev.buf i).blockno ∧ buf.data = (dev.buf i).data) :
    Quiet dev (dev.set i buf) := by
  have hset := hcoherent.set hok hunique
  have hback : ∀ blockno, Dirty (dev.set i buf) blockno → Dirty dev blockno := by
    rintro blockno ⟨j, hblock, hj⟩
    by_cases hji : j = i
    · rw [hji, set_buf_self] at hblock hj
      exact ⟨i, (hsame hj).1 ▸ hblock, hdirty ▸ hj⟩
    · rw [set_buf_of_ne hji] at hblock hj
      exact ⟨j, hblock, hj⟩
  refine ⟨hset, rfl, fun blockno => ?_, hback⟩
  apply hcoherent.current_congr hset rfl (hback blockno)
  intro j hblock hj
  by_cases hji : j = i
  · subst hji
    rw [← hdirty] at hj
    rw [set_buf_self, (hsame hj).1]
    exact ⟨hblock, hj, (hsame hj).2⟩
  · rw [set_buf_of_ne hji]
    exact ⟨hblock, hj, rfl⟩

/-- The other buffers do not hold the block of the buffer. -/
theorem Coherent.others (hcoherent : Coherent dev) (i : BufId) (j : BufId)
    (blockno : ℕ) (hne : j ≠ i) (hblock : (dev.buf i).blockno = some blockno) :
    (dev.buf j).blockno ≠ some blockno := fun hj => hne (hcoherent.unique j i blockno hj hblock)

theorem unused_free (hunused : unused dev = some i) :
    (dev.buf i).refcnt = 0 ∧ (dev.buf i).dirty = false := by
  simpa using find?_some hunused

/-- A held buffer is counted and not recycled. -/
theorem Coherent.unused_unlocked (hcoherent : Coherent dev)
    (hunused : unused dev = some i) : (dev.buf i).locked ≠ true := by
  intro hlocked
  have hheld := ((hcoherent.ok i).held hlocked).2
  exact Nat.ne_of_gt hheld (unused_free hunused).1

theorem bget_blockno (hbget : bget dev blockno = some (dev', i)) :
    (dev'.buf i).blockno = some blockno := by
  unfold bget at hbget
  split at hbget
  case h_1 j hcached =>
    cases hbget
    simpa using cached_blockno hcached
  case h_2 =>
    obtain ⟨j, hunused, hbget⟩ := map_eq_some_iff.1 hbget
    cases hbget
    simp

/-- `bget` at most counts once more on a held buffer. -/
theorem bget_buf (hcoherent : Coherent dev) (hbget : bget dev blockno = some (dev', i))
    (hlocked : (dev.buf j).locked = true) : ∃ refcnt, dev'.buf j = { dev.buf j with refcnt } := by
  unfold bget at hbget
  split at hbget
  case h_1 k hcached =>
    cases hbget
    by_cases hji : j = i
    · exact ⟨(dev.buf j).refcnt + 1, by rw [hji, set_buf_self]⟩
    · exact ⟨(dev.buf j).refcnt, by rw [set_buf_of_ne hji]⟩
  case h_2 =>
    obtain ⟨k, hunused, hbget⟩ := map_eq_some_iff.1 hbget
    cases hbget
    refine ⟨(dev.buf j).refcnt, ?_⟩
    apply set_buf_of_ne
    rintro rfl
    exact hcoherent.unused_unlocked hunused hlocked

theorem bget_quiet (hcoherent : Coherent dev)
    (hbget : bget dev blockno = some (dev', i)) : Quiet dev dev' := by
  unfold bget at hbget
  split at hbget
  case h_1 j hcached =>
    cases hbget
    have hok := hcoherent.ok i
    apply hcoherent.quiet_set
    · exact ⟨hok.clean, hok.dirty, fun h => ⟨(hok.held h).1, Nat.succ_pos _⟩⟩
    · exact fun j blockno => hcoherent.others i j blockno
    · rfl
    · exact fun _ => ⟨rfl, rfl⟩
  case h_2 hnone =>
    obtain ⟨j, hunused, hbget⟩ := map_eq_some_iff.1 hbget
    cases hbget
    apply hcoherent.quiet_set
    · exact ⟨by simp, by simp,
        fun h => absurd h (hcoherent.unused_unlocked hunused)⟩
    · intro j other _ hother
      cases hother
      exact hcoherent.not_cached hnone j
    · exact (unused_free hunused).2.symm
    · simp

/-- The buffer that `lockBuf` returns: locked, and read if it was not valid. -/
theorem lockBuf_eq (hcoherent : Coherent dev) (hblock : (dev.buf i).blockno = some blockno)
    (hlock : lockBuf dev i = some dev') :
    (dev.buf i).locked = false ∧ dev' = dev.set i { dev.buf i with
        locked := true, valid := true
        data := if (dev.buf i).valid then (dev.buf i).data else dev.disk blockno } := by
  unfold lockBuf at hlock
  split at hlock
  case isTrue => cases hlock
  case isFalse hunlocked =>
    refine ⟨Bool.eq_false_iff.2 hunlocked, ?_⟩
    rw [← some.inj hlock]
    cases hvalid : (dev.buf i).valid with
    | true => simp [hvalid]
    | false =>
      have hclean : (dev.buf i).dirty = false := by
        apply Bool.eq_false_iff.2
        intro hdirty
        rw [(hcoherent.ok i).dirty hdirty] at hvalid
        cases hvalid
      simp [iderw, hblock, hclean, hvalid, Device.set]

theorem lockBuf_quiet (hcoherent : Coherent dev) (hcounted : 0 < (dev.buf i).refcnt)
    (hblock : (dev.buf i).blockno = some blockno)
    (hlock : lockBuf dev i = some dev') : Quiet dev dev' ∧ Holds dev' i blockno := by
  obtain ⟨-, rfl⟩ := lockBuf_eq hcoherent hblock hlock
  have hok := hcoherent.ok i
  refine ⟨?_, by simp [hblock], by simp⟩
  apply hcoherent.quiet_set
  · refine ⟨fun other hother _ hclean => ?_, fun _ => rfl, fun _ => ⟨rfl, hcounted⟩⟩
    cases hblock.symm.trans hother
    split
    case isTrue hvalid => exact hok.clean blockno hblock hvalid hclean
    case isFalse => rfl
  · exact fun j other => hcoherent.others i j other
  · rfl
  · intro hdirty
    exact ⟨rfl, if_pos (hok.dirty hdirty)⟩

theorem bget_counted (hbget : bget dev blockno = some (dev', i)) : 0 < (dev'.buf i).refcnt := by
  unfold bget at hbget
  split at hbget
  case h_1 =>
    cases hbget
    simp
  case h_2 =>
    obtain ⟨j, hunused, hbget⟩ := map_eq_some_iff.1 hbget
    cases hbget
    simp

theorem bread_parts (hbread : bread dev blockno = some (dev', i)) :
    ∃ dev₁, bget dev blockno = some (dev₁, i) ∧ lockBuf dev₁ i = some dev' := by
  simp only [bread, bind_eq_bind, bind_eq_some_iff, Prod.exists,
    some.injEq, Prod.mk.injEq] at hbread
  obtain ⟨dev₁, j, hbget, dev₂, hlock, rfl, rfl⟩ := hbread
  exact ⟨dev₁, hbget, hlock⟩

theorem bread_quiet (hcoherent : Coherent dev) (hbread : bread dev blockno = some (dev', i)) :
    Quiet dev dev' ∧ Holds dev' i blockno := by
  obtain ⟨dev₁, hbget, hlock⟩ := bread_parts hbread
  have hquiet := bget_quiet hcoherent hbget
  obtain ⟨hquiet', hholds⟩ := lockBuf_quiet hquiet.coherent (bget_counted hbget)
    (bget_blockno hbget) hlock
  exact ⟨hquiet.trans hquiet', hholds⟩

/-- A held buffer stays held, and is not the one that is read. -/
theorem bread_held (hcoherent : Coherent dev) (hholds : Holds dev j other)
    (hbread : bread dev blockno = some (dev', i)) : i ≠ j ∧ Holds dev' j other := by
  obtain ⟨dev₁, hbget, hlock⟩ := bread_parts hbread
  obtain ⟨refcnt, hbuf⟩ := bget_buf hcoherent hbget hholds.locked
  obtain ⟨hunlocked, rfl⟩ := lockBuf_eq (bget_quiet hcoherent hbget).coherent
    (bget_blockno hbget) hlock
  have hne : i ≠ j := by
    rintro rfl
    rw [hbuf] at hunlocked
    exact Bool.noConfusion (hholds.locked.symm.trans hunlocked)
  refine ⟨hne, ?_, ?_⟩
  · rw [set_buf_of_ne hne.symm, hbuf]
    exact hholds.blockno
  · rw [set_buf_of_ne hne.symm, hbuf]
    exact hholds.locked

/-- Reordering the list of buffers changes nothing that is seen. -/
theorem Coherent.quiet_mru (hcoherent : Coherent dev) (mru : List BufId)
    (hlisted : ∀ i, i ∈ mru) : Quiet dev { dev with mru } := by
  have hmru : Coherent { dev with mru } := ⟨hlisted, hcoherent.unique, hcoherent.ok⟩
  exact ⟨hmru, rfl, fun blockno => hcoherent.current_congr hmru rfl id
    fun i hblock hi => ⟨hblock, hi, rfl⟩, fun _ => id⟩

theorem brelse_quiet (hcoherent : Coherent dev) (i : BufId) : Quiet dev (brelse dev i) := by
  have hok := hcoherent.ok i
  have hunlock : Quiet dev (dev.set i
      { dev.buf i with locked := false, refcnt := (dev.buf i).refcnt - 1 }) := by
    apply hcoherent.quiet_set
    · exact ⟨hok.clean, hok.dirty, by simp⟩
    · exact fun j other => hcoherent.others i j other
    · rfl
    · exact fun _ => ⟨rfl, rfl⟩
  unfold brelse
  simp only
  split
  case isTrue =>
    apply hunlock.trans
    apply hunlock.coherent.quiet_mru
    intro j
    by_cases hji : j = i
    · simp [hji]
    · simp [hji, mem_erase_of_ne hji, hcoherent.listed j]
  case isFalse => exact hunlock

/-- The effect of a write on the disk, on readers and on what is dirty. -/
structure Written (dev dev' : Device) (blockno : ℕ) (data : Block) : Prop where
  coherent : Coherent dev'
  disk : dev'.disk = update dev.disk blockno data
  current : ∀ other, current dev' other = update (current dev) blockno data other
  dirty : ∀ other, Dirty dev' other → Dirty dev other ∧ other ≠ blockno

theorem Quiet.written (hquiet : Quiet dev dev')
    (hwritten : Written dev' dev'' blockno data) : Written dev dev'' blockno data := by
  have hcurrent : BufferCache.current dev' = BufferCache.current dev := funext hquiet.current
  refine ⟨hwritten.coherent, ?_, fun other => ?_, fun other hdirty => ?_⟩
  · rw [hwritten.disk, hquiet.disk]
  · rw [hwritten.current, hcurrent]
  · exact (hwritten.dirty other hdirty).imp_left (hquiet.dirty other)

theorem Written.quiet (hwritten : Written dev dev' blockno data)
    (hquiet : Quiet dev' dev'') : Written dev dev'' blockno data where
  coherent := hquiet.coherent
  disk := hquiet.disk.trans hwritten.disk
  current other := (hquiet.current other).trans (hwritten.current other)
  dirty other hdirty := hwritten.dirty other (hquiet.dirty other hdirty)

theorem bwrite_eq (hholds : Holds dev i blockno) (data : Block) :
    bwrite (setData dev i data) i =
      { dev.set i { dev.buf i with data, valid := true, dirty := false } with
        disk := update dev.disk blockno data } := by
  simp [bwrite, setData, pin, iderw, hholds.blockno, Device.set]

/-- Every other buffer is as before, and of another block. -/
theorem Coherent.update_ok (hcoherent : Coherent dev) (hholds : Holds dev i blockno)
    (hji : j ≠ i) : (dev.buf j).Ok (update dev.disk blockno data) := by
  have hok := hcoherent.ok j
  refine ⟨fun other hother hvalid hclean => ?_, hok.dirty, hok.held⟩
  have hne : other ≠ blockno := by
    rintro rfl
    exact hcoherent.others i j other hji hholds.blockno hother
  rw [update_of_ne hne]
  exact hok.clean other hother hvalid hclean

theorem Holds.ne_of_block (hholds : Holds dev i blockno)
    (hblock : (dev.buf j).blockno = some other) (hne : other ≠ blockno) : j ≠ i := by
  rintro rfl
  exact hne (some.inj (hblock.symm.trans hholds.blockno))

theorem bwrite_written (hcoherent : Coherent dev) (hholds : Holds dev i blockno)
    (data : Block) : Written dev (bwrite (setData dev i data) i) blockno data := by
  rw [bwrite_eq hholds]
  set dev' : Device :=
    { dev.set i { dev.buf i with data, valid := true, dirty := false } with
      disk := update dev.disk blockno data } with hdev'
  have hself : dev'.buf i =
      { dev.buf i with data, valid := true, dirty := false } := set_buf_self
  have hothers (j : BufId) (hji : j ≠ i) : dev'.buf j = dev.buf j := set_buf_of_ne hji
  have hblocks (j : BufId) : (dev'.buf j).blockno = (dev.buf j).blockno := by
    by_cases hji : j = i
    · rw [hji, hself]
    · rw [hothers j hji]
  have hcoherent' : Coherent dev' := by
    refine ⟨hcoherent.listed, fun j k other hj hk => ?_, fun j => ?_⟩
    · rw [hblocks] at hj hk
      exact hcoherent.unique j k other hj hk
    · by_cases hji : j = i
      · rw [hji, hself]
        refine ⟨fun other hother _ _ => ?_, fun _ => rfl, fun hlocked =>
          ⟨rfl, ((hcoherent.ok i).held hlocked).2⟩⟩
        cases hholds.blockno.symm.trans hother
        show data = update dev.disk blockno data blockno
        rw [update_self]
      · rw [hothers j hji]
        exact hcoherent.update_ok hholds hji
  have hdirty : ∀ other, Dirty dev' other → Dirty dev other ∧ other ≠ blockno := by
    rintro other ⟨j, hblock, hj⟩
    have hji : j ≠ i := by
      rintro rfl
      rw [hself] at hj
      cases hj
    rw [hothers j hji] at hblock hj
    refine ⟨⟨j, hblock, hj⟩, ?_⟩
    rintro rfl
    exact hcoherent.others i j other hji hholds.blockno hblock
  refine ⟨hcoherent', rfl, fun other => ?_, hdirty⟩
  by_cases hsame : other = blockno
  · rw [hcoherent'.current_clean fun h => (hdirty other h).2 hsame, hsame]
    simp [dev']
  · rw [update_of_ne hsame]
    apply hcoherent.current_congr hcoherent' (update_of_ne hsame ..)
    · exact fun h => (hdirty other h).1
    · intro j hblock hj
      rw [hothers j (hholds.ne_of_block hblock hsame)]
      exact ⟨hblock, hj, rfl⟩

/-- A pinned change is seen by readers and not on disk. -/
theorem pin_spec (hcoherent : Coherent dev) (hholds : Holds dev i blockno) (data : Block) :
    Coherent (pin (setData dev i data) i) ∧ (∀ other, current (pin (setData dev i data) i) other =
        update (current dev) blockno data other) ∧
      ∀ other, Dirty (pin (setData dev i data) i) other → Dirty dev other ∨ other = blockno := by
  have hheld := (hcoherent.ok i).held hholds.locked
  have hpin : pin (setData dev i data) i = dev.set i { dev.buf i with data, dirty := true } := by
    simp [pin, setData, Device.set]
  rw [hpin]
  have hcoherent' : Coherent (dev.set i { dev.buf i with data, dirty := true }) := by
    apply hcoherent.set
    · exact ⟨fun _ _ _ hclean => absurd hclean (by simp), fun _ => hheld.1,
        fun _ => hheld⟩
    · exact fun j other => hcoherent.others i j other
  have hdirty : ∀ other, Dirty (dev.set i { dev.buf i with data, dirty := true }) other →
      Dirty dev other ∨ other = blockno := by
    rintro other ⟨j, hblock, hj⟩
    by_cases hji : j = i
    · rw [hji, set_buf_self] at hblock
      exact .inr (some.inj (hblock.symm.trans hholds.blockno))
    · rw [set_buf_of_ne hji] at hblock hj
      exact .inl ⟨j, hblock, hj⟩
  refine ⟨hcoherent', fun other => ?_, hdirty⟩
  by_cases hsame : other = blockno
  · rw [hsame, update_self,
      hcoherent'.current_dirty (i := i) (by simpa using hholds.blockno) (by simp),
      set_buf_self]
  · rw [update_of_ne hsame]
    apply hcoherent.current_congr hcoherent' rfl
    · exact fun h => (hdirty other h).resolve_right hsame
    · intro j hblock hj
      rw [set_buf_of_ne (hholds.ne_of_block hblock hsame)]
      exact ⟨hblock, hj, rfl⟩

end Coherence

end Xv6Users.BufferCache
