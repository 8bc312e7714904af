import Xv6Users.Core.LinkedRing
import Xv6Users.Core.Runs
import Xv6Users.Kernel.BufferCache

/-!
# Runs of the buffer cache

`kernel/bio.c` with the links of its list, and processes that get, lock, write and release
buffers.  A step is what one process does under the lock of the cache or while it holds a
buffer: `bread` counts a reference, then waits for the buffer and reads it; `brelse` gives
up the buffer, then the reference.  A process changes the data of a buffer that it holds
only together with `bwrite` or `log_write`.
-/

namespace Xv6Users.BufferRuns

open LinkedRing Function List Option
open BufferCache (Block BufId Device Coherent current Quiet)

/-- `ROOTDEV`. -/
def rootdev : ℕ := 1

/-- `NBUF`. -/
abbrev nbuf : ℕ := 30

variable {Process : Type}

/-- `struct buf`; `holder` is the process that has its lock. -/
structure Buffer (Process : Type) where
  dev : ℕ
  blockno : ℕ
  valid : Bool
  dirty : Bool
  holder : Option Process
  refcnt : ℕ
  data : Block

/-- The disk, the buffers and the links of the list. -/
structure Cache (Process : Type) where
  disk : ℕ → Block
  buf : BufId → Buffer Process
  links : Links BufId

def Cache.set (cache : Cache Process) (b : BufId) (buffer : Buffer Process) : Cache Process :=
  { cache with buf := update cache.buf b buffer }

/-! ## The functions of the source -/

/-- The buffers are zero; the links may be anything. -/
def binit (disk : ℕ → Block) (links : Links BufId) : Cache Process where
  disk
  buf _ := ⟨0, 0, false, false, none, 0, fun _ => 0⟩
  links := (finRange nbuf).foldl Links.pushFront links.clear

/-- The first loop of `bget`. -/
def Cache.cached (cache : Cache Process) (dev blockno : ℕ) : Option BufId :=
  search cache.links.next (fun b => (cache.buf b).dev = dev ∧ (cache.buf b).blockno = blockno)
    (nbuf + 1) (cache.links.next none)

/-- The second loop of `bget`. -/
def Cache.unused (cache : Cache Process) : Option BufId :=
  search cache.links.prev (fun b => (cache.buf b).refcnt = 0 ∧ (cache.buf b).dirty = false)
    (nbuf + 1) (cache.links.prev none)

/-- `bget` up to the lock of the buffer; `none` is the panic. -/
def Cache.bget (cache : Cache Process) (dev blockno : ℕ) : Option (Cache Process × BufId) :=
  match cache.cached dev blockno with
  | some b => some (cache.set b { cache.buf b with refcnt := (cache.buf b).refcnt + 1 }, b)
  | none => cache.unused.map fun b =>
    (cache.set b { cache.buf b with dev, blockno, valid := false, dirty := false, refcnt := 1 }, b)

/-- `none` is a panic. -/
def Cache.iderw (cache : Cache Process) (disksize : ℕ) (b : BufId) : Option (Cache Process) :=
  if (cache.buf b).valid ∧ (cache.buf b).dirty = false then none
  else if (cache.buf b).dev ≠ 1 then none
  else if (cache.buf b).blockno ≥ disksize then none
  else if (cache.buf b).dirty then
    some
      { cache.set b { cache.buf b with dirty := false, valid := true } with
        disk := update cache.disk (cache.buf b).blockno (cache.buf b).data }
  else
    some (cache.set b { cache.buf b with data := cache.disk (cache.buf b).blockno, valid := true })

/-- The rest of `bread`; `none` also while another process has the lock. -/
def Cache.lock (cache : Cache Process) (disksize : ℕ) (process : Process) (b : BufId) :
    Option (Cache Process) :=
  if (cache.buf b).holder ≠ none then none
  else
    let cache := cache.set b { cache.buf b with holder := some process }
    if (cache.buf b).valid then some cache else cache.iderw disksize b

/-- `data` is what the holder has put into the buffer. -/
def Cache.bwrite (cache : Cache Process) (disksize : ℕ) (b : BufId) (data : Block) :
    Option (Cache Process) :=
  (cache.set b { cache.buf b with data, dirty := true }).iderw disksize b

/-- `log_write` as far as the buffer is concerned. -/
def Cache.logWrite (cache : Cache Process) (b : BufId) (data : Block) : Cache Process :=
  cache.set b { cache.buf b with data, dirty := true }

/-- `releasesleep`. -/
def Cache.release (cache : Cache Process) (b : BufId) : Cache Process :=
  cache.set b { cache.buf b with holder := none }

/-- The part of `brelse` under the lock of the cache. -/
def Cache.drop (cache : Cache Process) (b : BufId) : Cache Process :=
  let cache := cache.set b { cache.buf b with refcnt := (cache.buf b).refcnt - 1 }
  if (cache.buf b).refcnt = 0 then
    { cache with links := (cache.links.unlink b).pushFront b }
  else cache

/-- A process that has counted a reference for a block and waits for its buffer. -/
structure Wait (Process : Type) where
  process : Process
  blockno : ℕ
  b : BufId
  deriving DecidableEq

/-- The cache, the processes between the two parts of `bread` and of `brelse`, and the
last data written to each block. -/
structure System (Process : Type) where
  cache : Cache Process
  waiting : List (Wait Process)
  leaving : List (Process × BufId)
  latest : ℕ → Block

inductive Action (Process : Type) where
  | bget (process : Process) (blockno : ℕ)
  | lock (wait : Wait Process)
  | bwrite (process : Process) (b : BufId) (data : Block)
  | logWrite (process : Process) (b : BufId) (data : Block)
  | release (process : Process) (b : BufId)
  | drop (process : Process) (b : BufId)

def System.write (system : System Process) (b : BufId) (data : Block)
    (cache : Cache Process) : System Process :=
  { system with
    cache
    latest := update system.latest (system.cache.buf b).blockno data }

/-- `none` when the action is not possible or the machine stops. -/
def step [DecidableEq Process] (disksize : ℕ) (system : System Process) :
    Action Process → Option (System Process)
  | .bget process blockno =>
    (system.cache.bget rootdev blockno).map fun (cache, b) =>
      { system with cache, waiting := ⟨process, blockno, b⟩ :: system.waiting }
  | .lock wait =>
    if wait ∈ system.waiting then
      (system.cache.lock disksize wait.process wait.b).map fun cache =>
        { system with cache, waiting := system.waiting.erase wait }
    else none
  | .bwrite process b data =>
    if (system.cache.buf b).holder = some process then
      (system.cache.bwrite disksize b data).map (system.write b data)
    else none
  | .logWrite process b data =>
    if (system.cache.buf b).holder = some process then
      some (system.write b data (system.cache.logWrite b data))
    else none
  | .release process b =>
    if (system.cache.buf b).holder = some process then
      some
        { system with
          cache := system.cache.release b
          leaving := (process, b) :: system.leaving }
    else none
  | .drop process b =>
    if (process, b) ∈ system.leaving then
      some
        { system with
          cache := system.cache.drop b
          leaving := system.leaving.erase (process, b) }
    else none

def start (disk : ℕ → Block) (links : Links BufId) : System Process :=
  ⟨binit disk links, [], [], disk⟩

/-- The systems of all runs that start with `binit`. -/
def Reachable [DecidableEq Process] (disksize : ℕ) (disk : ℕ → Block) (links : Links BufId)
    (system : System Process) : Prop :=
  Relation.ReflTransGen (fun before after => ∃ action, step disksize before action = some after)
    (start disk links) system

/-! ## The cache as a list of buffers -/

/-- A buffer that never held a block of the disk has no block. -/
def view (buffer : Buffer Process) : BufferCache.Buf where
  blockno := if buffer.dev = rootdev then some buffer.blockno else none
  valid := buffer.valid
  dirty := buffer.dirty
  locked := buffer.holder.isSome
  refcnt := buffer.refcnt
  data := buffer.data

def device (cache : Cache Process) (mru : List BufId) : Device where
  disk := cache.disk
  buf b := view (cache.buf b)
  mru

section Views

variable {cache cache' : Cache Process} {mru : List BufId} {b : BufId} {blockno disksize : ℕ}
  {buffer : Buffer Process} {process : Process} {data : Block}

theorem view_blockno :
    (view buffer).blockno = some blockno ↔ buffer.dev = rootdev ∧ buffer.blockno = blockno := by
  rw [view]
  split_ifs with hdev <;> simp [hdev]

theorem view_of_root (hdev : buffer.dev = rootdev) : (view buffer).blockno = some buffer.blockno :=
  if_pos hdev

@[simp]
theorem device_set (cache : Cache Process) (mru : List BufId) (b : BufId)
    (buffer : Buffer Process) :
    device (cache.set b buffer) mru = (device cache mru).set b (view buffer) := by
  have hbuf : (fun c => view (update cache.buf b buffer c)) =
      update (fun c => view (cache.buf c)) b (view buffer) := by
    funext c
    exact apply_update (fun _ => view) cache.buf b buffer c
  rw [device, Device.set, Cache.set, hbuf]
  rfl

@[simp]
theorem cache_set_self (cache : Cache Process) (b : BufId) (buffer : Buffer Process) :
    (cache.set b buffer).buf b = buffer := update_self ..

theorem cache_set_of_ne (cache : Cache Process) {b c : BufId} (hne : c ≠ b)
    (buffer : Buffer Process) : (cache.set b buffer).buf c = cache.buf c := update_of_ne hne ..

/-- The links of the list lead through all buffers. -/
structure Sorted (cache : Cache Process) (mru : List BufId) : Prop where
  lists : cache.links.Lists mru
  all : ∀ b, b ∈ mru

theorem Sorted.length (hsorted : Sorted cache mru) : mru.length < nbuf + 1 := by
  have hcard := hsorted.lists.nodup.length_le_card
  exact Nat.lt_succ_of_le hcard

theorem cached_eq (hsorted : Sorted cache mru) :
    cache.cached rootdev blockno = BufferCache.cached (device cache mru) blockno := by
  have hwanted : (fun b => decide
      ((cache.buf b).dev = rootdev ∧ (cache.buf b).blockno = blockno)) =
      fun b => decide ((view (cache.buf b)).blockno = some blockno) := by
    funext b
    rw [decide_eq_decide, view_blockno]
  rw [Cache.cached, search_next hsorted.lists.leads hsorted.length, hwanted]
  rfl

theorem unused_eq (hsorted : Sorted cache mru) :
    cache.unused = BufferCache.unused (device cache mru) := by
  rw [Cache.unused, search_prev hsorted.lists hsorted.length]
  rfl

/-- `bget` on the links is `bget` on the list. -/
theorem bget_device (hsorted : Sorted cache mru)
    (hbget : cache.bget rootdev blockno = some (cache', b)) :
    BufferCache.bget (device cache mru) blockno = some (device cache' mru, b) := by
  rw [Cache.bget, cached_eq hsorted, unused_eq hsorted] at hbget
  rw [BufferCache.bget]
  cases hcached : BufferCache.cached (device cache mru) blockno with
  | some found =>
    rw [hcached] at hbget
    cases hbget
    rw [device_set]
    rfl
  | none =>
    rw [hcached] at hbget
    obtain ⟨found, hunused, hpair⟩ := map_eq_some_iff.1 hbget
    cases hpair
    rw [hunused, device_set]
    rfl

theorem iderw_device (hiderw : cache.iderw disksize b = some cache') :
    device cache' mru = BufferCache.iderw (device cache mru) b := by
  rw [Cache.iderw] at hiderw
  split_ifs at hiderw with hidle hdev hrange hdirty
  · have hblock := view_of_root (not_not.1 hdev)
    cases hiderw
    have hview : ((device cache mru).buf b).dirty = true := hdirty
    rw [BufferCache.iderw, show ((device cache mru).buf b).blockno = _ from hblock]
    dsimp only
    rw [if_pos hview]
    exact congrArg (fun dev : Device => { dev with
      disk := update cache.disk (cache.buf b).blockno (cache.buf b).data })
      (device_set cache mru b _)
  · have hblock := view_of_root (not_not.1 hdev)
    cases hiderw
    have hview : ¬ ((device cache mru).buf b).dirty = true := hdirty
    rw [BufferCache.iderw, show ((device cache mru).buf b).blockno = _ from hblock]
    dsimp only
    rw [if_neg hview, device_set]
    rfl

theorem lock_device (hlock : cache.lock disksize process b = some cache') :
    BufferCache.lockBuf (device cache mru) b = some (device cache' mru) := by
  rw [Cache.lock] at hlock
  split_ifs at hlock with hheld
  rw [not_not] at hheld
  have hunlocked : ¬ ((device cache mru).buf b).locked = true := by
    change ¬ (cache.buf b).holder.isSome = true
    rw [hheld]
    exact Bool.false_ne_true
  rw [BufferCache.lockBuf, if_neg hunlocked]
  have hset : (device cache mru).set b { (device cache mru).buf b with locked := true } =
      device (cache.set b { cache.buf b with holder := some process }) mru := by
    rw [device_set]
    rfl
  rw [hset]
  cases hvalid : ((cache.set b { cache.buf b with holder := some process }).buf b).valid with
  | true =>
    rw [if_pos hvalid] at hlock
    cases hlock
    exact congrArg some (if_pos hvalid)
  | false =>
    rw [if_neg (by rw [hvalid]; exact Bool.false_ne_true)] at hlock
    rw [iderw_device hlock]
    exact congrArg some (if_neg (by
      rw [show ((device _ mru).buf b).valid = _ from hvalid]
      exact Bool.false_ne_true))

theorem logWrite_device :
    device (cache.logWrite b data) mru =
      BufferCache.pin (BufferCache.setData (device cache mru) b data) b := by
  rw [Cache.logWrite, device_set]
  simp [BufferCache.pin, BufferCache.setData, Device.set, view, device]

theorem bwrite_device (hbwrite : cache.bwrite disksize b data = some cache') :
    device cache' mru = BufferCache.bwrite (BufferCache.setData (device cache mru) b data) b := by
  rw [iderw_device hbwrite, BufferCache.bwrite, ← logWrite_device]
  rfl

end Views

def System.refs (system : System Process) (b : BufId) : ℕ :=
  system.waiting.countP (·.b = b) + system.leaving.countP (·.2 = b) +
    if (system.cache.buf b).holder = none then 0 else 1

/-- The list is in order, the cache is coherent and holds the last data, and references
are counted. -/
structure Good (system : System Process) (mru : List BufId) : Prop where
  sorted : Sorted system.cache mru
  coherent : Coherent (device system.cache mru)
  latest : current (device system.cache mru) = system.latest
  counted : ∀ b, (system.cache.buf b).refcnt = system.refs b
  wanted : ∀ wait ∈ system.waiting, (system.cache.buf wait.b).dev = rootdev ∧
    (system.cache.buf wait.b).blockno = wait.blockno
  held : ∀ b, (system.cache.buf b).holder ≠ none → (system.cache.buf b).dev = rootdev

variable {buffer : Buffer Process} {cache : Cache Process}

section Steps

variable {system system' : System Process} {mru : List BufId} {b c : BufId}
  {blockno disksize : ℕ} {process : Process} {data : Block} {cache' : Cache Process}
  {wait : Wait Process} {action : Action Process}

/-- The buffer that `bget` gets, and what it does to it. -/
theorem bget_cases (hbget : cache.bget rootdev blockno = some (cache', b)) :
    ((cache.buf b).dev = rootdev ∧ (cache.buf b).blockno = blockno ∧
        cache' = cache.set b { cache.buf b with refcnt := (cache.buf b).refcnt + 1 }) ∨
      ((cache.buf b).refcnt = 0 ∧ (cache.buf b).dirty = false ∧ cache' = cache.set b
          { cache.buf b with
            dev := rootdev, blockno, valid := false, dirty := false, refcnt := 1 }) := by
  rw [Cache.bget] at hbget
  cases hcached : cache.cached rootdev blockno with
  | some found =>
    rw [hcached] at hbget
    cases hbget
    have hfound := search_wanted hcached
    rw [decide_eq_true_eq] at hfound
    exact .inl ⟨hfound.1, hfound.2, rfl⟩
  | none =>
    rw [hcached] at hbget
    obtain ⟨found, hunused, hpair⟩ := map_eq_some_iff.1 hbget
    cases hpair
    have hfound := search_wanted hunused
    rw [decide_eq_true_eq] at hfound
    exact .inr ⟨hfound.1, hfound.2, rfl⟩

/-- A step that edits one buffer and leaves its block. -/
structure Edits (system : System Process) (b : BufId) (buffer : Buffer Process)
    (system' : System Process) : Prop where
  links : system'.cache.links = system.cache.links
  bufs : ∀ c, system'.cache.buf c = if c = b then buffer else system.cache.buf c

theorem edits_set (hcache : system'.cache = system.cache.set b buffer) :
    Edits system b buffer system' where
  links := by
    rw [hcache]
    rfl
  bufs c := by
    rw [hcache]
    exact update_apply ..

theorem Good.sorted_of_links (hgood : Good system mru)
    (hlinks : system'.cache.links = system.cache.links) : Sorted system'.cache mru :=
  ⟨hlinks ▸ hgood.sorted.lists, hgood.sorted.all⟩

/-- A buffer without references is not waited for and not held. -/
theorem Good.unreferenced (hgood : Good system mru) (hrefcnt : (system.cache.buf b).refcnt = 0) :
    (∀ wait ∈ system.waiting, wait.b ≠ b) ∧ (system.cache.buf b).holder = none := by
  have hrefs := hgood.counted b
  rw [hrefcnt, System.refs] at hrefs
  constructor
  · intro wait hwait hsame
    have hpos : 0 < system.waiting.countP (·.b = b) :=
      countP_pos_iff.2 ⟨wait, hwait, decide_eq_true hsame⟩
    omega
  · by_contra hheld
    rw [if_neg hheld] at hrefs
    omega

/-- A step that edits one buffer. -/
theorem Good.edit (hgood : Good system mru)
    (hedits : Edits system b buffer system') (hcoherent : Coherent (device system'.cache mru))
    (hlatest : current (device system'.cache mru) = system'.latest)
    (hcounted : buffer.refcnt = system'.refs b)
    (hothers : ∀ c, c ≠ b → system'.refs c = system.refs c)
    (hsub : ∀ wait ∈ system'.waiting, wait.b ≠ b → wait ∈ system.waiting)
    (hwanted : ∀ wait ∈ system'.waiting, wait.b = b →
      buffer.dev = rootdev ∧ buffer.blockno = wait.blockno)
    (hheld : buffer.holder ≠ none → buffer.dev = rootdev) : Good system' mru := by
  have hself : system'.cache.buf b = buffer := by
    rw [hedits.bufs, if_pos rfl]
  have hrest : ∀ c, c ≠ b → system'.cache.buf c = system.cache.buf c := by
    intro c hc
    rw [hedits.bufs, if_neg hc]
  refine ⟨hgood.sorted_of_links hedits.links, hcoherent, hlatest, ?_, ?_, ?_⟩
  · intro c
    by_cases hc : c = b
    · rw [hc, hself, hcounted]
    · rw [hrest c hc, hothers c hc]
      exact hgood.counted c
  · intro wait hwait
    by_cases hb : wait.b = b
    · rw [hb, hself]
      exact hwanted wait hwait hb
    · rw [hrest _ hb]
      exact hgood.wanted wait (hsub wait hwait hb)
  · intro c hholder
    by_cases hc : c = b
    · rw [hc, hself] at hholder ⊢
      exact hheld hholder
    · rw [hrest c hc] at hholder ⊢
      exact hgood.held c hholder

theorem Good.bget (hgood : Good system mru)
    (hbget : system.cache.bget rootdev blockno = some (cache', b)) :
    Good { system with cache := cache', waiting := ⟨process, blockno, b⟩ :: system.waiting }
      mru := by
  have hquiet := BufferCache.bget_quiet hgood.coherent (bget_device hgood.sorted hbget)
  have hlatest : current (device cache' mru) = system.latest := by
    rw [← hgood.latest]
    exact funext hquiet.current
  have hcounted := hgood.counted b
  rw [System.refs] at hcounted
  obtain ⟨hdev, hblockno, rfl⟩ | ⟨hrefcnt, -, rfl⟩ := bget_cases hbget
  · refine hgood.edit (edits_set rfl) hquiet.coherent hlatest ?_ ?_ ?_ ?_ ?_
    · simp only [System.refs, cache_set_self, countP_cons_of_pos, decide_true]
      omega
    · intro c hc
      simp [System.refs, cache_set_of_ne _ hc, Ne.symm hc]
    · intro wait hwait hb
      exact (mem_cons.1 hwait).resolve_left fun hnew => hb (by rw [hnew])
    · intro wait hwait hb
      cases mem_cons.1 hwait with
      | inl hnew =>
        rw [hnew]
        exact ⟨hdev, hblockno⟩
      | inr hold =>
        have hwanted := hgood.wanted wait hold
        rw [hb] at hwanted
        exact hwanted
    · exact fun _ => hdev
  · obtain ⟨hnobody, hfree⟩ := hgood.unreferenced hrefcnt
    refine hgood.edit (edits_set rfl) hquiet.coherent hlatest ?_ ?_ ?_ ?_ ?_
    · simp only [System.refs, cache_set_self, countP_cons_of_pos, decide_true]
      omega
    · intro c hc
      simp [System.refs, cache_set_of_ne _ hc, Ne.symm hc]
    · intro wait hwait hb
      exact (mem_cons.1 hwait).resolve_left fun hnew => hb (by rw [hnew])
    · intro wait hwait hb
      cases mem_cons.1 hwait with
      | inl hnew =>
        rw [hnew]
        exact ⟨rfl, rfl⟩
      | inr hold => exact absurd hb (hnobody wait hold)
    · exact fun _ => rfl

/-- The buffer of a process that waits, after `lock`. -/
theorem lock_cases (hdirty : (cache.buf b).dirty = true → (cache.buf b).valid = true)
    (hlock : cache.lock disksize process b = some cache') :
    (cache.buf b).holder = none ∧ ∃ data, cache' = cache.set b
        { cache.buf b with holder := some process, valid := true, data } := by
  rw [Cache.lock] at hlock
  split_ifs at hlock with hheld
  refine ⟨not_not.1 hheld, ?_⟩
  dsimp only at hlock
  rw [cache_set_self] at hlock
  split_ifs at hlock with hvalid
  · cases hlock
    refine ⟨(cache.buf b).data, ?_⟩
    rw [← hvalid]
  · have hclean : ¬ (cache.buf b).dirty = true := fun h => hvalid (hdirty h)
    rw [Cache.iderw, cache_set_self] at hlock
    split_ifs at hlock
    cases hlock
    refine ⟨cache.disk (cache.buf b).blockno, ?_⟩
    simp only [Cache.set, update_idem]

theorem Good.lock [DecidableEq Process] (hgood : Good system mru) (hwait : wait ∈ system.waiting)
    (hlock : system.cache.lock disksize wait.process wait.b = some cache') :
    Good { system with cache := cache', waiting := system.waiting.erase wait } mru ∧
      (cache'.buf wait.b).holder = some wait.process ∧
      (cache'.buf wait.b).dev = rootdev ∧ (cache'.buf wait.b).blockno = wait.blockno ∧
      (cache'.buf wait.b).data = system.latest wait.blockno := by
  have hok := hgood.coherent.ok wait.b
  have hcounted := hgood.counted wait.b
  have hpos : 0 < system.waiting.countP (·.b = wait.b) :=
    countP_pos_iff.2 ⟨wait, hwait, decide_eq_true rfl⟩
  obtain ⟨hdev, hblockno⟩ := hgood.wanted wait hwait
  have hview : ((device system.cache mru).buf wait.b).blockno = some wait.blockno :=
    view_blockno.2 ⟨hdev, hblockno⟩
  have hrefs : 0 < (system.cache.buf wait.b).refcnt := by
    rw [hcounted, System.refs]
    omega
  obtain ⟨hquiet, hholds⟩ := BufferCache.lockBuf_quiet hgood.coherent hrefs hview
    (lock_device hlock)
  have hlatest : current (device cache' mru) = system.latest := by
    rw [← hgood.latest]
    exact funext hquiet.current
  have hdata : (cache'.buf wait.b).data = system.latest wait.blockno := by
    rw [← hlatest]
    exact (hquiet.coherent.current_held hholds).symm
  obtain ⟨hfree, data, rfl⟩ := lock_cases hok.dirty hlock
  rw [System.refs, if_pos hfree] at hcounted
  refine ⟨hgood.edit (edits_set rfl) hquiet.coherent hlatest ?_ ?_ ?_ ?_ ?_, ?_, ?_, ?_, hdata⟩
  · simp [System.refs, countP_erase, hwait]
    omega
  · intro c hc
    simp [System.refs, cache_set_of_ne _ hc, countP_erase, Ne.symm hc]
  · exact fun _ hother _ => mem_of_mem_erase hother
  · intro other hother hb
    have hwanted := hgood.wanted other (mem_of_mem_erase hother)
    rw [hb] at hwanted
    exact hwanted
  · exact fun _ => hdev
  · simp
  · simpa using hdev
  · simpa using hblockno

/-- The holder writes to the buffer. -/
theorem Good.write (hgood : Good system mru)
    (hheld : (system.cache.buf b).holder ≠ none) (hcoherent : Coherent (device cache' mru))
    (hcurrent : ∀ other, current (device cache' mru) other = update
      (current (device system.cache mru)) (system.cache.buf b).blockno data other)
    (hlinks : cache'.links = system.cache.links)
    (hbufs : ∀ c, cache'.buf c = if c = b then buffer else system.cache.buf c)
    (hbuffer : buffer.dev = (system.cache.buf b).dev ∧
      buffer.blockno = (system.cache.buf b).blockno ∧
      buffer.refcnt = (system.cache.buf b).refcnt ∧ buffer.holder = (system.cache.buf b).holder) :
    Good (system.write b data cache') mru := by
  have hdev := hgood.held b hheld
  have hedits : Edits system b buffer (system.write b data cache') := ⟨hlinks, hbufs⟩
  have hself : cache'.buf b = buffer := by
    rw [hbufs, if_pos rfl]
  obtain ⟨hsameDev, hsameBlock, hsameRefcnt, hsameHolder⟩ := hbuffer
  refine hgood.edit hedits hcoherent ?_ ?_ ?_ ?_ ?_ ?_
  · rw [System.write, ← hgood.latest]
    exact funext hcurrent
  · rw [hsameRefcnt, hgood.counted b, System.refs, System.refs, System.write, hself, hsameHolder]
  · intro c hc
    rw [System.refs, System.refs, System.write, hbufs, if_neg hc]
  · exact fun _ hwait _ => hwait
  · intro wait hwait hb
    have hwanted := hgood.wanted wait hwait
    rw [hb] at hwanted
    rw [hsameDev, hsameBlock]
    exact hwanted
  · intro _
    rw [hsameDev]
    exact hdev

theorem holds_of_held (hgood : Good system mru)
    (hheld : (system.cache.buf b).holder = some process) :
    BufferCache.Holds (device system.cache mru) b (system.cache.buf b).blockno where
  blockno := view_of_root (hgood.held b (by rw [hheld]; exact some_ne_none _))
  locked := by
    change (system.cache.buf b).holder.isSome = true
    rw [hheld]
    rfl

theorem Good.logWrite (hgood : Good system mru)
    (hheld : (system.cache.buf b).holder = some process) (data : Block) :
    Good (system.write b data (system.cache.logWrite b data)) mru := by
  obtain ⟨hcoherent, hcurrent, -⟩ :=
    BufferCache.pin_spec hgood.coherent (holds_of_held hgood hheld) data
  rw [← logWrite_device] at hcoherent hcurrent
  exact hgood.write (by rw [hheld]; exact some_ne_none _) hcoherent hcurrent rfl
    (fun _ => update_apply ..) ⟨rfl, rfl, rfl, rfl⟩

theorem bwrite_cases (hbwrite : cache.bwrite disksize b data = some cache') :
    cache'.links = cache.links ∧ ∀ c, cache'.buf c = if c = b then
      { cache.buf b with data, dirty := false, valid := true } else cache.buf c := by
  rw [Cache.bwrite, Cache.iderw, cache_set_self] at hbwrite
  simp only [Bool.true_eq_false, and_false, if_false, if_true] at hbwrite
  split_ifs at hbwrite
  cases hbwrite
  refine ⟨rfl, ?_⟩
  intro c
  by_cases hc : c = b
  · subst hc
    simp
  · simp [Cache.set, hc]

section

variable (hgood : Good system mru)

include hgood

theorem Good.bwrite (hheld : (system.cache.buf b).holder = some process)
    (hbwrite : system.cache.bwrite disksize b data = some cache') :
    Good (system.write b data cache') mru := by
  have hwritten := BufferCache.bwrite_written hgood.coherent (holds_of_held hgood hheld) data
  rw [← bwrite_device hbwrite] at hwritten
  obtain ⟨hlinks, hbufs⟩ := bwrite_cases hbwrite
  exact hgood.write (by rw [hheld]; exact some_ne_none _) hwritten.coherent
    hwritten.current hlinks hbufs ⟨rfl, rfl, rfl, rfl⟩

theorem Good.release (hheld : (system.cache.buf b).holder = some process) :
    Good
      { system with
        cache := system.cache.release b
        leaving := (process, b) :: system.leaving } mru := by
  have hok := hgood.coherent.ok b
  have hdev : (system.cache.buf b).dev = rootdev :=
    hgood.held b (by rw [hheld]; exact some_ne_none _)
  have hquiet : Quiet (device system.cache mru) (device (system.cache.release b) mru) := by
    rw [Cache.release, device_set]
    apply hgood.coherent.quiet_set
    · exact ⟨hok.clean, hok.dirty, by exact nofun⟩
    · exact fun c other => hgood.coherent.others b c other
    · rfl
    · exact fun _ => ⟨rfl, rfl⟩
  have hcounted := hgood.counted b
  rw [System.refs, if_neg (by rw [hheld]; exact some_ne_none _)] at hcounted
  refine hgood.edit (edits_set rfl) hquiet.coherent ?_ ?_ ?_ ?_ ?_ ?_
  · rw [← hgood.latest]
    exact funext hquiet.current
  · simp [System.refs, Cache.release]
    omega
  · intro c hc
    simp [System.refs, Cache.release, cache_set_of_ne _ hc, Ne.symm hc]
  · exact fun _ hwait _ => hwait
  · intro wait hwait hb
    have hwanted := hgood.wanted wait hwait
    rw [hb] at hwanted
    exact hwanted
  · exact fun _ => hdev

/-- The reference is given up, before the buffer is moved. -/
theorem Good.decrement [DecidableEq Process] (hleaving : (process, b) ∈ system.leaving) :
    Good
      { system with
        cache := system.cache.set b
          { system.cache.buf b with refcnt := (system.cache.buf b).refcnt - 1 }
        leaving := system.leaving.erase (process, b) } mru := by
  have hok := hgood.coherent.ok b
  have hcounted := hgood.counted b
  have hpos : 0 < system.leaving.countP (·.2 = b) :=
    countP_pos_iff.2 ⟨(process, b), hleaving, decide_eq_true rfl⟩
  rw [System.refs] at hcounted
  have hquiet : Quiet (device system.cache mru) (device (system.cache.set b
      { system.cache.buf b with refcnt := (system.cache.buf b).refcnt - 1 }) mru) := by
    rw [device_set]
    apply hgood.coherent.quiet_set
    · refine ⟨hok.clean, hok.dirty, ?_⟩
      intro hlocked
      refine ⟨(hok.held hlocked).1, ?_⟩
      have hheld : (system.cache.buf b).holder ≠ none := isSome_iff_ne_none.1 hlocked
      rw [if_neg hheld] at hcounted
      change 0 < (system.cache.buf b).refcnt - 1
      omega
    · exact fun c other => hgood.coherent.others b c other
    · rfl
    · exact fun _ => ⟨rfl, rfl⟩
  refine hgood.edit (edits_set rfl) hquiet.coherent ?_ ?_ ?_ ?_ ?_ ?_
  · rw [← hgood.latest]
    exact funext hquiet.current
  · simp [System.refs, countP_erase, hleaving]
    omega
  · intro c hc
    simp [System.refs, cache_set_of_ne _ hc, countP_erase, Ne.symm hc]
  · exact fun _ hwait _ => hwait
  · intro wait hwait hb
    have hwanted := hgood.wanted wait hwait
    rw [hb] at hwanted
    exact hwanted
  · exact fun hheld => hgood.held b hheld

/-- The buffer moves to the front of the list. -/
theorem Good.move (b : BufId) :
    Good
      { system with
        cache :=
          { system.cache with
            links := (system.cache.links.unlink b).pushFront b } }
      (b :: mru.erase b) := by
  have hall : ∀ c, c ∈ b :: mru.erase b := by
    intro c
    by_cases hc : c = b
    · rw [hc]
      exact .head _
    · exact .tail _ ((mem_erase_of_ne hc).2 (hgood.sorted.all c))
  have hquiet := hgood.coherent.quiet_mru (b :: mru.erase b) hall
  refine ⟨⟨hgood.sorted.lists.moveFront (hgood.sorted.all b), hall⟩, hquiet.coherent, ?_,
    hgood.counted, hgood.wanted, hgood.held⟩
  rw [← hgood.latest]
  exact funext hquiet.current

theorem Good.drop [DecidableEq Process] (hleaving : (process, b) ∈ system.leaving) :
    ∃ mru', Good
      { system with
        cache := system.cache.drop b
        leaving := system.leaving.erase (process, b) } mru' := by
  have hless := hgood.decrement hleaving
  rw [Cache.drop]
  split_ifs
  · exact ⟨_, hless.move b⟩
  · exact ⟨mru, hless⟩

theorem Good.step [DecidableEq Process]
    (hstep : step disksize system action = some system') : ∃ mru', Good system' mru' := by
  cases action with
  | bget process blockno =>
    obtain ⟨⟨cache, b⟩, hbget, rfl⟩ := map_eq_some_iff.1 hstep
    exact ⟨mru, hgood.bget hbget⟩
  | lock wait =>
    obtain ⟨hwait, hrest⟩ := ite_none_right_eq_some.1 hstep
    obtain ⟨cache, hlock, rfl⟩ := map_eq_some_iff.1 hrest
    exact ⟨mru, (hgood.lock hwait hlock).1⟩
  | bwrite process b data =>
    obtain ⟨hheld, hrest⟩ := ite_none_right_eq_some.1 hstep
    obtain ⟨cache, hbwrite, rfl⟩ := map_eq_some_iff.1 hrest
    exact ⟨mru, hgood.bwrite hheld hbwrite⟩
  | logWrite process b data =>
    obtain ⟨hheld, hlog⟩ := ite_none_right_eq_some.1 hstep
    cases hlog
    exact ⟨mru, hgood.logWrite hheld data⟩
  | release process b =>
    obtain ⟨hheld, hrelease⟩ := ite_none_right_eq_some.1 hstep
    cases hrelease
    exact ⟨mru, hgood.release hheld⟩
  | drop process b =>
    obtain ⟨hleaving, hdrop⟩ := ite_none_right_eq_some.1 hstep
    cases hdrop
    exact hgood.drop hleaving

end

theorem good_start (disk : ℕ → Block) (links : Links BufId) :
    Good (start disk links : System Process) (finRange nbuf).reverse := by
  have hnodup : (finRange nbuf ++ []).Nodup := by
    exact nodup_finRange nbuf
  have hlists := (lists_clear links).pushFront_all hnodup
  have hall : ∀ b : BufId, b ∈ (finRange nbuf).reverse := fun b =>
    mem_reverse.2 (mem_finRange b)
  have hempty : ∀ b : BufId, (view ((binit disk links : Cache Process).buf b)).blockno = none :=
    fun _ => rfl
  have hcoherent : Coherent (device (binit disk links : Cache Process)
      (finRange nbuf).reverse) := by
    refine ⟨hall, ?_, ?_⟩
    · intro b c blockno hb
      cases (hempty b).symm.trans hb
    · intro b
      refine ⟨?_, by exact nofun, by exact nofun⟩
      intro blockno hb
      cases (hempty b).symm.trans hb
  refine ⟨⟨hlists, hall⟩, hcoherent, ?_, fun _ => rfl, nofun, fun _ hheld => absurd rfl hheld⟩
  funext blockno
  apply hcoherent.current_clean
  rintro ⟨b, hb, -⟩
  cases (hempty b).symm.trans hb

theorem Reachable.good [DecidableEq Process] {disk : ℕ → Block} {links : Links BufId}
    (hreachable : Reachable disksize disk links system) : ∃ mru, Good system mru := by
  induction hreachable with
  | refl => exact ⟨_, good_start disk links⟩
  | tail _ hlast ih =>
    obtain ⟨mru, hgood⟩ := ih
    obtain ⟨action, hstep⟩ := hlast
    exact hgood.step hstep

/-- A buffer that is referenced or dirty keeps its block. -/
theorem step_keeps_block [DecidableEq Process] (hstep : step disksize system action = some system')
    (hbusy : 0 < (system.cache.buf b).refcnt ∨ (system.cache.buf b).dirty = true)
    (hdirty : ∀ c, (system.cache.buf c).dirty = true → (system.cache.buf c).valid = true) :
    (system'.cache.buf b).dev = (system.cache.buf b).dev ∧
      (system'.cache.buf b).blockno = (system.cache.buf b).blockno := by
  have hset : ∀ (c : BufId) (buffer : Buffer Process),
      (c = b → buffer.dev = (system.cache.buf b).dev ∧
        buffer.blockno = (system.cache.buf b).blockno) →
      ((system.cache.set c buffer).buf b).dev = (system.cache.buf b).dev ∧
        ((system.cache.set c buffer).buf b).blockno = (system.cache.buf b).blockno := by
    intro c buffer hsame
    by_cases hc : b = c
    · subst hc
      rw [cache_set_self]
      exact hsame rfl
    · rw [cache_set_of_ne _ hc]
      exact ⟨rfl, rfl⟩
  cases action with
  | bget process blockno =>
    obtain ⟨⟨cache, c⟩, hbget, rfl⟩ := map_eq_some_iff.1 hstep
    obtain ⟨-, -, rfl⟩ | ⟨hrefcnt, hclean, rfl⟩ := bget_cases hbget
    · apply hset
      rintro rfl
      exact ⟨rfl, rfl⟩
    · apply hset
      rintro rfl
      rw [hrefcnt, hclean] at hbusy
      simp at hbusy
  | lock wait =>
    obtain ⟨hwait, hrest⟩ := ite_none_right_eq_some.1 hstep
    obtain ⟨cache, hlock, rfl⟩ := map_eq_some_iff.1 hrest
    obtain ⟨-, data, rfl⟩ := lock_cases (hdirty wait.b) hlock
    apply hset
    rintro rfl
    exact ⟨rfl, rfl⟩
  | bwrite process c data =>
    obtain ⟨hheld, hrest⟩ := ite_none_right_eq_some.1 hstep
    obtain ⟨cache, hbwrite, rfl⟩ := map_eq_some_iff.1 hrest
    have hbufs := (bwrite_cases hbwrite).2 b
    rw [System.write]
    rw [hbufs]
    split_ifs with hc
    · rw [hc]
      exact ⟨rfl, rfl⟩
    · exact ⟨rfl, rfl⟩
  | logWrite process c data =>
    obtain ⟨hheld, hlog⟩ := ite_none_right_eq_some.1 hstep
    cases hlog
    apply hset
    rintro rfl
    exact ⟨rfl, rfl⟩
  | release process c =>
    obtain ⟨hheld, hrelease⟩ := ite_none_right_eq_some.1 hstep
    cases hrelease
    apply hset
    rintro rfl
    exact ⟨rfl, rfl⟩
  | drop process c =>
    obtain ⟨hleaving, hdrop⟩ := ite_none_right_eq_some.1 hstep
    cases hdrop
    rw [Cache.drop]
    split_ifs <;> apply hset <;> rintro rfl <;> exact ⟨rfl, rfl⟩

end Steps

/-- In every run the links lead through every buffer once and are inverse, no two buffers
hold the same block of the disk, a buffer that is referenced or dirty is not reassigned,
and a process that has read a block holds a buffer with the last data written to it. -/
theorem buffers_are_coherent [DecidableEq Process] {disksize : ℕ} {disk : ℕ → Block}
    {links : Links BufId} {system : System Process}
    (hreachable : Reachable disksize disk links system) :
    (∃ mru, system.cache.links.Lists mru ∧ mru.Perm (finRange nbuf)) ∧
      (∀ node, system.cache.links.prev (system.cache.links.next node) = node ∧
        system.cache.links.next (system.cache.links.prev node) = node) ∧
      (∀ b c, (system.cache.buf b).dev = rootdev → (system.cache.buf c).dev = rootdev →
        (system.cache.buf b).blockno = (system.cache.buf c).blockno → b = c) ∧
      (∀ action system', step disksize system action = some system' → ∀ b,
        0 < (system.cache.buf b).refcnt ∨ (system.cache.buf b).dirty = true →
          (system'.cache.buf b).dev = (system.cache.buf b).dev ∧
            (system'.cache.buf b).blockno = (system.cache.buf b).blockno) ∧
      ∀ wait system', step disksize system (.lock wait) = some system' →
        (system'.cache.buf wait.b).holder = some wait.process ∧
          (system'.cache.buf wait.b).dev = rootdev ∧
          (system'.cache.buf wait.b).blockno = wait.blockno ∧
          (system'.cache.buf wait.b).data = system.latest wait.blockno := by
  obtain ⟨mru, hgood⟩ := hreachable.good
  refine ⟨⟨mru, hgood.sorted.lists, ?_⟩, ?_, ?_, ?_, ?_⟩
  · rw [perm_ext_iff_of_nodup hgood.sorted.lists.nodup (nodup_finRange nbuf)]
    exact fun b => iff_of_true (hgood.sorted.all b) (mem_finRange b)
  · exact hgood.sorted.lists.inverse hgood.sorted.all
  · intro b c hb hc hsame
    exact hgood.coherent.unique b c (system.cache.buf c).blockno
      (view_blockno.2 ⟨hb, hsame⟩) (view_of_root hc)
  · intro action system' hstep b hbusy
    exact step_keeps_block hstep hbusy fun c => (hgood.coherent.ok c).dirty
  · intro wait system' hstep
    obtain ⟨hwait, hrest⟩ := ite_none_right_eq_some.1 hstep
    obtain ⟨cache, hlock, rfl⟩ := map_eq_some_iff.1 hrest
    exact (hgood.lock hwait hlock).2

/-- The first process writes to block 5 through the log, then the second one asks for the
block. -/
def pinRun : List (Action (Fin 2)) :=
  [.bget 0 5, .lock ⟨0, 5, 0⟩, .logWrite 0 0 (fun _ => 7), .release 0 0, .drop 0 0, .bget 1 5]

theorem pinRun_reads_written : ∃ system system' : System (Fin 2),
    Reachable 10 (fun _ _ => 0) ⟨fun _ => none, fun _ => none⟩ system ∧
      step 10 system (.lock ⟨1, 5, 0⟩) = some system' ∧ (system'.cache.buf 0).data 0 = 7 := by
  have hends : ∃ system ∈ pinRun.foldlM (step 10)
      (start (fun _ _ => 0) ⟨fun _ => none, fun _ => none⟩),
      (step 10 system (.lock ⟨1, 5, 0⟩)).isSome ∧ system.latest 5 0 = 7 := by
    decide +kernel
  obtain ⟨system, hrun, hlock, hlatest⟩ := hends
  obtain ⟨system', hstep⟩ := isSome_iff_exists.1 hlock
  have hreachable : Reachable 10 (fun _ _ => 0) ⟨fun _ => none, fun _ => none⟩ system :=
    Runs.reflTransGen_of_foldlM hrun
  obtain ⟨-, -, -, hdata⟩ := (buffers_are_coherent hreachable).2.2.2.2 ⟨1, 5, 0⟩ system' hstep
  refine ⟨system, system', hreachable, hstep, ?_⟩
  rw [hdata, hlatest]

end Xv6Users.BufferRuns
