import Xv6Users.Kernel.DiskLog

/-!
# Crash atomicity of the log

A run of the file system: processes read, change and log blocks, the last
operation to end commits, and a crash at any point leaves only the disk, from
which `recover_from_log` starts again.  The run is shown to simulate the redo
log of the library: after a completed recovery the home blocks hold the
transactions whose header reached the disk.
-/

namespace Xv6Users.CrashRecovery

open BufferCache DiskLog RedoLog Function List Option

/-- `phase` is where the process that commits or recovers is. -/
structure State where
  dev : Device
  log : Log
  phase : Phase

def boot (disk : ℕ → Block) : State :=
  ⟨binit disk, ⟨0, false, []⟩, .crashed⟩

/-- What processes do with blocks and operations, the iterations of commit and
recovery, and crashes. -/
inductive Action where
  | beginOp
  | claim (blockno : ℕ)
  | lock (blockno : ℕ)
  | write (blockno : ℕ) (data : Block)
  | release (blockno : ℕ)
  | endOp
  | logBlock
  | writeHead
  | installBlock
  | clearHead
  | crash
  | readHead

/-- A header that is written makes a transaction permanent. -/
def Action.event : Action → Event ℕ Block
  | .write blockno data => .store blockno data
  | .writeHead => .commit
  | .crash => .crash
  | _ => .silent

def held (layout : Layout) (state : State) (blockno : ℕ) : Option BufId :=
  (cached state.dev blockno).filter fun i =>
    (state.dev.buf i).locked ∧ layout.IsHome blockno

def claimed (layout : Layout) (state : State) (blockno : ℕ) : Option BufId :=
  (cached state.dev blockno).filter fun i =>
    0 < (state.dev.buf i).refcnt ∧ layout.IsHome blockno

/-- `none` where the action is not possible or panics.  No process is in an
operation before recovery is complete or while a commit runs. -/
def step (layout : Layout) (state : State) : Action → Option State
  | .beginOp =>
    if state.phase = .running then
      (DiskLog.beginOp state.log).map fun log => { state with log }
    else none
  | .claim blockno =>
    if layout.IsHome blockno then
      (bget state.dev blockno).map fun result => { state with dev := result.1 }
    else none
  | .lock blockno => do
    let i ← claimed layout state blockno
    let dev ← lockBuf state.dev i
    some { state with dev }
  | .write blockno data => do
    let i ← held layout state blockno
    let log ← (logWrite layout.size state.log blockno).toOption
    some { state with log, dev := pin (setData state.dev i data) i }
  | .release blockno => do
    let i ← held layout state blockno
    some { state with dev := brelse state.dev i }
  | .endOp =>
    if 0 < state.log.outstanding then do
      let (log, doCommit) ← (DiskLog.endOp state.log).toOption
      some (if doCommit = true then
        if log.lh.length > 0 then { state with log, phase := .logging 0 }
        else { state with log := { log with committing := false } }
      else { state with log })
    else none
  | .logBlock =>
    match state.phase with
    | .logging tail => do
      let blockno ← state.log.lh[tail]?
      let dev ← writeLogBlock layout tail blockno state.dev
      some { state with dev, phase := .logging (tail + 1) }
    | _ => none
  | .writeHead =>
    if state.phase = .logging state.log.lh.length then do
      let dev ← DiskLog.writeHead layout state.log.lh state.dev
      some { state with dev, phase := .installing 0 }
    else none
  | .installBlock =>
    match state.phase with
    | .installing tail => do
      let blockno ← state.log.lh[tail]?
      let dev ← DiskLog.installBlock layout tail blockno state.dev
      some { state with dev, phase := .installing (tail + 1) }
    | _ => none
  | .clearHead =>
    if state.phase = .installing state.log.lh.length then do
      let dev ← DiskLog.writeHead layout [] state.dev
      some ⟨dev, { state.log with lh := [], committing := false }, .running⟩
    else none
  | .crash => some (boot state.dev.disk)
  | .readHead =>
    if state.phase = .crashed then do
      let (dev, lh) ← DiskLog.readHead layout state.dev
      some ⟨dev, { state.log with lh }, .installing 0⟩
    else none

def run (layout : Layout) : List Action → State → Option State
  | [], state => some state
  | action :: rest, state => (step layout state action).bind (run layout rest)

/-- Contents of the home blocks; the rest is blanked out. -/
def atHome (layout : Layout) (contents : ℕ → Block) (blockno : ℕ) : Block :=
  if layout.IsHome blockno then contents blockno else fun _ => 0

def slotsOf (layout : Layout) (disk : ℕ → Block) (tail : ℕ) : Block :=
  if tail + 1 < layout.size then disk (layout.start + tail + 1) else fun _ => 0

def view (layout : Layout) (state : State) : Machine ℕ Block where
  home := atHome layout state.dev.disk
  slots := slotsOf layout state.dev.disk
  header := getHeader (state.dev.disk layout.start)
  names := state.log.lh
  data := atHome layout (current state.dev)
  phase := state.phase

/-- A header for this log: home blocks, one slot for each. -/
structure Listed (layout : Layout) (blocks : List ℕ) : Prop where
  home : ∀ blockno ∈ blocks, layout.IsHome blockno
  fits : blocks.length + 1 ≤ layout.size

def installed : Phase → ℕ
  | .installing tail => tail
  | _ => 0

/-- The cache is coherent, both headers are for this log, operations only run
when no commit does, and every dirty block is logged and not yet installed. -/
structure Sound (layout : Layout) (state : State) : Prop where
  coherent : Coherent state.dev
  header : Listed layout (getHeader (state.dev.disk layout.start))
  names : Listed layout state.log.lh
  idle : 0 < state.log.outstanding → state.phase = .running
  crashed : state.phase = .crashed → state.log.lh = []
  dirty : ∀ blockno, Dirty state.dev blockno → blockno ∈ state.log.lh.drop (installed state.phase)

section Views

variable {layout : Layout} {state state' : State} {dev : Device}
  {contents : ℕ → Block} {data : Block} {blockno tail : ℕ}

theorem not_isHome_of_lt (hlt : tail < layout.size) : ¬ layout.IsHome (layout.start + tail) := by
  unfold Layout.IsHome
  omega

theorem not_isHome_slot (htail : tail + 1 < layout.size) :
    ¬ layout.IsHome (layout.start + tail + 1) := not_isHome_of_lt htail

theorem atHome_update_home (hhome : layout.IsHome blockno) :
    atHome layout (update contents blockno data) =
      update (atHome layout contents) blockno data := by
  funext other
  by_cases hsame : other = blockno
  · rw [hsame, update_self, atHome, if_pos hhome, update_self]
  · simp only [atHome, update_of_ne hsame]

theorem atHome_update_log (hhome : ¬ layout.IsHome blockno) :
    atHome layout (update contents blockno data) = atHome layout contents := by
  funext other
  by_cases hsame : other = blockno
  · rw [hsame, atHome, atHome, if_neg hhome, if_neg hhome]
  · simp only [atHome, update_of_ne hsame]

theorem slotsOf_update_slot (htail : tail + 1 < layout.size) :
    slotsOf layout (update contents (layout.start + tail + 1) data) =
      update (slotsOf layout contents) tail data := by
  funext other
  by_cases hsame : other = tail
  · rw [hsame, update_self, slotsOf, if_pos htail, update_self]
  · have hne : layout.start + other + 1 ≠ layout.start + tail + 1 := by omega
    simp only [slotsOf, update_of_ne hsame, update_of_ne hne]

theorem slotsOf_update_other (hother : layout.IsHome blockno ∨ blockno = layout.start) :
    slotsOf layout (update contents blockno data) = slotsOf layout contents := by
  funext tail
  unfold slotsOf
  split
  case isTrue htail =>
    have hne : layout.start + tail + 1 ≠ blockno := by
      unfold Layout.IsHome at hother
      omega
    exact update_of_ne hne ..
  case isFalse => rfl

theorem start_ne (hhome : layout.IsHome blockno) : layout.start ≠ blockno := by
  rintro rfl
  exact not_isHome_of_lt layout.size_pos (by simpa using hhome)

/-- The log area is never dirty, so readers see the disk there. -/
theorem Sound.current_log (hsound : Sound layout state) (hlog : ¬ layout.IsHome blockno) :
    current state.dev blockno = state.dev.disk blockno := by
  apply hsound.coherent.current_clean
  intro hdirty
  apply hlog
  apply hsound.names.home
  exact mem_of_mem_drop (hsound.dirty blockno hdirty)

theorem Sound.quiet (hsound : Sound layout state) (hquiet : Quiet state.dev dev) :
    Sound layout { state with dev } where
  coherent := hquiet.coherent
  header := by
    rw [hquiet.disk]
    exact hsound.header
  names := hsound.names
  idle := hsound.idle
  crashed := hsound.crashed
  dirty blockno hdirty := hsound.dirty blockno (hquiet.dirty blockno hdirty)

theorem view_quiet (hquiet : Quiet state.dev dev) :
    view layout { state with dev } = view layout state := by
  have hcurrent : current dev = current state.dev := funext hquiet.current
  simp only [view, hquiet.disk, hcurrent]

end Views

/-! ## Every step is a step of the redo log -/

/-- The step keeps the state sound and is seen in the redo log. -/
structure Simulates (layout : Layout) (state : State) (action : Action)
    (state' : State) : Prop where
  sound : Sound layout state'
  step : RedoLog.Step (view layout state) action.event (view layout state')

variable {disk : ℕ → Block}

section Steps

variable {layout : Layout} {state state' : State} {action : Action} {dev : Device}
  {data : Block} {blockno tail : ℕ}

theorem Sound.simulates_quiet (hsound : Sound layout state)
    (hquiet : Quiet state.dev dev) (hevent : action.event = .silent) :
    Simulates layout state action { state with dev } := by
  refine ⟨hsound.quiet hquiet, ?_⟩
  rw [view_quiet hquiet, hevent]
  exact .silent

theorem held_spec {i : BufId} (hheld : held layout state blockno = some i) :
    Holds state.dev i blockno ∧ layout.IsHome blockno := by
  obtain ⟨hcached, hlocked⟩ := filter_eq_some_iff.1 hheld
  simp only [decide_eq_true_eq] at hlocked
  exact ⟨⟨cached_blockno hcached, hlocked.1⟩, hlocked.2⟩

section

variable (hsound : Sound layout state)

include hsound

theorem simulates_lock (hstep : step layout state (.lock blockno) = some state') :
    Simulates layout state (.lock blockno) state' := by
  simp only [step, bind_eq_bind, bind_eq_some_iff, some.injEq] at hstep
  obtain ⟨i, hclaimed, dev, hlock, rfl⟩ := hstep
  obtain ⟨hcached, hcounted⟩ := filter_eq_some_iff.1 hclaimed
  simp only [decide_eq_true_eq] at hcounted
  exact hsound.simulates_quiet (lockBuf_quiet hsound.coherent hcounted.1
    (cached_blockno hcached) hlock).1 rfl

theorem simulates_write (hstep : step layout state (.write blockno data) = some state') :
    Simulates layout state (.write blockno data) state' := by
  simp only [step, bind_eq_bind, bind_eq_some_iff, some.injEq] at hstep
  obtain ⟨i, hheld, log, hlog, rfl⟩ := hstep
  obtain ⟨hholds, hhome⟩ := held_spec hheld
  unfold logWrite at hlog
  split at hlog
  case isTrue => cases hlog
  case isFalse hroom =>
    split at hlog
    case isTrue => cases hlog
    case isFalse hopen =>
      cases hlog
      have hrunning := hsound.idle (by omega)
      obtain ⟨hcoherent, hcurrent, hdirty⟩ := pin_spec hsound.coherent hholds data
      have hmem (other : ℕ) : other ∈ absorb state.log.lh blockno ↔
          other ∈ state.log.lh ∨ other = blockno := by
        rw [absorb_eq_addName, mem_addName]
      refine ⟨⟨hcoherent, hsound.header, ⟨fun other hother => ?_, ?_⟩, hsound.idle,
        fun hcrashed => ?_, fun other hother => ?_⟩, ?_⟩
      · rcases (hmem other).1 hother with hold | rfl
        · exact hsound.names.home other hold
        · exact hhome
      · have hlength := length_absorb state.log.lh blockno
        show (absorb state.log.lh blockno).length + 1 ≤ layout.size
        omega
      · rw [hrunning] at hcrashed
        cases hcrashed
      · have hnamed := hsound.dirty other
        simp only [hrunning, installed, drop_zero] at hnamed ⊢
        exact (hmem other).2 ((hdirty other hother).imp_left hnamed)
      · have hdata : current (pin (setData state.dev i data) i) =
            update (current state.dev) blockno data := funext hcurrent
        have hstore := @RedoLog.Step.store _ _ _ (view layout state) blockno data hrunning
        simp only [view, hdata, atHome_update_home hhome, absorb_eq_addName]
        exact hstore

theorem simulates_beginOp (hstep : step layout state .beginOp = some state') :
    Simulates layout state .beginOp state' := by
  simp only [step] at hstep
  split at hstep
  case isFalse => cases hstep
  case isTrue hrunning =>
    obtain ⟨log, hbegin, rfl⟩ := map_eq_some_iff.1 hstep
    have hlh : log.lh = state.log.lh := by
      unfold DiskLog.beginOp at hbegin
      split at hbegin
      · cases hbegin
      · split at hbegin
        · cases hbegin
        · cases hbegin
          rfl
    refine ⟨⟨hsound.coherent, hsound.header, ?_, fun _ => hrunning, ?_, ?_⟩, ?_⟩
    · exact hlh ▸ hsound.names
    · exact fun hcrashed => hlh.trans (hsound.crashed hcrashed)
    · exact fun blockno hdirty => hlh ▸ hsound.dirty blockno hdirty
    · simp only [view, hlh]
      exact .silent

/-- What the end of an operation leads to. -/
theorem step_endOp (hstep : step layout state .endOp = some state') :
    state.phase = .running ∧ state'.dev = state.dev ∧ state'.log.lh = state.log.lh ∧
      (state'.phase = .running ∨ state'.phase = .logging 0 ∧ state'.log.outstanding = 0) := by
  simp only [step] at hstep
  split at hstep
  case isFalse => cases hstep
  case isTrue hopen =>
    have hrunning := hsound.idle hopen
    refine ⟨hrunning, ?_⟩
    simp only [bind_eq_bind, bind_eq_some_iff, Prod.exists, some.injEq] at hstep
    obtain ⟨log, doCommit, hend, rfl⟩ := hstep
    simp only [DiskLog.endOp] at hend
    split at hend
    · cases hend
    · split at hend
      case isTrue hzero =>
        cases hend
        rw [if_pos rfl]
        split
        · exact ⟨rfl, rfl, .inr ⟨rfl, hzero⟩⟩
        · exact ⟨rfl, rfl, .inl hrunning⟩
      case isFalse =>
        cases hend
        exact ⟨rfl, rfl, .inl hrunning⟩

theorem simulates_endOp
    (hstep : step layout state .endOp = some state') : Simulates layout state .endOp state' := by
  obtain ⟨hrunning, hdev, hlh, hphase⟩ := step_endOp hsound hstep
  have hinstalled : installed state'.phase = installed state.phase := by
    rcases hphase with hphase | ⟨hphase, -⟩ <;> simp only [hphase, hrunning, installed]
  refine ⟨⟨?_, ?_, ?_, fun hopen => ?_, fun hcrashed => ?_, ?_⟩, ?_⟩
  · exact hdev ▸ hsound.coherent
  · exact hdev ▸ hsound.header
  · exact hlh ▸ hsound.names
  · rcases hphase with hphase | ⟨-, hzero⟩
    · exact hphase
    · omega
  · rcases hphase with hphase | ⟨hphase, -⟩ <;> cases hphase.symm.trans hcrashed
  · rw [hdev, hlh, hinstalled]
    exact hsound.dirty
  · rcases hphase with hphase | ⟨hphase, -⟩
    · have hview : view layout state' = view layout state := by
        simp only [view, hdev, hlh, hphase, hrunning]
      rw [hview]
      exact .silent
    · have hview : view layout state' =
          { view layout state with phase := .logging 0 } := by
        simp only [view, hdev, hlh, hphase]
      rw [hview]
      exact .start hrunning

/-- A disk write outside the home blocks keeps what is said of the home blocks. -/
theorem Sound.written_log
    (hwritten : Written state.dev dev blockno data) (hlog : ¬ layout.IsHome blockno) :
    atHome layout dev.disk = atHome layout state.dev.disk ∧
      atHome layout (current dev) = atHome layout (current state.dev) ∧
      ∀ other, Dirty dev other → other ∈ state.log.lh.drop (installed state.phase) := by
  refine ⟨?_, ?_, fun other hdirty => ?_⟩
  · rw [hwritten.disk, atHome_update_log hlog]
  · rw [funext hwritten.current, atHome_update_log hlog]
  · exact hsound.dirty other (hwritten.dirty other hdirty).1

theorem simulates_logBlock (hstep : step layout state .logBlock = some state') :
    Simulates layout state .logBlock state' := by
  simp only [step] at hstep
  split at hstep
  case h_2 => cases hstep
  case h_1 tail hphase =>
    simp only [bind_eq_bind, bind_eq_some_iff, some.injEq] at hstep
    obtain ⟨blockno, hblock, dev, hwrite, rfl⟩ := hstep
    have htail : tail + 1 < layout.size := by
      have hlt := (List.getElem?_eq_some_iff.1 hblock).1
      have hfits := hsound.names.fits
      omega
    have hhome := hsound.names.home blockno (mem_of_getElem? hblock)
    have hwritten := writeLogBlock_written hsound.coherent hwrite
    have hslot := not_isHome_slot htail
    obtain ⟨hdisk, hcurrent, hdirty⟩ := hsound.written_log hwritten hslot
    have hstart : dev.disk layout.start = state.dev.disk layout.start := by
      rw [hwritten.disk]
      exact update_of_ne (by omega) ..
    refine ⟨⟨hwritten.coherent, ?_, hsound.names, fun hopen => ?_, nofun, ?_⟩, ?_⟩
    · exact hstart ▸ hsound.header
    · have hrunning := hsound.idle hopen
      rw [hphase] at hrunning
      cases hrunning
    · rw [hphase] at hdirty
      exact hdirty
    · have hlogged := @RedoLog.Step.log _ _ _ (view layout state) tail blockno hphase hblock
      simp only [view, atHome, if_pos hhome] at hlogged
      simp only [view, hdisk, hcurrent, hstart]
      rw [hwritten.disk, slotsOf_update_slot htail]
      exact hlogged

end

theorem not_isHome_start : ¬ layout.IsHome layout.start :=
  not_isHome_of_lt layout.size_pos

theorem getHeader_written {lh : List ℕ}
    (hwritten : Written state.dev dev layout.start (putHeader lh data)) :
    getHeader (dev.disk layout.start) = lh := by
  rw [hwritten.disk, update_self, getHeader_putHeader]

theorem slotsOf_written_start (hwritten : Written state.dev dev layout.start data) :
    slotsOf layout dev.disk = slotsOf layout state.dev.disk := by
  rw [hwritten.disk, slotsOf_update_other (.inr rfl)]

theorem simulates_writeHead (hsound : Sound layout state)
    (hstep : step layout state .writeHead = some state') :
    Simulates layout state .writeHead state' := by
  simp only [step] at hstep
  split at hstep
  case isFalse => cases hstep
  case isTrue hphase =>
    simp only [bind_eq_bind, bind_eq_some_iff, some.injEq] at hstep
    obtain ⟨dev, hwrite, rfl⟩ := hstep
    have hwritten := writeHead_written hsound.coherent hwrite
    obtain ⟨hdisk, hcurrent, hdirty⟩ := hsound.written_log hwritten not_isHome_start
    refine ⟨⟨hwritten.coherent, ?_, hsound.names, fun hopen => ?_, nofun, ?_⟩, ?_⟩
    · rw [getHeader_written hwritten]
      exact hsound.names
    · cases hphase.symm.trans (hsound.idle hopen)
    · rw [hphase] at hdirty
      exact hdirty
    · have hcommit := @RedoLog.Step.commit _ _ _ (view layout state) hphase
      simp only [view, hdisk, hcurrent, getHeader_written hwritten, slotsOf_written_start hwritten]
      exact hcommit

theorem simulates_installBlock (hsound : Sound layout state)
    (hstep : step layout state .installBlock = some state') :
    Simulates layout state .installBlock state' := by
  simp only [step] at hstep
  split at hstep
  case h_2 => cases hstep
  case h_1 tail hphase =>
    simp only [bind_eq_bind, bind_eq_some_iff, some.injEq] at hstep
    obtain ⟨blockno, hblock, dev, hwrite, rfl⟩ := hstep
    obtain ⟨hlt, hget⟩ := List.getElem?_eq_some_iff.1 hblock
    have htail : tail + 1 < layout.size := by
      have hfits := hsound.names.fits
      omega
    have hhome := hsound.names.home blockno (mem_of_getElem? hblock)
    have hwritten := installBlock_written hsound.coherent hwrite
    rw [hsound.current_log (not_isHome_slot htail)] at hwritten
    have hstart : dev.disk layout.start = state.dev.disk layout.start := by
      rw [hwritten.disk, update_of_ne (start_ne hhome)]
    refine ⟨⟨hwritten.coherent, ?_, hsound.names, fun hopen => ?_, nofun,
      fun other hother => ?_⟩, ?_⟩
    · exact hstart ▸ hsound.header
    · cases hphase.symm.trans (hsound.idle hopen)
    · -- the installed block is the first of those that were left
      obtain ⟨hdirty, hne⟩ := hwritten.dirty other hother
      have hleft := hsound.dirty other hdirty
      rw [hphase, installed, drop_eq_getElem_cons hlt, hget] at hleft
      exact (mem_cons.1 hleft).resolve_left hne
    · have hinstall := @RedoLog.Step.install _ _ _ (view layout state) tail blockno hphase hblock
      simp only [view, slotsOf, if_pos htail] at hinstall
      simp only [view, hstart, funext hwritten.current, hwritten.disk,
        slotsOf_update_other (.inl hhome), atHome_update_home hhome]
      exact hinstall

theorem simulates_clearHead (hsound : Sound layout state)
    (hstep : step layout state .clearHead = some state') :
    Simulates layout state .clearHead state' := by
  simp only [step] at hstep
  split at hstep
  case isFalse => cases hstep
  case isTrue hphase =>
    simp only [bind_eq_bind, bind_eq_some_iff, some.injEq] at hstep
    obtain ⟨dev, hwrite, rfl⟩ := hstep
    have hwritten := writeHead_written hsound.coherent hwrite
    obtain ⟨hdisk, hcurrent, hdirty⟩ := hsound.written_log hwritten not_isHome_start
    have hnone : Listed layout [] := ⟨by simp, layout.size_pos⟩
    refine ⟨⟨hwritten.coherent, ?_, hnone, fun _ => rfl, nofun, ?_⟩, ?_⟩
    · rw [getHeader_written hwritten]
      exact hnone
    · rw [hphase] at hdirty
      simpa [installed] using hdirty
    · have hclear := @RedoLog.Step.clear _ _ _ (view layout state) hphase
      simp only [view, hdisk, hcurrent, getHeader_written hwritten, slotsOf_written_start hwritten]
      exact hclear

theorem binit_coherent (disk : ℕ → Block) : Coherent (binit disk) where
  listed i := by simp [binit]
  unique i j blockno hi := by cases hi
  ok i := ⟨nofun, nofun, nofun⟩

theorem not_dirty_binit (disk : ℕ → Block) (blockno : ℕ) : ¬ Dirty (binit disk) blockno := by
  rintro ⟨i, hblock, -⟩
  cases hblock

theorem current_binit (disk : ℕ → Block) : current (binit disk) = disk := by
  funext blockno
  exact (binit_coherent disk).current_clean (not_dirty_binit disk blockno)

/-- A machine starts soundly from a disk whose header is for this log. -/
theorem sound_boot (hheader : Listed layout (getHeader (disk layout.start))) :
    Sound layout (boot disk) where
  coherent := binit_coherent disk
  header := hheader
  names := ⟨by simp [boot], layout.size_pos⟩
  idle hopen := absurd hopen (Nat.lt_irrefl 0)
  crashed _ := rfl
  dirty blockno hdirty := absurd hdirty (not_dirty_binit disk blockno)

theorem simulates_crash (hsound : Sound layout state)
    (hstep : step layout state .crash = some state') : Simulates layout state .crash state' := by
  cases hstep
  refine ⟨sound_boot hsound.header, ?_⟩
  have hcrash := @RedoLog.Step.crash _ _ _ (view layout state)
  exact hcrash

theorem simulates_readHead (hsound : Sound layout state)
    (hstep : step layout state .readHead = some state') :
    Simulates layout state .readHead state' := by
  simp only [step] at hstep
  split at hstep
  case isFalse => cases hstep
  case isTrue hphase =>
    simp only [bind_eq_bind, bind_eq_some_iff, Prod.exists, some.injEq] at hstep
    obtain ⟨dev, lh, hread, rfl⟩ := hstep
    obtain ⟨hquiet, hlh⟩ := readHead_quiet hsound.coherent hread
    rw [hsound.current_log not_isHome_start] at hlh
    have hquieted := hsound.quiet hquiet
    refine ⟨⟨hquiet.coherent, hquieted.header, ?_, fun hopen => ?_, nofun,
      fun blockno hdirty => ?_⟩, ?_⟩
    · exact hlh ▸ hsound.header
    · cases hphase.symm.trans (hsound.idle hopen)
    · have hnamed := hquieted.dirty blockno hdirty
      rw [hsound.crashed hphase, drop_nil] at hnamed
      cases hnamed
    · have hrecover := @RedoLog.Step.recover _ _ _ (view layout state) hphase
      have hview := @view_quiet layout state dev hquiet
      simp only [view, RedoLog.Machine.mk.injEq] at hview
      simp only [view, hview.1, hview.2.1, hview.2.2.1, hview.2.2.2.2.1, hlh]
      exact hrecover

theorem step_simulates (hsound : Sound layout state)
    (hstep : step layout state action = some state') : Simulates layout state action state' := by
  cases action with
  | beginOp => exact simulates_beginOp hsound hstep
  | claim blockno =>
    simp only [step] at hstep
    split at hstep
    case isFalse => cases hstep
    case isTrue =>
      obtain ⟨result, hbget, rfl⟩ := map_eq_some_iff.1 hstep
      exact hsound.simulates_quiet (bget_quiet hsound.coherent hbget) rfl
  | lock blockno => exact simulates_lock hsound hstep
  | write blockno data => exact simulates_write hsound hstep
  | release blockno =>
    simp only [step, bind_eq_bind, bind_eq_some_iff, some.injEq] at hstep
    obtain ⟨i, -, rfl⟩ := hstep
    exact hsound.simulates_quiet (brelse_quiet hsound.coherent i) rfl
  | endOp => exact simulates_endOp hsound hstep
  | logBlock => exact simulates_logBlock hsound hstep
  | writeHead => exact simulates_writeHead hsound hstep
  | installBlock => exact simulates_installBlock hsound hstep
  | clearHead => exact simulates_clearHead hsound hstep
  | crash => exact simulates_crash hsound hstep
  | readHead => exact simulates_readHead hsound hstep

/-- A whole run keeps the invariant of the redo log, for the history of its
events. -/
theorem run_invariant {initial : ℕ → Block} {history : History ℕ Block}
    (actions : List Action) (hsound : Sound layout state)
    (hinv : Invariant (history.contents initial) history.pending (view layout state))
    (hrun : run layout actions state = some state') :
    Invariant (((actions.map Action.event).foldl History.record history).contents initial)
      ((actions.map Action.event).foldl History.record history).pending
      (view layout state') := by
  induction actions generalizing state history with
  | nil =>
    cases hrun
    exact hinv
  | cons action rest ih =>
    obtain ⟨state₁, hstep, hrest⟩ := bind_eq_some_iff.1 hrun
    have hsimulates := step_simulates hsound hstep
    exact ih hsimulates.sound (hinv.step hsimulates.step) hrest

end Steps

theorem boot_invariant {layout : Layout} (hempty : getHeader (disk layout.start) = []) :
    Invariant (atHome layout disk) [] (view layout (boot disk)) := by
  refine ⟨rfl, ?_, ?_⟩
  · rfl
  · show Recoverable _ _ _ (getHeader (disk layout.start))
    rw [hempty]
    exact ⟨by simp, fun _ _ => rfl⟩

/-- From a formatted disk, whatever processes do and however often the machine
crashes: when recovery is complete the home blocks hold exactly the transactions
whose header was written, one after the other. -/
theorem recovered_contents (layout : Layout) (disk : ℕ → Block)
    (hempty : getHeader (disk layout.start) = []) (actions : List Action)
    (state : State) (hrun : run layout actions (boot disk) = some state)
    (hdone : state.phase = .running) (blockno : ℕ) (hhome : layout.IsHome blockno) :
    state.dev.disk blockno = (historyOf (actions.map Action.event)).contents disk blockno := by
  have hlisted : Listed layout (getHeader (disk layout.start)) := by
    rw [hempty]
    exact ⟨by simp, layout.size_pos⟩
  have hinv := @run_invariant layout (boot disk) state (atHome layout disk) ⟨[], []⟩
    actions (sound_boot hlisted) (boot_invariant hempty) hrun
  have hphase : (view layout state).phase = .running := hdone
  simp only [Invariant, hphase] at hinv
  have hblock := congrFun hinv.home blockno
  calc state.dev.disk blockno
      = atHome layout state.dev.disk blockno := (if_pos hhome).symm
    _ = (historyOf (actions.map Action.event)).contents (atHome layout disk) blockno := hblock
    _ = (historyOf (actions.map Action.event)).contents disk blockno :=
        History.contents_congr _ (if_pos hhome)

/-- A small log, a block that is logged, and crashes after the header is written
and again while it is installed. -/
def smallLog : Layout := ⟨2, 4, by decide⟩

def crashTwice : List Action :=
  [.readHead, .clearHead, .beginOp, .claim 9, .lock 9, .write 9 fun _ => 7,
    .release 9, .endOp, .logBlock, .writeHead, .crash, .readHead, .installBlock,
    .crash, .readHead, .installBlock, .clearHead]

theorem crash_twice_recovers :
    ∃ state, run smallLog crashTwice (boot fun _ _ => 0) = some state ∧
      state.phase = .running ∧
      state.dev.disk 9 = (historyOf (crashTwice.map Action.event)).contents (fun _ _ => 0) 9 := by
  obtain ⟨state, hrun⟩ := isSome_iff_exists.1
    (show (run smallLog crashTwice (boot fun _ _ => 0)).isSome by rfl)
  have hphase : (run smallLog crashTwice (boot fun _ _ => 0)).map State.phase =
      some .running := by rfl
  rw [hrun] at hphase
  have hdone : state.phase = .running := some.inj hphase
  exact ⟨state, hrun, hdone, recovered_contents smallLog (fun _ _ => 0) rfl crashTwice
    state hrun hdone 9 (by decide)⟩

end Xv6Users.CrashRecovery
