import Xv6Users.Kernel.OpenFileAccounts

/-!
# Steps of the calls that open and close files

Each step of `open`, `dup`, `close`, `pipe`, `fork` and `exit` keeps the accounts.
-/

namespace Xv6Users.OpenFiles

open Holders ReferenceCounts Function List
open Processes (Slot)
open Inodes (Fp Fd)
open Syscalls (fds)

variable {before : Control} {rf wf : Fp} {pipe : Option End} {rest : List Fd} {pipes : ℕ → Pipe}
  {fd0 : Fd}

section Steps

variable {state state' : State} {p : Slot} {f : Fp} {fd : Fd} {file : File}
  {control : Control} {ofile : Fd → Option Fp}

section

variable (hgood : Good state) (hlive : state.status p = .live)

include hgood hlive

/-- References move between the descriptors and the call of a process. -/
theorem Good.move
    (hclaims : ∀ f, holders (visible ofile control) f + (owns control).count f = claims state p f)
    (hpiped : Piped { state with
      control := update state.control p control, pipes := pipes })
    (hsettled : Settled state.files ofile control)
    (hforks : ∀ child rest, control ≠ .forking child rest) :
    Good { state with
      ofile := update state.ofile p ofile
      control := update state.control p control
      pipes := pipes } := by
  have hself : update state.ofile p ofile p = ofile := update_self ..
  have hcontrol : update state.control p control p = control := update_self ..
  apply hgood.acts hlive
  constructor
  · exact fun q hq => update_of_ne hq ..
  · exact fun q hq => update_of_ne hq ..
  · exact fun _ _ => rfl
  · exact fun _ => .inl rfl
  · intro f
    rw [claims.eq_def { state with
      ofile := update state.ofile p ofile
      control := update state.control p control
      pipes := pipes }]
    dsimp only
    rw [hself, hcontrol, hclaims]
  · exact hgood.clean
  · exact hpiped.same rfl rfl rfl rfl
  · dsimp only
    rw [hself, hcontrol]
    exact hsettled
  · exact fun _ => hlive
  · intro hfree
    rw [hlive] at hfree
    cases hfree
  · dsimp only
    rw [hcontrol]
    exact hforks

/-- No end of a pipe is closed. -/
theorem Good.shift
    (hclaims : ∀ f, holders (visible ofile control) f + (owns control).count f = claims state p f)
    (hpending : pending control = pending (state.control p))
    (hsettled : Settled state.files ofile control)
    (hforks : ∀ child rest, control ≠ .forking child rest) :
    Good { state with
      ofile := update state.ofile p ofile
      control := update state.control p control } :=
  hgood.move hlive hclaims (hgood.piped.goto hpending) hsettled hforks

/-- The call of a process goes on. -/
theorem Good.goto
    (hclaims : ∀ f, holders (visible (state.ofile p) control) f + (owns control).count f =
      claims state p f) (hpending : pending control = pending (state.control p))
    (hsettled : Settled state.files (state.ofile p) control)
    (hforks : ∀ child rest, control ≠ .forking child rest) : Good (state.goto p control) := by
  have hgoto := hgood.shift hlive hclaims hpending hsettled hforks
  rw [update_eq_self] at hgoto
  exact hgoto

/-- One file changes with the call of a process. -/
theorem Good.refile (htouch : (state.files f).ref = 0 ∨ 1 ≤ claims state p f)
    (hbalance : ∀ g, ((state.setFile f file).files g).ref + claims state p g =
      (state.files g).ref + (holders (visible (state.ofile p) control) g + (owns control).count g))
    (hclean : file.ref = 0 → file.type = .none)
    (hpiped : Piped ((state.setFile f file).goto p control))
    (hsettled : Settled (state.setFile f file).files (state.ofile p) control)
    (hforks : ∀ child rest, control ≠ .forking child rest) :
    Good ((state.setFile f file).goto p control) := by
  apply hgood.acts hlive
  constructor
  · exact fun q hq => goto_control_of_ne hq
  · exact fun _ _ => rfl
  · exact fun _ _ => rfl
  · intro g
    by_cases hg : g = f
    · rw [hg]
      exact .inr htouch
    · exact .inl (setFile_of_ne hg)
  · intro g
    rw [claims.eq_def ((state.setFile f file).goto p control), goto_control_self]
    exact hbalance g
  · intro g
    change ((state.setFile f file).files g).ref = 0 → ((state.setFile f file).files g).type = _
    by_cases hg : g = f
    · rw [hg, setFile_self]
      exact hclean
    · rw [setFile_of_ne hg]
      exact hgood.clean g
  · exact hpiped
  · rw [goto_control_self]
    exact hsettled
  · exact fun _ => hlive
  · intro hfree
    cases hlive.symm.trans hfree
  · rw [goto_control_self]
    exact hforks

end

theorem claims_eq (hcontrol : state.control p = control) (f : Fp) :
    claims state p f = holders (visible (state.ofile p) control) f + (owns control).count f := by
  rw [claims, hcontrol]

theorem freeFile_ref (hfree : freeFile state = some f) : (state.files f).ref = 0 := by
  simpa using find?_some hfree

theorem freeFd_ofile (hfree : freeFd state p = some fd) : state.ofile p fd = none := by
  simpa using find?_some hfree

theorem count_cons_file (f g : Fp) (rest : List Fp) :
    (f :: rest).count g = rest.count g + if f = g then 1 else 0 := by
  rw [count_cons]
  simp only [beq_iff_eq]

/-- A descriptor is set or cleared. -/
theorem holders_setFd (hfd : state.ofile p fd = none) (f g : Fp) :
    holders (update (state.ofile p) fd (some f)) g =
      holders (state.ofile p) g + if f = g then 1 else 0 := by
  have hupdate := holders_update (state.ofile p) fd (some f) g
  rw [hfd] at hupdate
  simpa using hupdate

theorem holders_clearFd (hfd : state.ofile p fd = some f) (g : Fp) :
    holders (update (state.ofile p) fd none) g + (if f = g then 1 else 0) =
      holders (state.ofile p) g := by
  have hupdate := holders_update (state.ofile p) fd none g
  rw [hfd] at hupdate
  simpa using hupdate

section

variable (hgood : Good state) (hlive : state.status p = .live)

include hgood hlive

/-- A call allocates a file. -/
theorem Good.filealloc (hcontrol : state.control p = before) (hfree : freeFile state = some f)
    (hpending : pending before = none) (hpending' : pending control = none)
    (hhidden : hidden before = none) (hhidden' : hidden control = none)
    (howns : ∀ g, (owns control).count g = (owns before).count g + if f = g then 1 else 0)
    (hsettled : ∀ files : Fp → File, (∀ g, g ≠ f → files g = state.files g) →
      (files f).Fresh → Settled files (state.ofile p) control)
    (hforks : ∀ child rest, control ≠ .forking child rest) :
    Good ((filealloc state f).goto p control) := by
  have href := freeFile_ref hfree
  have hvisible : visible (state.ofile p) control = visible (state.ofile p) before := by
    rw [visible, visible, hhidden, hhidden']
  apply hgood.refile hlive (.inl href)
  · intro g
    rw [claims_eq hcontrol, howns, hvisible]
    by_cases hg : g = f
    · subst hg
      rw [setFile_self, if_pos rfl, href]
      dsimp only
      omega
    · rw [setFile_of_ne hg, if_neg (Ne.symm hg)]
      omega
  · rintro ⟨⟩
  · apply Piped.goto
    · exact hgood.piped.setFile rfl
    · exact hpending'.trans (hpending.symm.trans (congrArg pending hcontrol.symm))
  · apply hsettled
    · exact fun g hg => setFile_of_ne hg
    · rw [setFile_self]
      exact ⟨rfl, hgood.clean f href⟩
  · exact hforks

theorem Good.openFile (hcontrol : state.control p = .idle) (hfree : freeFile state = some f) :
    Good ((OpenFiles.filealloc state f).goto p (.opening f)) := by
  apply hgood.filealloc hlive hcontrol hfree rfl rfl rfl rfl
  · exact fun g => count_cons_file f g []
  · exact fun _ _ hfresh => hfresh
  · exact nofun

theorem Good.pipeFirst (hcontrol : state.control p = .idle) (hfree : freeFile state = some f) :
    Good ((OpenFiles.filealloc state f).goto p (.halfPipe f)) := by
  apply hgood.filealloc hlive hcontrol hfree rfl rfl rfl rfl
  · exact fun g => count_cons_file f g []
  · exact fun _ _ hfresh => hfresh
  · exact nofun

theorem Good.pipeSecond
    (hcontrol : state.control p = .halfPipe rf) (hfree : freeFile state = some wf) :
    Good ((OpenFiles.filealloc state wf).goto p (.twoFiles rf wf)) := by
  have hsettled := hgood.settled p
  rw [hcontrol] at hsettled
  have hfirst : (state.files rf).Fresh := hsettled
  have hne : rf ≠ wf := by
    rintro rfl
    have href := freeFile_ref hfree
    rw [hfirst.ref] at href
    cases href
  apply hgood.filealloc hlive hcontrol hfree rfl rfl rfl rfl
  · intro g
    rw [owns, owns, count_cons_file, count_cons_file, count_cons_file, count_nil]
    omega
  · intro files hsame hfresh
    refine ⟨hne, ?_, hfresh⟩
    rw [hsame rf hne]
    exact hfirst
  · exact nofun

/-- A new descriptor takes over a reference of the call. -/
theorem Good.fdalloc (hcontrol : state.control p = before) (hfree : freeFd state p = some fd)
    (hpending : pending before = none) (hpending' : pending control = none)
    (hhidden : hidden before = none) (hhidden' : hidden control = none)
    (howns : ∀ g, (owns before).count g = (owns control).count g + if f = g then 1 else 0)
    (hsettled : Settled state.files (update (state.ofile p) fd (some f)) control)
    (hforks : ∀ child rest, control ≠ .forking child rest) :
    Good ((state.setFd p fd (some f)).goto p control) := by
  apply hgood.shift hlive
  · intro g
    rw [claims_eq hcontrol, howns, visible, visible, hhidden, hhidden']
    dsimp only
    rw [holders_setFd (freeFd_ofile hfree)]
    omega
  · rw [hpending', hcontrol, hpending]
  · exact hsettled
  · exact hforks

theorem Good.openFd (hcontrol : state.control p = .opening f) (hfree : freeFd state p = some fd) :
    Good ((state.setFd p fd (some f)).goto p (.naming fd f)) := by
  have hsettled := hgood.settled p
  rw [hcontrol] at hsettled
  apply hgood.fdalloc hlive hcontrol hfree rfl rfl rfl rfl
  · exact fun g => count_cons_file f g []
  · exact ⟨update_self .., hsettled⟩
  · exact nofun

theorem Good.pipeFd
    (hcontrol : state.control p = .piping rf wf) (hfree : freeFd state p = some fd) :
    Good ((state.setFd p fd (some rf)).goto p (.halfPiped fd rf wf)) := by
  apply hgood.fdalloc hlive hcontrol hfree rfl rfl rfl rfl
  · exact fun g => count_cons_file rf g [wf]
  · exact update_self ..
  · exact nofun

theorem Good.pipeDone
    (hcontrol : state.control p = .halfPiped fd0 rf wf) (hfree : freeFd state p = some fd) :
    Good ((state.setFd p fd (some wf)).goto p .idle) := by
  apply hgood.fdalloc hlive hcontrol hfree rfl rfl rfl rfl
  · exact fun g => count_cons_file wf g []
  · trivial
  · exact nofun

/-- Files of the call are to be closed. -/
theorem Good.abort (hcontrol : state.control p = before) (hpending : pending before = none)
    (hhidden : hidden before = none) : Good (state.goto p (.closing (owns before))) := by
  apply hgood.goto hlive
  · intro g
    rw [claims_eq hcontrol, visible, visible, hhidden]
    rfl
  · rw [hcontrol, hpending]
    rfl
  · trivial
  · rintro _ _ ⟨⟩

/-- A descriptor is cleared and its file is to be closed with those of the call. -/
theorem Good.clearFd (hcontrol : state.control p = before) (hfd : state.ofile p fd = some f)
    (hpending : pending before = none) (hhidden : hidden before = none) :
    Good ((state.setFd p fd none).goto p (.closing (f :: owns before))) := by
  apply hgood.shift hlive
  · intro g
    have hclear := holders_clearFd hfd g
    rw [claims_eq hcontrol, visible, visible, hhidden, owns, count_cons_file]
    dsimp only [hidden]
    omega
  · rw [hcontrol, hpending]
    rfl
  · trivial
  · rintro _ _ ⟨⟩

theorem Good.pipeUndo (hcontrol : state.control p = .halfPiped fd0 rf wf) :
    Good ((state.setFd p fd0 none).goto p (.closing [rf, wf])) := by
  have hsettled := hgood.settled p
  rw [hcontrol] at hsettled
  exact hgood.clearFd hlive hcontrol hsettled rfl rfl

theorem Good.openDone (hcontrol : state.control p = .naming fd f) (writable : Bool) :
    Good ((state.setFile f { state.files f with type := .inode, writable }).goto p .idle) := by
  have hsettled := hgood.settled p
  rw [hcontrol] at hsettled
  obtain ⟨hfd, href, htype⟩ := hsettled
  have hclaims : 1 ≤ claims state p f := by
    apply one_le_claims_of_fd hfd
    rw [hcontrol]
    rfl
  apply hgood.refile hlive (.inr hclaims)
  · intro g
    rw [claims_eq hcontrol]
    by_cases hg : g = f
    · rw [hg, setFile_self]
      rfl
    · rw [setFile_of_ne hg]
      rfl
  · intro hzero
    rw [href] at hzero
    cases hzero
  · apply Piped.goto
    · apply hgood.piped.setFile
      rw [endOf, endOf, htype]
    · rw [State.setFile, hcontrol]
      rfl
  · trivial
  · exact nofun

/-- `sys_dup` takes a descriptor for a file that the process has already. -/
theorem Good.dupFd
    (hcontrol : state.control p = .idle) {old : Fd} (hold : state.ofile p old = some f)
    (hfree : freeFd state p = some fd) :
    Good ((state.setFd p fd (some f)).goto p (.duplicating fd f)) := by
  have hne : old ≠ fd := by
    rintro rfl
    rw [freeFd_ofile hfree] at hold
    cases hold
  apply hgood.shift hlive
  · intro g
    rw [claims_eq hcontrol, visible, visible]
    dsimp only [hidden, owns]
    rw [update_idem, update_eq_self_iff.2 (freeFd_ofile hfree).symm]
  · rw [hcontrol]
    rfl
  · exact ⟨update_self .., old, hne, (update_of_ne hne ..).trans hold⟩
  · rintro _ _ ⟨⟩

theorem Good.dupCount (hcontrol : state.control p = .duplicating fd f) :
    Good ((state.setFile f { state.files f with ref := (state.files f).ref + 1 }).goto p
      .idle) := by
  have hsettled := hgood.settled p
  rw [hcontrol] at hsettled
  obtain ⟨hfd, other, hne, hother⟩ := hsettled
  have hclaims : 1 ≤ claims state p f := by
    rw [claims_eq hcontrol]
    apply le_add_right
    apply one_le_holders
    exact (update_of_ne hne ..).trans hother
  apply hgood.refile hlive (.inr hclaims)
  · intro g
    have hclear := holders_clearFd hfd g
    rw [claims_eq hcontrol, visible, visible]
    dsimp only [hidden, owns]
    by_cases hg : g = f
    · subst hg
      rw [if_pos rfl] at hclear
      rw [setFile_self]
      dsimp only
      omega
    · rw [if_neg (Ne.symm hg)] at hclear
      rw [setFile_of_ne hg]
      omega
  · rintro ⟨⟩
  · apply Piped.goto
    · exact hgood.piped.setFile rfl
    · rw [State.setFile, hcontrol]
      rfl
  · trivial
  · rintro _ _ ⟨⟩

/-- The reference of a process to a file is dropped by `fileclose`; `control` is where the
process goes with the end of a pipe that the file was. -/
theorem Good.fileclose (hcontrol : state.control p = before) (hclaims : 1 ≤ claims state p f)
    (hpending : pending before = none) (hclose : fileclose state f = some (state', pipe))
    (hpending' : pending control = pipe)
    (hbalance : ∀ g, claims state p g = holders (visible (state.ofile p) control) g +
      (owns control).count g + if f = g then 1 else 0)
    (hsettled : ∀ files, Settled files (state.ofile p) control)
    (hforks : ∀ child rest, control ≠ .forking child rest) : Good (state'.goto p control) := by
  have hidle : pending (state.control p) = none := by rw [hcontrol, hpending]
  rw [OpenFiles.fileclose] at hclose
  split_ifs at hclose with hzero hmore
  · cases hclose
    apply hgood.refile hlive (.inr hclaims)
    · intro g
      rw [hbalance]
      by_cases hg : g = f
      · subst hg
        rw [setFile_self, if_pos rfl]
        dsimp only
        omega
      · rw [setFile_of_ne hg, if_neg (Ne.symm hg)]
        omega
    · intro hnone
      dsimp only at hnone
      omega
    · apply Piped.goto
      · exact hgood.piped.setFile rfl
      · exact hpending'.trans hidle.symm
    · exact hsettled _
    · exact hforks
  · cases hclose
    apply hgood.refile hlive (.inr hclaims)
    · intro g
      rw [hbalance]
      by_cases hg : g = f
      · subst hg
        rw [setFile_self, if_pos rfl]
        dsimp only
        omega
      · rw [setFile_of_ne hg, if_neg (Ne.symm hg)]
        omega
    · exact fun _ => rfl
    · exact hgood.piped.drop hidle rfl hpending'
    · exact hsettled _
    · exact hforks

theorem Good.closeFile {rest : List Fp} (hcontrol : state.control p = .closing (f :: rest))
    (hclose : OpenFiles.fileclose state f = some (state', pipe))
    (hpending : pending control = pipe) (hhidden : hidden control = none)
    (howns : owns control = rest) (hsettled : ∀ files, Settled files (state.ofile p) control)
    (hforks : ∀ child rest, control ≠ .forking child rest) : Good (state'.goto p control) := by
  apply hgood.fileclose hlive hcontrol _ rfl hclose hpending
  · intro g
    rw [claims_eq hcontrol, howns, owns, count_cons_file, visible, visible, hhidden]
    dsimp only [hidden]
    omega
  · exact hsettled
  · exact hforks
  · apply one_le_claims_of_owns
    rw [hcontrol]
    exact .head _

/-- `exit` drops the reference of a descriptor. -/
theorem Good.exitFile
    (hcontrol : state.control p = .exiting (fd :: rest)) (hfd : state.ofile p fd = some f)
    (hclose : OpenFiles.fileclose state f = some (state', pipe)) :
    Good (state'.goto p (.clearing pipe fd rest)) := by
  have hsettled := hgood.settled p
  rw [hcontrol] at hsettled
  apply hgood.fileclose hlive hcontrol _ rfl hclose rfl
  · intro g
    have hclear := holders_clearFd hfd g
    rw [claims_eq hcontrol, visible, visible]
    dsimp only [hidden, owns]
    omega
  · exact fun _ => hsettled
  · rintro _ _ ⟨⟩
  · apply one_le_claims_of_fd hfd
    rw [hcontrol]
    rfl

theorem Good.closePipe
    {pipe : End} {rest : List Fp} (hcontrol : state.control p = .closingPipe pipe rest) :
    Good ((pipeclose state pipe).goto p (.closing rest)) := by
  have hclaims : ∀ g, holders (visible (state.ofile p) (.closing rest)) g +
      (owns (.closing rest)).count g = claims state p g := by
    intro g
    rw [claims_eq hcontrol]
    rfl
  have hpending : pending (state.control p) = some pipe := by
    rw [hcontrol]
    rfl
  have hmove := hgood.move hlive hclaims (hgood.piped.shut hpending rfl) trivial nofun
  rw [update_eq_self] at hmove
  exact hmove

/-- The descriptor that `exit` closed is cleared. -/
theorem Good.exitClear (hcontrol : state.control p = .clearing pipe fd rest)
    (hpiped : Piped { state with
      control := update state.control p (.exiting rest), pipes := pipes }) :
    Good (({ state with pipes := pipes }.setFd p fd none).goto p (.exiting rest)) := by
  have hsettled := hgood.settled p
  rw [hcontrol] at hsettled
  apply hgood.move hlive _ hpiped
  · intro other hother
    by_cases hfd : other = fd
    · rw [hfd]
      exact update_self ..
    · rw [update_of_ne hfd]
      apply hsettled
      rw [mem_cons]
      exact not_or.2 ⟨hfd, hother⟩
  · exact nofun
  · intro g
    rw [claims_eq hcontrol]
    rfl

theorem Good.exitSkip (hcontrol : state.control p = .exiting (fd :: rest))
    (hfd : state.ofile p fd = none) : Good (state.goto p (.exiting rest)) := by
  have hsettled := hgood.settled p
  rw [hcontrol] at hsettled
  apply hgood.goto hlive
  · intro g
    rw [claims_eq hcontrol]
    rfl
  · rw [hcontrol]
    rfl
  · intro other hother
    by_cases hsame : other = fd
    · rw [hsame]
      exact hfd
    · apply hsettled
      rw [mem_cons]
      exact not_or.2 ⟨hsame, hother⟩
  · exact nofun

theorem Good.exit (hcontrol : state.control p = .idle) : Good (state.goto p (.exiting fds)) := by
  apply hgood.goto hlive
  · intro g
    rw [claims_eq hcontrol]
    rfl
  · rw [hcontrol]
    rfl
  · exact fun fd hfd => absurd (mem_finRange fd) hfd
  · exact nofun

theorem Good.exitDone
    (hcontrol : state.control p = .exiting []) : Good ((state.setStatus p .free).goto p .idle) := by
  have hsettled := hgood.settled p
  rw [hcontrol] at hsettled
  apply hgood.acts hlive
  constructor
  · exact fun q hq => goto_control_of_ne hq
  · exact fun _ _ => rfl
  · exact fun q hq => update_of_ne hq ..
  · exact fun _ => .inl rfl
  · intro f
    rw [claims_eq hcontrol, claims_eq goto_control_self]
    rfl
  · exact hgood.clean
  · apply (hgood.piped.setStatus p .free).goto
    rw [State.setStatus, hcontrol]
    rfl
  · rw [goto_control_self]
    trivial
  · intro hbusy
    rw [goto_control_self] at hbusy
    exact absurd rfl hbusy
  · exact fun _ fd => hsettled fd not_mem_nil
  · rw [goto_control_self]
    exact nofun

end

theorem pipealloc_ref (state : State) (rf wf g : Fp) :
    ((pipealloc state rf wf).files g).ref = (state.files g).ref := by
  rw [pipealloc, State.setFile, State.setFile]
  dsimp only
  rw [update_apply, update_apply]
  split_ifs with hwrite hread
  · rw [hwrite]
  · rw [hread]
  · rfl

theorem pipealloc_of_ne (state : State) {g : Fp} (hread : g ≠ rf) (hwrite : g ≠ wf) :
    (pipealloc state rf wf).files g = state.files g :=
  (update_of_ne hwrite ..).trans (update_of_ne hread ..)

theorem Good.pipePage (hgood : Good state) (hlive : state.status p = .live)
    (hcontrol : state.control p = .twoFiles rf wf) :
    Good ((pipealloc state rf wf).goto p (.piping rf wf)) := by
  have hsettled := hgood.settled p
  rw [hcontrol] at hsettled
  obtain ⟨hne, hread, hwrite⟩ := hsettled
  have howns : ∀ g, g ∈ [rf, wf] → 1 ≤ claims state p g := by
    intro g hg
    apply one_le_claims_of_owns
    rw [hcontrol]
    exact hg
  apply hgood.acts hlive
  constructor
  · exact fun q hq => goto_control_of_ne hq
  · exact fun _ _ => rfl
  · exact fun _ _ => rfl
  · intro g
    by_cases hg : g ∈ [rf, wf]
    · exact .inr (.inr (howns g hg))
    · simp only [mem_cons, not_mem_nil, or_false, not_or] at hg
      exact .inl (pipealloc_of_ne state hg.1 hg.2)
  · intro g
    have href : (((pipealloc state rf wf).goto p (.piping rf wf)).files g).ref =
      (state.files g).ref := pipealloc_ref state rf wf g
    rw [href, claims_eq hcontrol, claims_eq goto_control_self]
    rfl
  · intro g hzero
    have hold : (state.files g).ref = 0 := (pipealloc_ref state rf wf g).symm.trans hzero
    have hother : ∀ f, (state.files f).Fresh → g ≠ f := by
      rintro f hfresh rfl
      rw [hfresh.ref] at hold
      cases hold
    calc (((pipealloc state rf wf).goto p (.piping rf wf)).files g).type
        = (state.files g).type :=
          congrArg _ (pipealloc_of_ne state (hother rf hread) (hother wf hwrite))
      _ = .none := hgood.clean g hold
  · apply Piped.goto
    · apply hgood.piped.alloc hne
      · rw [endOf, hread.type]
      · rw [endOf, hwrite.type]
    · rw [pipealloc, State.setFile, State.setFile, hcontrol]
      rfl
  · rw [goto_control_self]
    trivial
  · exact fun _ => hlive
  · intro hfree
    cases hlive.symm.trans hfree
  · rw [goto_control_self]
    rintro _ _ ⟨⟩

end Steps

section Children

variable {state state' : State} {p child : Slot} {f : Fp} {fd : Fd} {rest : List Fd}

/-- What one step of `fork` may do to the caller and the child. -/
structure Bears (state : State) (p child : Slot) (state' : State) : Prop where
  control : ∀ q, q ≠ p → state'.control q = state.control q
  ofile : ∀ q, q ≠ child → state'.ofile q = state.ofile q
  status : ∀ q, q ≠ child → state'.status q = state.status q
  touch : ∀ f, state'.files f = state.files f ∨ (state.files f).ref = 0 ∨ 1 ≤ claims state p f
  claims : claims state' p = claims state p
  balance : ∀ f, (state'.files f).ref + OpenFiles.claims state child f =
    (state.files f).ref + OpenFiles.claims state' child f
  clean : ∀ f, (state'.files f).ref = 0 → (state'.files f).type = .none
  piped : Piped state'
  settled : Settled state'.files (state'.ofile p) (state'.control p)
  idle : state.control child = .idle
  only : ∀ q rest, q ≠ p → state.control q ≠ .forking child rest
  taken : state'.status child ≠ .free
  forks : ∀ other rest, state'.control p = .forking other rest → other = child ∧
    state'.status child = .fresh ∧ rest.Nodup ∧ ∀ fd ∈ rest, state'.ofile child fd = none

section

variable (hgood : Good state)

include hgood

theorem Good.bears (hlive : state.status p = .live)
    (hbusy : child ≠ p) (hbears : Bears state p child state') : Good state' := by
  refine ⟨?_, hbears.clean, hbears.piped, ?_, ?_, ?_, ?_, ?_⟩
  · apply hgood.counted.change child
    · intro q hq
      by_cases hqp : q = p
      · rw [hqp]
        exact hbears.claims
      · funext f
        rw [OpenFiles.claims, OpenFiles.claims, hbears.control q hqp, hbears.ofile q hq]
    · exact hbears.balance
  · intro q
    by_cases hq : q = p
    · rw [hq]
      exact hbears.settled
    · apply hgood.settled_kept hq (hbears.control q hq) _ hbears.touch
      intro hidle
      apply hbears.ofile
      rintro rfl
      exact hidle hbears.idle
  · intro q hcalls
    by_cases hq : q = p
    · rw [hq, hbears.status p hbusy.symm]
      exact hlive
    · rw [hbears.control q hq] at hcalls
      have hchild : q ≠ child := by
        rintro rfl
        exact hcalls hbears.idle
      rw [hbears.status q hchild]
      exact hgood.live q hcalls
  · intro q hfree
    have hchild : q ≠ child := by
      rintro rfl
      exact hbears.taken hfree
    rw [hbears.status q hchild] at hfree
    rw [hbears.ofile q hchild]
    exact hgood.empty q hfree
  · intro q other rest hforking
    by_cases hq : q = p
    · rw [hq] at hforking
      obtain ⟨rfl, hforks⟩ := hbears.forks other rest hforking
      exact hforks
    · rw [hbears.control q hq] at hforking
      have hother : other ≠ child := by
        rintro rfl
        exact hbears.only q rest hq hforking
      rw [hbears.status other hother, hbears.ofile other hother]
      exact hgood.forks q other rest hforking
  · intro q r other left right hleft hright
    by_cases hq : q = p
    · by_cases hr : r = p
      · exact hq.trans hr.symm
      · rw [hq] at hleft
        rw [hbears.control r hr] at hright
        obtain ⟨rfl, -⟩ := hbears.forks other left hleft
        exact absurd hright (hbears.only r right hr)
    · rw [hbears.control q hq] at hleft
      by_cases hr : r = p
      · rw [hr] at hright
        obtain ⟨rfl, -⟩ := hbears.forks other right hright
        exact absurd hleft (hbears.only q left hq)
      · rw [hbears.control r hr] at hright
        exact hgood.forker q r other left right hleft hright

/-- A process that is not running is in no call. -/
theorem Good.idle_of_status (hstatus : state.status child ≠ .live) :
    state.control child = .idle := by
  by_contra hbusy
  exact hstatus (hgood.live child hbusy)

theorem Good.fork (hlive : state.status p = .live)
    (hcontrol : state.control p = .idle) (hfree : state.status child = .free) :
    Good ((state.setStatus child .fresh).goto p (.forking child fds)) := by
  have hbusy : child ≠ p := by
    rintro rfl
    cases hfree.symm.trans hlive
  have hidle : state.control child = .idle := by
    apply hgood.idle_of_status
    rw [hfree]
    rintro ⟨⟩
  apply hgood.bears hlive hbusy
  constructor
  · exact fun q hq => goto_control_of_ne hq
  · exact fun _ _ => rfl
  · exact fun q hq => update_of_ne hq ..
  · exact fun _ => .inl rfl
  · funext f
    rw [claims_eq hcontrol, claims_eq goto_control_self]
    rfl
  · intro f
    rw [claims, claims, goto_control_of_ne hbusy]
    rfl
  · exact hgood.clean
  · apply (hgood.piped.setStatus child .fresh).goto
    rw [State.setStatus, hcontrol]
    rfl
  · rw [goto_control_self]
    trivial
  · exact hidle
  · intro q rest hq hforking
    cases hfree.symm.trans (hgood.forks q child rest hforking).1
  · rw [show ((state.setStatus child .fresh).goto p (.forking child fds)).status child = .fresh
      from update_self ..]
    rintro ⟨⟩
  · intro other rest hforking
    rw [goto_control_self] at hforking
    cases hforking
    exact ⟨rfl, update_self .., nodup_finRange 16, fun fd _ => hgood.empty child hfree fd⟩

/-- What a process that copies its descriptors knows about its child. -/
theorem Good.of_forking (hlive : state.status p = .live)
    (hcontrol : state.control p = .forking child rest) :
    child ≠ p ∧ state.control child = .idle ∧
      ∀ q other, q ≠ p → state.control q ≠ .forking child other := by
  have hfresh := (hgood.forks p child rest hcontrol).1
  refine ⟨?_, ?_, ?_⟩
  · rintro rfl
    cases hfresh.symm.trans hlive
  · apply hgood.idle_of_status
    rw [hfresh]
    exact nofun
  · intro q other hq hforking
    exact hq (hgood.forker q p child other rest hforking hcontrol)

theorem Good.forkDone (hlive : state.status p = .live)
    (hcontrol : state.control p = .forking child []) :
    Good ((state.setStatus child .live).goto p .idle) := by
  obtain ⟨hbusy, hidle, honly⟩ := hgood.of_forking hlive hcontrol
  apply hgood.bears hlive hbusy
  constructor
  · exact fun q hq => goto_control_of_ne hq
  · exact fun _ _ => rfl
  · exact fun q hq => update_of_ne hq ..
  · exact fun _ => .inl rfl
  · funext f
    rw [claims_eq hcontrol, claims_eq goto_control_self]
    rfl
  · intro f
    rw [claims, claims, goto_control_of_ne hbusy]
    rfl
  · exact hgood.clean
  · apply (hgood.piped.setStatus child .live).goto
    rw [State.setStatus, hcontrol]
    rfl
  · rw [goto_control_self]
    trivial
  · exact hidle
  · exact honly
  · rw [show ((state.setStatus child .live).goto p .idle).status child = .live from update_self ..]
    rintro ⟨⟩
  · intro other rest hforking
    rw [goto_control_self] at hforking
    cases hforking

theorem Good.forkSkip (hlive : state.status p = .live)
    (hcontrol : state.control p = .forking child (fd :: rest)) :
    Good (state.goto p (.forking child rest)) := by
  obtain ⟨hbusy, hidle, honly⟩ := hgood.of_forking hlive hcontrol
  obtain ⟨hfresh, hnodup, hnone⟩ := hgood.forks p child (fd :: rest) hcontrol
  apply hgood.bears hlive hbusy
  constructor
  · exact fun q hq => goto_control_of_ne hq
  · exact fun _ _ => rfl
  · exact fun _ _ => rfl
  · exact fun _ => .inl rfl
  · funext f
    rw [claims_eq hcontrol, claims_eq goto_control_self]
    rfl
  · intro f
    rw [claims, claims, goto_control_of_ne hbusy]
    rfl
  · exact hgood.clean
  · apply hgood.piped.goto
    rw [hcontrol]
    rfl
  · rw [goto_control_self]
    trivial
  · exact hidle
  · exact honly
  · intro hfree
    cases hfresh.symm.trans hfree
  · intro other left hforking
    rw [goto_control_self] at hforking
    cases hforking
    exact ⟨rfl, hfresh, hnodup.of_cons, fun fd hfd => hnone fd (.tail _ hfd)⟩

/-- The child gets a descriptor of the caller, which counts. -/
theorem Good.forkCopy (hlive : state.status p = .live)
    (hcontrol : state.control p = .forking child (fd :: rest))
    (hfd : state.ofile p fd = some f) :
    Good (((state.setFile f { state.files f with ref := (state.files f).ref + 1 }).setFd
      child fd (some f)).goto p (.forking child rest)) := by
  obtain ⟨hbusy, hidle, honly⟩ := hgood.of_forking hlive hcontrol
  obtain ⟨hfresh, hnodup, hnone⟩ := hgood.forks p child (fd :: rest) hcontrol
  have hempty := hnone fd (.head _)
  have hclaims : 1 ≤ claims state p f := by
    apply one_le_claims_of_fd hfd
    rw [hcontrol]
    rfl
  apply hgood.bears hlive hbusy
  constructor
  · exact fun q hq => goto_control_of_ne hq
  · exact fun q hq => setFd_of_ne hq fd (some f)
  · exact fun _ _ => rfl
  · intro g
    by_cases hg : g = f
    · rw [hg]
      exact .inr (.inr hclaims)
    · exact .inl (setFile_of_ne hg)
  · funext g
    rw [claims_eq hcontrol, claims_eq goto_control_self]
    change holders (State.ofile (State.setFd _ _ _ _) p) g + _ = _
    rw [setFd_of_ne hbusy.symm]
    rfl
  · intro g
    have hnew := holders_setFd hempty f g
    have hcopied : ∀ file, ((state.setFile f file).setFd child fd (some f)).control child =
      .idle := fun _ => hidle
    rw [claims_eq hidle, claims, goto_control_of_ne hbusy, hcopied]
    change ((state.setFile f _).files g).ref + (holders (state.ofile child) g + _) =
      _ + (holders (State.ofile (State.setFd _ _ _ _) child) g + _)
    rw [setFd_self]
    change _ = _ + (holders (update (state.ofile child) fd (some f)) g + _)
    rw [hnew]
    by_cases hg : g = f
    · subst hg
      rw [setFile_self, if_pos rfl]
      dsimp only
      omega
    · rw [setFile_of_ne hg, if_neg (Ne.symm hg)]
      omega
  · intro g
    change ((state.setFile f _).files g).ref = 0 → ((state.setFile f _).files g).type = _
    by_cases hg : g = f
    · rw [hg, setFile_self]
      rintro ⟨⟩
    · rw [setFile_of_ne hg]
      exact hgood.clean g
  · apply Piped.goto
    · apply Piped.setFd
      exact hgood.piped.setFile rfl
    · rw [State.setFd, State.setFile, hcontrol]
      rfl
  · rw [goto_control_self]
    trivial
  · exact hidle
  · exact honly
  · intro hfree
    cases hfresh.symm.trans hfree
  · intro other left hforking
    rw [goto_control_self] at hforking
    cases hforking
    refine ⟨rfl, hfresh, hnodup.of_cons, ?_⟩
    intro fd' hfd'
    change State.ofile (State.setFd _ _ _ _) child fd' = none
    rw [setFd_self]
    have hne : fd' ≠ fd := by
      rintro rfl
      exact (nodup_cons.1 hnodup).1 hfd'
    exact (update_of_ne hne ..).trans (hnone fd' (.tail _ hfd'))

end

end Children

end Xv6Users.OpenFiles
