import Xv6Users.Kernel.OpenFiles

/-!
# References to open files

Every reference of a file is a descriptor or is held by a call in progress, and every end
of a pipe that is open is a file or is about to be closed.
-/

namespace Xv6Users.OpenFiles

open Holders ReferenceCounts Function List
open Processes (Slot)
open Inodes (Fp Fd)

/-- A descriptor that has no reference of its own yet or any more. -/
def hidden : Control → Option Fd
  | .duplicating fd _ => some fd
  | .clearing _ fd _ => some fd
  | _ => none

/-- The files that a call in progress has references to. -/
def owns : Control → List Fp
  | .opening f => [f]
  | .halfPipe rf => [rf]
  | .twoFiles rf wf => [rf, wf]
  | .piping rf wf => [rf, wf]
  | .halfPiped _ _ wf => [wf]
  | .closing rest => rest
  | .closingPipe _ rest => rest
  | _ => []

/-- The end of a pipe whose file is gone and that is to be closed. -/
def pending : Control → Option End
  | .closingPipe pipe _ => some pipe
  | .clearing pipe _ _ => pipe
  | _ => none

def visible (ofile : Fd → Option Fp) (control : Control) : Fd → Option Fp :=
  match hidden control with
  | none => ofile
  | some fd => update ofile fd none

/-- The references of a process to a file. -/
def claims (state : State) (p : Slot) (f : Fp) : ℕ :=
  holders (visible (state.ofile p) (state.control p)) f + (owns (state.control p)).count f

def State.Open (state : State) (pipe : End) : Prop :=
  pipe.1 < state.npipes ∧
    (if pipe.2 then (state.pipes pipe.1).writeopen else (state.pipes pipe.1).readopen) = true
  deriving Decidable

/-- Ends of pipes are open as long as there is a file for them. -/
structure Piped (state : State) : Prop where
  ends : ∀ pipe, holders (fun f => endOf (state.files f)) pipe +
    holders (fun p => pending (state.control p)) pipe = if state.Open pipe then 1 else 0
  freed : ∀ id, (state.pipes id).freed =
    if id < state.npipes ∧ ¬ state.Open (id, false) ∧ ¬ state.Open (id, true) then 1 else 0

/-- A file that only the call has that allocated it. -/
structure File.Fresh (file : File) : Prop where
  ref : file.ref = 1
  type : file.type = .none

/-- What a process relies on in its call. -/
def Settled (files : Fp → File) (ofile : Fd → Option Fp) : Control → Prop
  | .opening f => (files f).Fresh
  | .naming fd f => ofile fd = some f ∧ (files f).Fresh
  | .duplicating fd f => ofile fd = some f ∧ ∃ other, other ≠ fd ∧ ofile other = some f
  | .halfPipe rf => (files rf).Fresh
  | .twoFiles rf wf => rf ≠ wf ∧ (files rf).Fresh ∧ (files wf).Fresh
  | .halfPiped fd0 rf _ => ofile fd0 = some rf
  | .exiting rest => ∀ fd, fd ∉ rest → ofile fd = none
  | .clearing _ fd rest => ∀ other, other ∉ fd :: rest → ofile other = none
  | _ => True

structure Good (state : State) : Prop where
  counted : Counted (fun f => (state.files f).ref) (claims state)
  clean : ∀ f, (state.files f).ref = 0 → (state.files f).type = .none
  piped : Piped state
  settled : ∀ p, Settled state.files (state.ofile p) (state.control p)
  live : ∀ p, state.control p ≠ .idle → state.status p = .live
  empty : ∀ p, state.status p = .free → ∀ fd, state.ofile p fd = none
  forks : ∀ p child rest, state.control p = .forking child rest →
    state.status child = .fresh ∧ rest.Nodup ∧ ∀ fd ∈ rest, state.ofile child fd = none
  forker : ∀ p q child left right, state.control p = .forking child left →
    state.control q = .forking child right → p = q

section Accounts

variable {state state' : State} {p q : Slot} {f g : Fp} {fd : Fd} {control : Control}

/-- A file that is fresh in a call is claimed by the process. -/
theorem one_le_claims_of_owns (hmem : f ∈ owns (state.control p)) : 1 ≤ claims state p f :=
  (one_le_count_iff.2 hmem).trans (Nat.le_add_left _ _)

theorem one_le_claims_of_fd (hfd : state.ofile p fd = some f)
    (hhidden : hidden (state.control p) = none) : 1 ≤ claims state p f := by
  rw [claims, visible, hhidden]
  exact (one_le_holders hfd).trans (Nat.le_add_right _ _)

/-- Steps of other processes leave a fresh file alone. -/
theorem Good.fresh_kept (hgood : Good state) (hne : q ≠ p)
    (htouch : state'.files f = state.files f ∨ (state.files f).ref = 0 ∨ 1 ≤ claims state p f)
    (hfresh : (state.files f).Fresh) (hclaims : 1 ≤ claims state q f) : (state'.files f).Fresh := by
  obtain hsame | hzero | hclaimed := htouch
  · rw [hsame]
    exact hfresh
  · rw [hfresh.ref] at hzero
    cases hzero
  · have htwo : claims state q f + claims state p f ≤ (state.files f).ref :=
      hgood.counted.two_claims_le hne
    have href := hfresh.ref
    omega

theorem Good.settled_kept (hgood : Good state) (hne : q ≠ p)
    (hcontrol : state'.control q = state.control q)
    (hofile : state.control q ≠ .idle → state'.ofile q = state.ofile q)
    (htouch : ∀ f, state'.files f = state.files f ∨ (state.files f).ref = 0 ∨
      1 ≤ claims state p f) : Settled state'.files (state'.ofile q) (state'.control q) := by
  have hsettled := hgood.settled q
  have howns : ∀ f ∈ owns (state.control q), 1 ≤ claims state q f := fun _ => one_le_claims_of_owns
  have hfds : hidden (state.control q) = none → ∀ fd f, state.ofile q fd = some f →
      1 ≤ claims state q f := fun hhidden _ _ hfd => one_le_claims_of_fd hfd hhidden
  have hfresh : ∀ f, (state.files f).Fresh → 1 ≤ claims state q f →
      (state'.files f).Fresh := fun f => hgood.fresh_kept hne (htouch f)
  rw [hcontrol]
  cases hwhere : state.control q with
  | idle => trivial
  | opening f =>
    rw [hwhere] at hsettled howns
    exact hfresh f hsettled (howns f (.head _))
  | naming fd f =>
    rw [hofile (by rw [hwhere]; exact nofun)]
    rw [hwhere] at hsettled hfds
    exact ⟨hsettled.1, hfresh f hsettled.2 (hfds rfl fd f hsettled.1)⟩
  | duplicating fd f =>
    rw [hofile (by rw [hwhere]; exact nofun)]
    rwa [hwhere] at hsettled
  | halfPipe rf =>
    rw [hwhere] at hsettled howns
    exact hfresh rf hsettled (howns rf (.head _))
  | twoFiles rf wf =>
    rw [hwhere] at hsettled howns
    exact ⟨hsettled.1, hfresh rf hsettled.2.1 (howns rf (.head _)),
      hfresh wf hsettled.2.2 (howns wf (.tail _ (.head _)))⟩
  | halfPiped fd0 rf wf =>
    rw [hofile (by rw [hwhere]; exact nofun)]
    rwa [hwhere] at hsettled
  | exiting rest =>
    rw [hofile (by rw [hwhere]; exact nofun)]
    rwa [hwhere] at hsettled
  | clearing pipe fd rest =>
    rw [hofile (by rw [hwhere]; exact nofun)]
    rwa [hwhere] at hsettled
  | piping _ _ => trivial
  | closing _ => trivial
  | closingPipe _ _ => trivial
  | forking _ _ => trivial

/-- What one step of a process may do, if it makes no child. -/
structure Acts (state : State) (p : Slot) (state' : State) : Prop where
  control : ∀ q, q ≠ p → state'.control q = state.control q
  ofile : ∀ q, q ≠ p → state'.ofile q = state.ofile q
  status : ∀ q, q ≠ p → state'.status q = state.status q
  touch : ∀ f, state'.files f = state.files f ∨ (state.files f).ref = 0 ∨ 1 ≤ claims state p f
  balance : ∀ f, (state'.files f).ref + claims state p f = (state.files f).ref + claims state' p f
  clean : ∀ f, (state'.files f).ref = 0 → (state'.files f).type = .none
  piped : Piped state'
  settled : Settled state'.files (state'.ofile p) (state'.control p)
  live : state'.control p ≠ .idle → state'.status p = .live
  empty : state'.status p = .free → ∀ fd, state'.ofile p fd = none
  forks : ∀ child rest, state'.control p ≠ .forking child rest

theorem Good.acts (hgood : Good state) (hstatus : state.status p = .live)
    (hacts : Acts state p state') : Good state' := by
  have hchild : ∀ q child rest, q ≠ p → state.control q = .forking child rest → child ≠ p := by
    rintro q child rest - hforking rfl
    have hfresh := (hgood.forks q child rest hforking).1
    rw [hstatus] at hfresh
    cases hfresh
  refine ⟨?_, hacts.clean, hacts.piped, ?_, ?_, ?_, ?_, ?_⟩
  · apply hgood.counted.change p
    · intro q hq
      funext f
      rw [claims, claims, hacts.control q hq, hacts.ofile q hq]
    · exact hacts.balance
  · intro q
    by_cases hq : q = p
    · rw [hq]
      exact hacts.settled
    · exact hgood.settled_kept hq (hacts.control q hq) (fun _ => hacts.ofile q hq) hacts.touch
  · intro q hbusy
    by_cases hq : q = p
    · rw [hq] at hbusy ⊢
      exact hacts.live hbusy
    · rw [hacts.control q hq] at hbusy
      rw [hacts.status q hq]
      exact hgood.live q hbusy
  · intro q hfree
    by_cases hq : q = p
    · rw [hq] at hfree ⊢
      exact hacts.empty hfree
    · rw [hacts.status q hq] at hfree
      rw [hacts.ofile q hq]
      exact hgood.empty q hfree
  · intro q child rest hforking
    by_cases hq : q = p
    · rw [hq] at hforking
      exact absurd hforking (hacts.forks child rest)
    · rw [hacts.control q hq] at hforking
      have hne := hchild q child rest hq hforking
      rw [hacts.status child hne, hacts.ofile child hne]
      exact hgood.forks q child rest hforking
  · intro q r child left right hleft hright
    by_cases hq : q = p
    · rw [hq] at hleft
      exact absurd hleft (hacts.forks child left)
    · by_cases hr : r = p
      · rw [hr] at hright
        exact absurd hright (hacts.forks child right)
      · rw [hacts.control q hq] at hleft
        rw [hacts.control r hr] at hright
        exact hgood.forker q r child left right hleft hright

end Accounts

variable {q : Slot}

section Pipes

variable {state state' : State} {p : Slot} {f : Fp} {file : File} {control : Control}
  {pipe : End}

@[simp]
theorem goto_control_self : (state.goto p control).control p = control :=
  update_self ..

theorem goto_control_of_ne (hq : q ≠ p) :
    (state.goto p control).control q = state.control q := update_of_ne hq ..

@[simp]
theorem setFile_self : (state.setFile f file).files f = file :=
  update_self ..

theorem setFile_of_ne {g : Fp} (hg : g ≠ f) : (state.setFile f file).files g = state.files g :=
  update_of_ne hg ..

@[simp]
theorem setFd_self (fd : Fd) (value : Option Fp) :
    (state.setFd p fd value).ofile p = update (state.ofile p) fd value := update_self ..

theorem setFd_of_ne (hq : q ≠ p) (fd : Fd) (value : Option Fp) :
    (state.setFd p fd value).ofile q = state.ofile q := update_of_ne hq ..

theorem pending_goto (state : State) (p : Slot) (control : Control) :
    (fun q => pending ((state.goto p control).control q)) =
      update (fun q => pending (state.control q)) p (pending control) := by
  funext q
  exact apply_update (fun _ => pending) state.control p control q

theorem ends_setFile (state : State) (f : Fp) (file : File) :
    (fun g => endOf ((state.setFile f file).files g)) =
      update (fun g => endOf (state.files g)) f (endOf file) := by
  funext g
  exact apply_update (fun _ => endOf) state.files f file g

section

variable (hpiped : Piped state)

include hpiped

/-- The account of the ends is the same for the same files and calls. -/
theorem Piped.same (hfiles : (fun f => endOf (state'.files f)) = fun f => endOf (state.files f))
    (hcontrol : (fun q => pending (state'.control q)) = fun q => pending (state.control q))
    (hpipes : state'.pipes = state.pipes) (hnpipes : state'.npipes = state.npipes) :
    Piped state' := by
  have hopen : ∀ pipe, state'.Open pipe ↔ state.Open pipe := by
    intro pipe
    rw [State.Open, State.Open, hpipes, hnpipes]
  constructor
  · intro pipe
    rw [hfiles, hcontrol]
    simp only [hopen]
    exact hpiped.ends pipe
  · intro id
    rw [hpipes, hnpipes]
    simp only [hopen]
    exact hpiped.freed id

/-- A process that is not closing a pipe goes on. -/
theorem Piped.goto (hsame : pending control = pending (state.control p)) :
    Piped (state.goto p control) := by
  refine hpiped.same rfl ?_ rfl rfl
  rw [pending_goto, hsame]
  exact update_eq_self ..

/-- A file changes that stays the end of a pipe or no end. -/
theorem Piped.setFile (hsame : endOf file = endOf (state.files f)) :
    Piped (state.setFile f file) := by
  refine hpiped.same ?_ rfl rfl rfl
  rw [ends_setFile, hsame]
  exact update_eq_self ..

theorem Piped.setFd (p : Slot) (fd : Fd) (value : Option Fp) : Piped (state.setFd p fd value) :=
  hpiped.same rfl rfl rfl rfl

theorem Piped.setStatus (p : Slot) (status : Status) : Piped (state.setStatus p status) :=
  hpiped.same rfl rfl rfl rfl

/-- The last reference to a file is gone; a process is to close its end. -/
theorem Piped.drop (hidle : pending (state.control p) = none)
    (hgone : endOf file = none) (hpending : pending control = endOf (state.files f)) :
    Piped ((state.setFile f file).goto p control) := by
  constructor
  · intro pipe
    have hfiles := holders_update (fun g => endOf (state.files g)) f (endOf file) pipe
    have hcalls := holders_update (fun q => pending (state.control q)) p (pending control) pipe
    have hbefore := hpiped.ends pipe
    have hopen : ((state.setFile f file).goto p control).Open pipe ↔ state.Open pipe := Iff.rfl
    simp only [hopen]
    rw [pending_goto, show (fun g => endOf (((state.setFile f file).goto p control).files g)) =
      _ from ends_setFile state f file]
    change _ + holders (update (fun q => pending (state.control q)) p _) pipe = _
    rw [hgone] at hfiles ⊢
    rw [hidle, hpending] at hcalls
    rw [hpending]
    omega
  · exact hpiped.freed

end

theorem close_readopen (pipe : Pipe) (writable : Bool) :
    (pipe.close writable).readopen = (writable && pipe.readopen) := by
  rw [Pipe.close]
  cases writable <;> split_ifs <;> simp_all

theorem close_writeopen (pipe : Pipe) (writable : Bool) :
    (pipe.close writable).writeopen = (!writable && pipe.writeopen) := by
  rw [Pipe.close]
  cases writable <;> split_ifs <;> simp_all

theorem close_freed (pipe : Pipe) (writable : Bool) :
    (pipe.close writable).freed = if (pipe.close writable).readopen = false ∧
      (pipe.close writable).writeopen = false then pipe.freed + 1 else pipe.freed := by
  rw [close_readopen, close_writeopen, Pipe.close]
  cases writable <;> split_ifs <;> simp_all

/-- One end of a pipe is closed, and the other stays. -/
theorem open_pipeclose (state : State) (pipe other : End) :
    (pipeclose state pipe).Open other ↔ state.Open other ∧ other ≠ pipe := by
  obtain ⟨id, writable⟩ := pipe
  obtain ⟨id', writable'⟩ := other
  rw [State.Open, State.Open, pipeclose]
  dsimp only
  by_cases hid : id' = id
  · subst hid
    rw [update_self, close_readopen, close_writeopen]
    cases writable <;> cases writable' <;> simp
  · simp [hid]

/-- The process closes the end; the page is freed with the last one. -/
theorem Piped.shut (hpiped : Piped state) (hpending : pending (state.control p) = some pipe)
    (hdone : pending control = none) : Piped ((pipeclose state pipe).goto p control) := by
  have hone : 1 ≤ holders (fun q => pending (state.control q)) pipe := one_le_holders hpending
  have hopen : state.Open pipe := by
    by_contra hclosed
    have hends := hpiped.ends pipe
    rw [if_neg hclosed] at hends
    omega
  have hopens : ∀ other, ((pipeclose state pipe).goto p control).Open other ↔
      state.Open other ∧ other ≠ pipe := open_pipeclose state pipe
  constructor
  · intro other
    have hcalls := holders_update (fun q => pending (state.control q)) p (pending control) other
    have hbefore := hpiped.ends other
    simp only [hopens]
    rw [pending_goto, show (fun f => endOf (((pipeclose state pipe).goto p control).files f)) =
      fun f => endOf (state.files f) from rfl]
    change _ + holders (update (fun q => pending (state.control q)) p _) other = _
    rw [hpending, hdone] at hcalls
    rw [hdone]
    by_cases hother : other = pipe
    · subst hother
      simp only [hopen, if_true, reduceCtorEq, if_false, ne_eq, not_true_eq_false,
        and_false] at hbefore hcalls ⊢
      omega
    · have hne : some pipe ≠ some other := fun hsame => hother (Option.some.inj hsame).symm
      simp only [hother, hne, reduceCtorEq, if_false, ne_eq, not_false_eq_true,
        and_true] at hbefore hcalls ⊢
      omega
  · intro id
    have hbefore := hpiped.freed id
    simp only [hopens]
    by_cases hid : id = pipe.1
    · subst hid
      have hzero : (state.pipes pipe.1).freed = 0 := by
        rw [hbefore, if_neg]
        rintro ⟨-, hread, hwrite⟩
        obtain ⟨id, writable⟩ := pipe
        cases writable with
        | false => exact hread hopen
        | true => exact hwrite hopen
      have hclose : (((pipeclose state pipe).goto p control).pipes pipe.1) =
          (state.pipes pipe.1).close pipe.2 := update_self ..
      rw [hclose, close_freed, hzero, close_readopen, close_writeopen]
      obtain ⟨id, writable⟩ := pipe
      obtain ⟨hlt, hthis⟩ := hopen
      have hn : ((pipeclose state (id, writable)).goto p control).npipes = state.npipes := rfl
      simp only [State.Open, hlt, true_and]
      cases writable <;> simp_all
    · have hsame : (((pipeclose state pipe).goto p control).pipes id) = state.pipes id :=
        update_of_ne hid ..
      have hboth : (id, false) ≠ pipe ∧ (id, true) ≠ pipe := by
        constructor <;> rintro rfl <;> exact hid rfl
      rw [hsame, hbefore]
      simp only [ne_eq, hboth.1, hboth.2, not_false_eq_true, and_true]
      rfl

theorem open_pipealloc (state : State) (rf wf : Fp) (pipe : End) :
    (pipealloc state rf wf).Open pipe ↔ state.Open pipe ∨ pipe.1 = state.npipes := by
  rw [State.Open, State.Open, pipealloc]
  dsimp only
  by_cases hid : pipe.1 = state.npipes
  · rw [hid, update_self]
    simp
  · rw [update_of_ne hid]
    simp only [hid, or_false, and_congr_left_iff]
    intro _
    omega

/-- Two files become the ends of a new pipe. -/
theorem Piped.alloc (hpiped : Piped state) {rf wf : Fp} (hne : rf ≠ wf)
    (hread : endOf (state.files rf) = none) (hwrite : endOf (state.files wf) = none) :
    Piped (pipealloc state rf wf) := by
  have hends : (fun f => endOf ((pipealloc state rf wf).files f)) =
      update (update (fun f => endOf (state.files f)) rf
        (some (state.npipes, false))) wf (some (state.npipes, true)) := by
    calc (fun f => endOf ((pipealloc state rf wf).files f))
        = update (fun f => endOf ((state.setFile rf { state.files rf with
            type := .pipe state.npipes, writable := false }).files f)) wf
              (some (state.npipes, true)) := ends_setFile _ _ _
      _ = _ := by
          rw [ends_setFile]
          rfl
  have hnew : ¬ state.npipes < state.npipes := lt_irrefl _
  constructor
  · intro pipe
    have hfirst := holders_update (fun f => endOf (state.files f)) rf
      (some (state.npipes, false)) pipe
    have hsecond := holders_update (update (fun f => endOf (state.files f)) rf
      (some (state.npipes, false))) wf (some (state.npipes, true)) pipe
    have hbefore := hpiped.ends pipe
    rw [update_of_ne hne.symm, hwrite] at hsecond
    rw [hread] at hfirst
    rw [hends]
    change _ + holders (fun q => pending (state.control q)) pipe = _
    simp only [open_pipealloc]
    obtain ⟨id, writable⟩ := pipe
    by_cases hid : id = state.npipes
    · subst hid
      have hclosed : ¬ state.Open (state.npipes, writable) := fun hopen => hnew hopen.1
      simp only [hclosed, or_true, if_true, if_false] at hbefore ⊢
      cases writable <;> simp at hfirst hsecond <;> omega
    · have hother : (state.npipes, false) ≠ (id, writable) ∧
          (state.npipes, true) ≠ (id, writable) := by
        constructor <;> rintro ⟨⟩ <;> exact hid rfl
      simp only [hid, or_false, Option.some.injEq, hother.1, hother.2, reduceCtorEq,
        if_false] at hfirst hsecond ⊢
      omega
  · intro id
    have hbefore := hpiped.freed id
    simp only [open_pipealloc]
    by_cases hid : id = state.npipes
    · subst hid
      simp [pipealloc]
    · have hsame : (pipealloc state rf wf).pipes id = state.pipes id := update_of_ne hid ..
      have hlt : id < (pipealloc state rf wf).npipes ↔ id < state.npipes := by
        rw [show (pipealloc state rf wf).npipes = state.npipes + 1 from rfl]
        omega
      rw [hsame, hbefore]
      simp only [hid, or_false, hlt]

end Pipes

end Xv6Users.OpenFiles
