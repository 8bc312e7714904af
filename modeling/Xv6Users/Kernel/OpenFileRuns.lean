import Xv6Users.Core.Runs
import Xv6Users.Kernel.OpenFileSteps

/-!
# Descriptors are counted

The accounts hold in every reachable state, so between system calls the counts are the
numbers of descriptors.
-/

namespace Xv6Users.OpenFiles

open Holders ReferenceCounts Finset
open Processes (Slot)
open Inodes (Fp Fd)

variable {action : Action} {rest : List Fd} {id : ℕ}

section Runs

variable {state state' : State} {p : Slot}

theorem Good.start : Good start := by
  have hclaims : claims OpenFiles.start = fun _ _ => 0 := by
    funext p f
    change holders (fun _ : Fd => (none : Option Fp)) f + List.count f [] = 0
    simp [holders]
  constructor
  · rw [hclaims]
    intro f
    simp [OpenFiles.start]
  · exact fun _ _ => rfl
  · constructor
    · intro pipe
      change holders (fun _ : Fp => (none : Option End)) pipe +
        holders (fun _ : Slot => (none : Option End)) pipe = 0
      simp [holders]
    · intro id
      rw [if_neg]
      · rfl
      · exact fun hopen => Nat.not_lt_zero _ hopen.1
  · exact fun _ => trivial
  · exact fun _ hbusy => absurd rfl hbusy
  · exact fun _ _ _ => rfl
  · rintro _ _ _ ⟨⟩
  · rintro _ _ _ _ _ ⟨⟩

section

variable (hgood : Good state) (hlive : state.status p = .live)

include hgood hlive

/-- Steps that begin a call. -/
theorem Good.call
    (hcontrol : state.control p = .idle) (hact : act state p .idle action = some state') :
    Good state' := by
  cases action with
  | «open» =>
    dsimp only [act] at hact
    split at hact
    · cases hact
      exact hgood
    · next f hfree =>
      cases hact
      exact hgood.openFile hlive hcontrol hfree
  | dup fd =>
    dsimp only [act] at hact
    split at hact
    · next f fd' hfd hfree =>
      cases hact
      exact hgood.dupFd hlive hcontrol hfd hfree
    · cases hact
      exact hgood
  | close fd =>
    dsimp only [act] at hact
    split at hact
    · cases hact
      exact hgood
    · next f hfd =>
      cases hact
      exact hgood.clearFd hlive hcontrol hfd rfl rfl
  | pipe =>
    dsimp only [act] at hact
    split at hact
    · cases hact
      exact hgood
    · next rf hfree =>
      cases hact
      exact hgood.pipeFirst hlive hcontrol hfree
  | fork child =>
    dsimp only [act] at hact
    split_ifs at hact with hfree
    cases hact
    exact hgood.fork hlive hcontrol hfree
  | exit =>
    cases hact
    exact hgood.exit hlive hcontrol
  | _ => cases hact

/-- Steps of `close`, and of calls that close files when they fail. -/
theorem Good.closing {rest : List Fp} (hcontrol : state.control p = .closing rest)
    (hact : OpenFiles.act state p (.closing rest) .closeFile = some state') : Good state' := by
  cases rest with
  | nil =>
    cases hact
    apply hgood.goto hlive
    · intro g
      rw [claims_eq hcontrol]
      rfl
    · rw [hcontrol]
      rfl
    · trivial
    · exact nofun
  | cons f rest =>
    dsimp only [OpenFiles.act] at hact
    split at hact
    · cases hact
    · next closed hclose =>
      cases hact
      exact hgood.closeFile hlive hcontrol hclose rfl rfl rfl (fun _ => trivial) nofun
    · next closed pipe hclose =>
      cases hact
      exact hgood.closeFile hlive hcontrol hclose rfl rfl rfl (fun _ => trivial) nofun

theorem Good.forking {child : Slot} (hcontrol : state.control p = .forking child rest)
    (hact : OpenFiles.act state p (.forking child rest) .forkFile = some state') : Good state' := by
  cases rest with
  | nil =>
    cases hact
    exact hgood.forkDone hlive hcontrol
  | cons fd rest =>
    dsimp only [OpenFiles.act] at hact
    split at hact
    · cases hact
      exact hgood.forkSkip hlive hcontrol
    · next f hfd =>
      obtain ⟨copied, hdup, rfl⟩ := Option.map_eq_some_iff.1 hact
      rw [filedup] at hdup
      split_ifs at hdup
      cases hdup
      exact hgood.forkCopy hlive hcontrol hfd

theorem Good.exiting (hcontrol : state.control p = .exiting rest)
    (hact : OpenFiles.act state p (.exiting rest) .exitFile = some state') : Good state' := by
  cases rest with
  | nil =>
    cases hact
    exact hgood.exitDone hlive hcontrol
  | cons fd rest =>
    dsimp only [OpenFiles.act] at hact
    split at hact
    · next hfd =>
      cases hact
      exact hgood.exitSkip hlive hcontrol hfd
    · next f hfd =>
      obtain ⟨⟨closed, pipe⟩, hclose, rfl⟩ := Option.map_eq_some_iff.1 hact
      exact hgood.exitFile hlive hcontrol hfd hclose

theorem Good.clearing {pipe : Option End}
    {fd : Fd} (hcontrol : state.control p = .clearing pipe fd rest)
    (hact : OpenFiles.act state p (.clearing pipe fd rest) .exitClear = some state') :
    Good state' := by
  have hpending : pending (state.control p) = pipe := by
    rw [hcontrol]
    rfl
  cases pipe with
  | none =>
    cases hact
    exact hgood.exitClear hlive hcontrol (hgood.piped.goto hpending.symm)
  | some pipe =>
    cases hact
    exact hgood.exitClear hlive hcontrol (hgood.piped.shut hpending rfl)

/-- Steps of `pipe` after the first file. -/
theorem Good.pipeStep {rf wf : Fp} {memory : Bool} (hcontrol : state.control p = .twoFiles rf wf)
    (hact : OpenFiles.act state p (.twoFiles rf wf) (.pipePage memory) = some state') :
    Good state' := by
  dsimp only [OpenFiles.act] at hact
  split_ifs at hact
  · cases hact
    exact hgood.pipePage hlive hcontrol
  · cases hact
    exact hgood.abort hlive hcontrol rfl rfl

theorem Good.act {control : Control} (hcontrol : state.control p = control)
    (hact : OpenFiles.act state p control action = some state') : Good state' := by
  cases control with
  | idle => exact hgood.call hlive hcontrol hact
  | opening f =>
    cases action with
    | openFd =>
      dsimp only [OpenFiles.act] at hact
      split at hact
      · cases hact
        exact hgood.abort hlive hcontrol rfl rfl
      · next fd hfree =>
        cases hact
        exact hgood.openFd hlive hcontrol hfree
    | _ => cases hact
  | naming fd f =>
    cases action with
    | openDone writable =>
      cases hact
      exact hgood.openDone hlive hcontrol writable
    | _ => cases hact
  | duplicating fd f =>
    cases action with
    | dupCount =>
      obtain ⟨counted, hdup, rfl⟩ := Option.map_eq_some_iff.1 hact
      rw [filedup] at hdup
      split_ifs at hdup
      cases hdup
      exact hgood.dupCount hlive hcontrol
    | _ => cases hact
  | halfPipe rf =>
    cases action with
    | pipeFile =>
      dsimp only [OpenFiles.act] at hact
      split at hact
      · cases hact
        exact hgood.abort hlive hcontrol rfl rfl
      · next wf hfree =>
        cases hact
        exact hgood.pipeSecond hlive hcontrol hfree
    | _ => cases hact
  | twoFiles rf wf =>
    cases action with
    | pipePage memory => exact hgood.pipeStep hlive hcontrol hact
    | _ => cases hact
  | piping rf wf =>
    cases action with
    | pipeFd =>
      dsimp only [OpenFiles.act] at hact
      split at hact
      · cases hact
        exact hgood.abort hlive hcontrol rfl rfl
      · next fd hfree =>
        cases hact
        exact hgood.pipeFd hlive hcontrol hfree
    | _ => cases hact
  | halfPiped fd0 rf wf =>
    cases action with
    | pipeDone =>
      dsimp only [OpenFiles.act] at hact
      split at hact
      · cases hact
        exact hgood.pipeUndo hlive hcontrol
      · next fd hfree =>
        cases hact
        exact hgood.pipeDone hlive hcontrol hfree
    | _ => cases hact
  | closing rest =>
    cases action with
    | closeFile => exact hgood.closing hlive hcontrol hact
    | _ => cases rest <;> cases hact
  | closingPipe pipe rest =>
    cases action with
    | closePipe =>
      cases hact
      exact hgood.closePipe hlive hcontrol
    | _ => cases hact
  | forking child rest =>
    cases action with
    | forkFile => exact hgood.forking hlive hcontrol hact
    | _ => cases rest <;> cases hact
  | exiting rest =>
    cases action with
    | exitFile => exact hgood.exiting hlive hcontrol hact
    | _ => cases rest <;> cases hact
  | clearing pipe fd rest =>
    cases action with
    | exitClear => exact hgood.clearing hlive hcontrol hact
    | _ => cases pipe <;> cases hact

end

theorem Good.step (hgood : Good state) (hstep : step state p action = some state') :
    Good state' := by
  rw [OpenFiles.step] at hstep
  split_ifs at hstep with hlive
  exact hgood.act hlive rfl hstep

theorem good_of_reachable (hreachable : Reachable state) : Good state := by
  induction hreachable with
  | refl => exact Good.start
  | tail _ hlast ih =>
    obtain ⟨p, action, hstep⟩ := hlast
    exact ih.step hstep

def IsEnd (state : State) (id : ℕ) (writable : Bool) (f : Fp) : Prop :=
  (state.files f).type = .pipe id ∧ (state.files f).writable = writable ∧ 0 < (state.files f).ref

section

variable (hgood : Good state)

include hgood

theorem Good.isEnd_iff (id : ℕ) (writable : Bool) (f : Fp) :
    IsEnd state id writable f ↔ endOf (state.files f) = some (id, writable) := by
  constructor
  · rintro ⟨htype, hwritable, -⟩
    rw [endOf, htype, ← hwritable]
  · intro hend
    have hopen : (state.files f).ref ≠ 0 := by
      intro hzero
      rw [endOf, hgood.clean f hzero] at hend
      cases hend
    rw [endOf] at hend
    split at hend
    · next id' htype =>
      cases hend
      exact ⟨htype, rfl, Nat.pos_of_ne_zero hopen⟩
    · cases hend
    · cases hend

/-- Between calls the open ends of pipes are the files. -/
theorem Good.holders_ends (hidle : ∀ p, state.control p = .idle) (pipe : End) :
    holders (fun f => endOf (state.files f)) pipe = if state.Open pipe then 1 else 0 := by
  have hcalls : holders (fun p => pending (state.control p)) pipe = 0 := by
    simp [holders, hidle, pending]
  have hends := hgood.piped.ends pipe
  rwa [hcalls] at hends

theorem Good.open_iff (hidle : ∀ p, state.control p = .idle)
    (id : ℕ) (writable : Bool) : state.Open (id, writable) ↔ ∃ f, IsEnd state id writable f := by
  have hends := hgood.holders_ends hidle (id, writable)
  constructor
  · intro hopen
    rw [if_pos hopen] at hends
    obtain ⟨f, hf⟩ := card_pos.1 (hends.symm ▸ Nat.one_pos)
    exact ⟨f, (hgood.isEnd_iff id writable f).2 (mem_filter.1 hf).2⟩
  · rintro ⟨f, hf⟩
    by_contra hclosed
    rw [if_neg hclosed] at hends
    have hone : 1 ≤ holders (fun f => endOf (state.files f)) (id, writable) :=
      one_le_holders ((hgood.isEnd_iff id writable f).1 hf)
    omega

theorem Good.isEnd_unique (hidle : ∀ p, state.control p = .idle)
    {writable : Bool} {f g : Fp} (hf : IsEnd state id writable f)
    (hg : IsEnd state id writable g) : f = g := by
  have hopen := (hgood.open_iff hidle id writable).2 ⟨f, hf⟩
  have hends := hgood.holders_ends hidle (id, writable)
  rw [if_pos hopen] at hends
  apply card_le_one.1 hends.le
  · exact mem_filter.2 ⟨mem_univ f, (hgood.isEnd_iff ..).1 hf⟩
  · exact mem_filter.2 ⟨mem_univ g, (hgood.isEnd_iff ..).1 hg⟩

theorem Good.ref_eq (hidle : ∀ p, state.control p = .idle) (f : Fp) :
    (state.files f).ref = (univ.filter fun slot : Slot × Fd =>
      state.ofile slot.1 slot.2 = some f).card := by
  calc (state.files f).ref
      = ∑ p, claims state p f := hgood.counted f
    _ = ∑ p, ∑ fd, if state.ofile p fd = some f then 1 else 0 := by
        apply sum_congr rfl
        intro p _
        rw [claims_eq (hidle p), ← card_filter]
        rfl
    _ = _ := by
        rw [← Fintype.sum_prod_type', ← card_filter]

theorem Good.freed_eq (hid : id < state.npipes) :
    (state.pipes id).freed = if (state.pipes id).readopen = false ∧
      (state.pipes id).writeopen = false then 1 else 0 := by
  rw [hgood.piped.freed]
  simp [State.Open, hid]

end

/-- In every reachable state the page of a pipe is freed once if both ends are closed, and
not before.  Between system calls a file counts the descriptors that point to it, and an end
of a pipe is open if it has its file. -/
theorem descriptors_are_counted (hreachable : Reachable state) :
    (∀ id < state.npipes, (state.pipes id).freed =
      if (state.pipes id).readopen = false ∧ (state.pipes id).writeopen = false then 1 else 0) ∧
    ((∀ p, state.control p = .idle) →
      (∀ f, (state.files f).ref = (univ.filter fun slot : Slot × Fd =>
        state.ofile slot.1 slot.2 = some f).card) ∧
      (∀ f, (state.files f).ref = 0 → (state.files f).type = .none ∧
        ∀ p fd, state.ofile p fd ≠ some f) ∧
      ∀ id < state.npipes, ((state.pipes id).readopen = true ↔ ∃ f, IsEnd state id false f) ∧
        ((state.pipes id).writeopen = true ↔ ∃ f, IsEnd state id true f) ∧
        ∀ writable f g, IsEnd state id writable f → IsEnd state id writable g → f = g) := by
  have hgood := good_of_reachable hreachable
  refine ⟨fun id hid => hgood.freed_eq hid, fun hidle => ⟨hgood.ref_eq hidle, ?_, ?_⟩⟩
  · intro f hzero
    refine ⟨hgood.clean f hzero, ?_⟩
    intro p fd hfd
    have hone : 1 ≤ claims state p f := by
      apply one_le_claims_of_fd hfd
      rw [hidle p]
      rfl
    have hle : claims state p f ≤ (state.files f).ref := hgood.counted.claim_le p
    omega
  · intro id hid
    refine ⟨?_, ?_, fun writable f g => hgood.isEnd_unique hidle⟩
    · rw [← hgood.open_iff hidle]
      simp [State.Open, hid]
    · rw [← hgood.open_iff hidle]
      simp [State.Open, hid]

/-- The first process makes a pipe and closes its reading end. -/
def pipeRun : List (Slot × Action) :=
  [(0, .pipe), (0, .pipeFile), (0, .pipePage true), (0, .pipeFd), (0, .pipeDone),
    (0, .close 0), (0, .closeFile), (0, .closePipe), (0, .closeFile)]

theorem pipeRun_is_counted : ∃ state, Reachable state ∧ (∀ p, state.control p = .idle) ∧
    state.npipes = 1 ∧ (state.pipes 0).writeopen = true ∧ (state.pipes 0).freed = 0 ∧
      ∃ f, IsEnd state 0 true f := by
  have hends : ∃ state ∈ pipeRun.foldlM (fun state move => step state move.1 move.2) start,
      (∀ p, state.control p = .idle) ∧ state.npipes = 1 ∧ (state.pipes 0).writeopen = true := by
    decide +kernel
  obtain ⟨state, hrun, hidle, hnpipes, hopen⟩ := hends
  have hreachable : Reachable state := by
    refine .mono ?_ start state (Runs.reflTransGen_of_foldlM hrun)
    rintro before after ⟨move, hstep⟩
    exact ⟨move.1, move.2, hstep⟩
  have hid : 0 < state.npipes := hnpipes ▸ Nat.one_pos
  obtain ⟨hfreed, hbetween⟩ := descriptors_are_counted hreachable
  refine ⟨state, hreachable, hidle, hnpipes, hopen, ?_, ?_⟩
  · rw [hfreed 0 hid, if_neg]
    rw [hopen]
    exact nofun
  · exact ((hbetween hidle).2.2 0 hid).2.1.1 hopen

end Runs

end Xv6Users.OpenFiles
