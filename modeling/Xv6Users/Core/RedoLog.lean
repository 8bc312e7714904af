import Mathlib

/-!
# A redo log

Writes to home addresses are collected in memory, copied to slots of a log, made
permanent by one write of a header that names their addresses, and then copied
home.  A crash at any point loses the memory; recovery copies home what the
header names.  The contents of the home addresses are then those of exactly the
transactions whose header was written.
-/

namespace Xv6Users.RedoLog

open Function

variable {Addr Value : Type} [DecidableEq Addr] {addr : Addr} {slots : ℕ → Value}
  {home : Addr → Value} {header : List Addr} {tail : ℕ}

/-! ## Transactions -/

inductive Event (Addr Value : Type) where
  | store (addr : Addr) (value : Value)
  | commit
  | crash
  | silent

/-- The transactions whose header was written, and the writes since then. -/
structure History (Addr Value : Type) where
  committed : List (List (Addr × Value))
  pending : List (Addr × Value)

/-- A header makes the pending writes a transaction; a crash forgets them. -/
def History.record (history : History Addr Value) :
    Event Addr Value → History Addr Value
  | .store addr value => { history with pending := history.pending ++ [(addr, value)] }
  | .commit => ⟨history.committed ++ [history.pending], []⟩
  | .crash => { history with pending := [] }
  | .silent => history

def historyOf (events : List (Event Addr Value)) : History Addr Value :=
  events.foldl History.record ⟨[], []⟩

def applyWrites (contents : Addr → Value) (writes : List (Addr × Value)) : Addr → Value :=
  writes.foldl (fun contents write => update contents write.1 write.2)
    contents

def History.contents (history : History Addr Value) (initial : Addr → Value) : Addr → Value :=
  history.committed.foldl applyWrites initial

theorem applyWrites_congr {left right : Addr → Value}
    (writes : List (Addr × Value)) (hsame : left addr = right addr) :
    applyWrites left writes addr = applyWrites right writes addr := by
  induction writes generalizing left right with
  | nil => exact hsame
  | cons write rest ih =>
    apply ih
    by_cases haddr : addr = write.1
    · simp only [haddr, update_self]
    · simp only [update_of_ne haddr, hsame]

/-- The contents of an address depend on nothing initial but its own value. -/
theorem History.contents_congr (history : History Addr Value)
    {left right : Addr → Value} (hsame : left addr = right addr) :
    history.contents left addr = history.contents right addr := by
  obtain ⟨committed, pending⟩ := history
  induction committed generalizing left right with
  | nil => exact hsame
  | cons writes rest ih => exact ih (applyWrites_congr writes hsame)

/-! ## The machine -/

inductive Phase where
  | running
  | logging (tail : ℕ)
  | installing (tail : ℕ)
  | crashed
  deriving DecidableEq

/-- `home`, `slots` and `header` survive a crash.  `names` are the addresses of
the open transaction and `data` is what the memory knows of the contents. -/
structure Machine (Addr Value : Type) where
  home : Addr → Value
  slots : ℕ → Value
  header : List Addr
  names : List Addr
  data : Addr → Value
  phase : Phase

def addName (names : List Addr) (addr : Addr) : List Addr :=
  if addr ∈ names then names else names ++ [addr]

inductive Step : Machine Addr Value → Event Addr Value → Machine Addr Value →
    Prop where
  | store {machine : Machine Addr Value} (addr : Addr) (value : Value)
      (hphase : machine.phase = .running) :
      Step machine (.store addr value)
        { machine with
          data := update machine.data addr value
          names := addName machine.names addr }
  | start {machine : Machine Addr Value} (hphase : machine.phase = .running) :
      Step machine .silent { machine with phase := .logging 0 }
  | log {machine : Machine Addr Value} {tail : ℕ} {addr : Addr}
      (hphase : machine.phase = .logging tail)
      (haddr : machine.names[tail]? = some addr) :
      Step machine .silent
        { machine with
          slots := update machine.slots tail (machine.data addr)
          phase := .logging (tail + 1) }
  | commit {machine : Machine Addr Value}
      (hphase : machine.phase = .logging machine.names.length) :
      Step machine .commit
        { machine with header := machine.names, phase := .installing 0 }
  | install {machine : Machine Addr Value} {tail : ℕ} {addr : Addr}
      (hphase : machine.phase = .installing tail)
      (haddr : machine.names[tail]? = some addr) :
      Step machine .silent
        { machine with
          home := update machine.home addr (machine.slots tail)
          data := update machine.data addr (machine.slots tail)
          phase := .installing (tail + 1) }
  | clear {machine : Machine Addr Value}
      (hphase : machine.phase = .installing machine.names.length) :
      Step machine .silent
        { machine with header := [], names := [], phase := .running }
  | crash {machine : Machine Addr Value} :
      Step machine .crash
        { machine with names := [], data := machine.home, phase := .crashed }
  | recover {machine : Machine Addr Value} (hphase : machine.phase = .crashed) :
      Step machine .silent
        { machine with names := machine.header, phase := .installing 0 }
  | silent {machine : Machine Addr Value} : Step machine .silent machine

/-! ## The invariant -/

/-- What survives a crash is enough to rebuild the contents. -/
structure Recoverable (contents home : Addr → Value) (slots : ℕ → Value)
    (header : List Addr) : Prop where
  slots : ∀ tail addr, header[tail]? = some addr → slots tail = contents addr
  home : ∀ addr, addr ∉ header → home addr = contents addr

/-- The memory holds the contents with the pending writes, and only named
addresses differ. -/
structure Collecting (contents : Addr → Value) (pending : List (Addr × Value))
    (machine : Machine Addr Value) : Prop where
  header : machine.header = []
  home : machine.home = contents
  data : machine.data = applyWrites contents pending
  named : ∀ addr, addr ∉ machine.names → machine.data addr = contents addr

/-- What holds in each phase, for the contents of the history so far. -/
def Invariant (contents : Addr → Value) (pending : List (Addr × Value))
    (machine : Machine Addr Value) : Prop :=
  match machine.phase with
  | .running => Collecting contents pending machine
  | .logging done => Collecting contents pending machine ∧
      ∀ tail addr, tail < done → machine.names[tail]? = some addr →
        machine.slots tail = machine.data addr
  | .installing done => pending = [] ∧ machine.header = machine.names ∧
      Recoverable contents machine.home machine.slots machine.header ∧
      (∀ tail addr, tail < done → machine.names[tail]? = some addr →
        machine.home addr = contents addr) ∧
      ∀ addr, machine.data addr = machine.home addr ∨ machine.data addr = contents addr
  | .crashed => pending = [] ∧ machine.data = machine.home ∧
      Recoverable contents machine.home machine.slots machine.header

section Steps

variable {contents initial : Addr → Value} {pending : List (Addr × Value)}
  {machine machine' : Machine Addr Value} {history : History Addr Value}
  {event : Event Addr Value}

theorem mem_addName {names : List Addr} {other : Addr} :
    other ∈ addName names addr ↔ other ∈ names ∨ other = addr := by
  unfold addName
  split
  case isTrue hmem =>
    constructor
    · exact .inl
    · rintro (hother | rfl)
      · exact hother
      · exact hmem
  case isFalse => simp

/-- A machine can be recovered in every phase. -/
theorem Invariant.recoverable (hinv : Invariant contents pending machine) :
    Recoverable contents machine.home machine.slots machine.header := by
  have hempty : machine.header = [] → machine.home = contents →
      Recoverable contents machine.home machine.slots machine.header := by
    intro hheader hhome
    exact ⟨by simp [hheader], fun addr _ => congrFun hhome addr⟩
  unfold Invariant at hinv
  split at hinv
  · exact hempty hinv.header hinv.home
  · exact hempty hinv.1.header hinv.1.home
  · exact hinv.2.2.1
  · exact hinv.2.2

theorem History.contents_commit (history : History Addr Value) :
    (history.record .commit).contents initial =
      applyWrites (history.contents initial) history.pending := by
  simp [History.record, History.contents]

theorem Collecting.store (hcollecting : Collecting contents pending machine)
    (addr : Addr) (value : Value) :
    Collecting contents (pending ++ [(addr, value)])
      { machine with
        data := update machine.data addr value
        names := addName machine.names addr } := by
  refine ⟨hcollecting.header, hcollecting.home, ?_, fun other hother => ?_⟩
  · simp [applyWrites, hcollecting.data]
  · rw [mem_addName, not_or] at hother
    calc update machine.data addr value other
        = machine.data other := update_of_ne hother.2 _ _
      _ = contents other := hcollecting.named other hother.1

omit [DecidableEq Addr] in
/-- One more slot is written. -/
theorem slots_log (haddr : machine.names[tail]? = some addr)
    (hslots : ∀ index other, index < tail → machine.names[index]? = some other →
      machine.slots index = machine.data other)
    (index : ℕ) (other : Addr) (hindex : index < tail + 1)
    (hother : machine.names[index]? = some other) :
    update machine.slots tail (machine.data addr) index = machine.data other := by
  by_cases hsame : index = tail
  · subst hsame
    rw [update_self, Option.some.inj (haddr.symm.trans hother)]
  · rw [update_of_ne hsame]
    apply hslots index other _ hother
    omega

/-- A home address receives its slot, which holds the contents already. -/
theorem Recoverable.install (hrecover : Recoverable contents home slots header)
    (haddr : header[tail]? = some addr) (other : Addr) :
    update home addr (slots tail) other =
      if other = addr then contents addr else home other := by
  by_cases hsame : other = addr
  · rw [if_pos hsame, hsame, update_self, hrecover.slots tail addr haddr]
  · rw [if_neg hsame, update_of_ne hsame]

/-- When all named addresses are installed the home addresses are the contents. -/
theorem Recoverable.home_eq (hrecover : Recoverable contents home slots header)
    (hdone : ∀ tail addr, tail < header.length → header[tail]? = some addr →
      home addr = contents addr) : home = contents := by
  funext addr
  by_cases hmem : addr ∈ header
  · obtain ⟨tail, hlt, hget⟩ := List.mem_iff_getElem.1 hmem
    exact hdone tail addr hlt (List.getElem?_eq_some_iff.2 ⟨hlt, hget⟩)
  · exact hrecover.home addr hmem

/-- Every step keeps the invariant, for the history it extends. -/
theorem Invariant.step (hinv : Invariant (history.contents initial) history.pending machine)
    (hstep : Step machine event machine') :
    Invariant ((history.record event).contents initial)
      (history.record event).pending machine' := by
  have hrecoverable := hinv.recoverable
  cases hstep with
  | store addr value hphase =>
    simp only [Invariant, hphase] at hinv
    have hstore := hinv.store addr value
    rw [hphase] at hstore ⊢
    exact hstore
  | start hphase =>
    simp only [Invariant, hphase] at hinv
    exact ⟨⟨hinv.header, hinv.home, hinv.data, hinv.named⟩, by simp⟩
  | @log tail addr hphase haddr =>
    simp only [Invariant, hphase] at hinv
    obtain ⟨⟨hheader, hhome, hdata, hnamed⟩, hslots⟩ := hinv
    exact ⟨⟨hheader, hhome, hdata, hnamed⟩, slots_log haddr hslots⟩
  | commit hphase =>
    simp only [Invariant, hphase] at hinv
    obtain ⟨hcollecting, hslots⟩ := hinv
    rw [History.contents_commit, ← hcollecting.data]
    refine ⟨rfl, rfl, ⟨fun tail addr haddr => ?_, fun addr hnot => ?_⟩,
      fun _ _ hlt => absurd hlt (Nat.not_lt_zero _), fun addr => .inr rfl⟩
    · exact hslots tail addr (List.getElem?_eq_some_iff.1 haddr).1 haddr
    · calc machine.home addr
          = history.contents initial addr := congrFun hcollecting.home addr
        _ = machine.data addr := (hcollecting.named addr hnot).symm
  | @install tail addr hphase haddr =>
    simp only [Invariant, hphase] at hinv
    obtain ⟨hpending, hheader, hrecover, hdone, hdata⟩ := hinv
    have hget : machine.header[tail]? = some addr := by rw [hheader, haddr]
    have hmem : addr ∈ machine.header := List.mem_of_getElem? hget
    have hhome := hrecover.install hget
    refine ⟨hpending, hheader, ⟨hrecover.slots, fun other hnot => ?_⟩,
      fun index other hindex hother => ?_, fun other => ?_⟩
    · have hne : other ≠ addr := fun hsame => hnot (hsame ▸ hmem)
      exact (hhome other).trans ((if_neg hne).trans (hrecover.home other hnot))
    · apply (hhome other).trans
      split
      case isTrue hsame => exact congrArg _ hsame.symm
      case isFalse hne =>
        apply hdone index other _ hother
        -- the address at the tail is the one that was just installed
        apply lt_of_le_of_ne (Nat.le_of_lt_succ hindex)
        intro hsame
        subst hsame
        exact hne (Option.some.inj (hother.symm.trans haddr))
    · by_cases hsame : other = addr
      · exact .inr ((congrArg _ hsame).trans ((update_self ..).trans
          ((hrecover.slots tail addr hget).trans (congrArg _ hsame.symm))))
      · have hupdate (old : Addr → Value) :
            update old addr (machine.slots tail) other = old other := update_of_ne hsame _ _
        exact (hdata other).imp (fun h => (hupdate _).trans (h.trans (hupdate _).symm))
          (hupdate _).trans
  | clear hphase =>
    simp only [Invariant, hphase] at hinv
    obtain ⟨hpending, hheader, hrecover, hdone, hdata⟩ := hinv
    rw [← hheader] at hdone
    have hhome := hrecover.home_eq hdone
    have hall : machine.data = history.contents initial := by
      funext addr
      apply (hdata addr).elim _ id
      intro hsame
      rw [hsame, hhome]
    refine ⟨rfl, hhome, ?_, fun addr _ => congrFun hall addr⟩
    show machine.data = applyWrites (history.contents initial) history.pending
    rw [hpending, hall]
    rfl
  | crash => exact ⟨rfl, rfl, hrecoverable⟩
  | recover hphase =>
    simp only [Invariant, hphase] at hinv
    obtain ⟨hpending, hdata, hrecover⟩ := hinv
    exact ⟨hpending, rfl, hrecover, fun _ _ hlt => absurd hlt (Nat.not_lt_zero _),
      fun addr => .inl (congrFun hdata addr)⟩
  | silent => exact hinv

end Steps

end Xv6Users.RedoLog
