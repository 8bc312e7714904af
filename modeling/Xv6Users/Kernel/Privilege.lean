import Xv6Users.Core.Runs
import Xv6Users.Kernel.Processes

/-!
# Privilege is never regained

Slots of the process table are reused with the old uid in them, so processes
are followed by descent: through the steps in which they stay alive and through
the forks they finish.  In every run from `userinit` a process that is not root
keeps its uid, and so do all its descendants.
-/

namespace Xv6Users.Privilege

open Processes
open CredentialTable (Succeeds Consistent exists_succeeds consistent_of_idle)

/-- Runnable, running, sleeping or zombie. -/
def Alive (table : Table) (p : Slot) : Prop :=
  (table.proc p).state ≠ .unused ∧ (table.proc p).state ≠ .embryo
  deriving Decidable

/-- `p` is at the end of a `fork` that fills `q`. -/
def Starting (table : Table) (p q : Slot) : Prop :=
  (table.proc p).state ≠ .zombie ∧ table.control p = .forking q true
  deriving Decidable

/-- The process in `q` after a step is the one in `p` before it, or the child
that `p` starts with this step. -/
def Descends (table table' : Table) (p q : Slot) : Prop :=
  Alive table p ∧ Alive table' q ∧ (p = q ∨ ¬ Alive table q ∧ Starting table p q)

/-- The process in `q` at the end of a run is the one in `p` at its start, or
one that it transitively forked in the run. -/
inductive Line (start : Table) (p : Slot) : Table → Slot → Prop where
  | self (halive : Alive start p) : Line start p start p
  | next {table table' : Table} {q r : Slot} (hline : Line start p table q)
      (hstep : Step table table') (hdescends : Descends table table' q r) :
      Line start p table' r

variable {table table' start : Table} {q p : Slot}

theorem alive_iff : Alive table p ↔ (view table).phase p = .live := by
  change _ ↔ phase (table.proc p).state = .live
  rw [Alive]
  cases (table.proc p).state <;> simp [phase]

theorem starting_iff (halive : Alive table p) :
    Starting table p q ↔ (view table).child p = some (q, true) := by
  have hlive : phase (table.proc p).state = .live := alive_iff.1 halive
  change _ ↔ child (table.proc p) (table.control p) = _
  rw [Starting]
  cases table.control p <;> simp [child, hlive]

theorem descends_iff : Descends table table' p q ↔ Succeeds (view table) (view table') p q := by
  rw [Descends, Succeeds, ← alive_iff, ← alive_iff, ne_eq, ← alive_iff]
  constructor
  · rintro ⟨hp, hq, hnext⟩
    exact ⟨hp, hq, hnext.imp_right (And.imp_right (starting_iff hp).1)⟩
  · rintro ⟨hp, hq, hnext⟩
    exact ⟨hp, hq, hnext.imp_right (And.imp_right (starting_iff hp).2)⟩

theorem userinit_consistent (hstart : start ∈ userinit) : Consistent Agree (view start) := by
  obtain ⟨⟨table, slot⟩, halloc, rfl⟩ := Option.map_eq_some_iff.1 hstart
  obtain ⟨-, hproc, hcontrol⟩ := allocproc_eq_some halloc
  refine consistent_of_idle (fun p _ => ?_) fun p => ?_
  · simp only [view, Table.modify, hproc, Function.update_apply, Agree]
    split_ifs <;> rfl
  · simp only [view, control_modify, hcontrol]
    rfl

theorem Reachable.consistent (hreachable : Reachable table) : Consistent Agree (view table) := by
  obtain ⟨start, hstart, hrun⟩ := hreachable
  induction hrun with
  | refl => exact userinit_consistent hstart
  | tail _ hstep ih =>
    obtain ⟨action, haction⟩ := hstep
    exact ih.step (view_step ih haction)

theorem Reachable.step (hreachable : Reachable table)
    (hstep : Step table table') : Reachable table' := by
  obtain ⟨start, hstart, hrun⟩ := hreachable
  exact ⟨start, hstart, hrun.tail hstep⟩

/-- No process comes from nowhere. -/
theorem exists_descends (hreachable : Reachable table)
    (hstep : Step table table') (halive : Alive table' q) : ∃ p, Descends table table' p q := by
  obtain ⟨action, haction⟩ := hstep
  have hconsistent := Reachable.consistent hreachable
  obtain ⟨p, hsucceeds⟩ := exists_succeeds hconsistent
    (view_step hconsistent haction) (alive_iff.1 halive)
  exact ⟨p, descends_iff.2 hsucceeds⟩

/-- Every process of a run is in the line of a process at its start. -/
theorem exists_line (hreachable : Reachable start) (hrun : Relation.ReflTransGen Step start table)
    (halive : Alive table q) : ∃ p, Line start p table q := by
  induction hrun generalizing q with
  | refl => exact ⟨q, .self halive⟩
  | tail hrun hstep ih =>
    obtain ⟨first, hfirst, hbefore⟩ := hreachable
    obtain ⟨p, hdescends⟩ := exists_descends ⟨first, hfirst, hbefore.trans hrun⟩ hstep halive
    obtain ⟨ancestor, hline⟩ := ih hdescends.1
    exact ⟨ancestor, .next hline hstep hdescends⟩

theorem Descends.cred_eq (hreachable : Reachable table) (hstep : Step table table')
    (hdescends : Descends table table' p q) (hlow : (table.proc p).uid ≠ root) :
    (view table').cred q = (view table).cred p := by
  obtain ⟨action, haction⟩ := hstep
  have hconsistent := Reachable.consistent hreachable
  exact (descends_iff.1 hdescends).cred_eq hconsistent (view_step hconsistent haction) hlow

theorem Line.cred_eq (hreachable : Reachable start) (hline : Line start p table q)
    (hlow : (start.proc p).uid ≠ root) :
    Reachable table ∧ (view table).cred q = (view start).cred p := by
  induction hline with
  | self => exact ⟨hreachable, rfl⟩
  | next hline hstep hdescends ih =>
    obtain ⟨hmiddle, hcred⟩ := ih
    have huid := congrArg Prod.fst hcred
    exact ⟨Reachable.step hmiddle hstep,
      (hdescends.cred_eq hmiddle hstep fun hroot => hlow (huid.symm.trans hroot)).trans hcred⟩

/-- In every run from `userinit`, living processes have one uid, and a process
that is not root keeps its uid and hands it to all its descendants. -/
theorem privilege_not_regained {table : Table} (hreachable : Reachable table) :
    (∀ p, Alive table p → (table.proc p).euid = (table.proc p).uid) ∧
      ∀ p, Alive table p → (table.proc p).uid ≠ root → ∀ table' q, Line table p table' q →
          (table'.proc q).uid = (table.proc p).uid := by
  refine ⟨fun p halive => ?_, fun p halive hlow table' q hline => ?_⟩
  · exact (Reachable.consistent hreachable).good p (alive_iff.1 halive)
  · exact congrArg Prod.fst (hline.cred_eq hreachable hlow).2

/-- The first process forks a child, which becomes user 1000 and forks. -/
def loginRun : List Action :=
  [.schedule 0, .fork 0, .forkCopy 0, .forkReturn 0, .schedule 1, .setuid 1 (some 1000), .fork 1]

theorem loginRun_keeps_uid :
    ∃ table, Reachable table ∧ Alive table 1 ∧ (table.proc 1).uid = 1000 ∧
      ∀ table' q, Line table 1 table' q → (table'.proc q).uid = (table.proc 1).uid := by
  have hends : ∃ start ∈ userinit, ∃ table ∈ loginRun.foldlM step start,
      Alive table 1 ∧ (table.proc 1).uid = 1000 := by
    decide +kernel
  obtain ⟨start, hstart, table, hrun, halive, huid⟩ := hends
  have hreachable : Reachable table := ⟨start, hstart, Runs.reflTransGen_of_foldlM hrun⟩
  exact ⟨table, hreachable, halive, huid,
    (privilege_not_regained hreachable).2 1 halive (by simp [huid, root])⟩

end Xv6Users.Privilege
