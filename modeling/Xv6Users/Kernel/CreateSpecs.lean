import Xv6Users.Kernel.CallSpecs

/-!
# Checks, creation and opening

Contracts for `validateRead`, `validateWrite`, `create` and `sys_open`.  A check
passes exactly if the directory of the last path element grants the right or the
element is exempt; the directory it looks at is the one that `create` writes.
-/

namespace Xv6Users.CreateSpecs

open Contracts Processes Inodes InodeAccount Moves InodeSpecs Syscalls CallSpecs Set

section Checks

variable {run : Run} {flight kept : Ip → ℕ} {state start : State} {footprint : Footprint}

/-- What `validateRead` and `validateWrite` ask for, on the recorded state. -/
def Permitted (right : UInt32) (state : State) (curproc : Slot) (path stale : List Byte) : Prop :=
  isExempt (resolve state curproc true path stale).2 ∨
    ∃ inum, (resolve state curproc true path stale).1 = some inum ∧
      grants right (recorded state inum) (state.table.proc curproc).uid

theorem grants_congr (right : UInt32) (uid : ℤ) {left info : Dinode}
    (huid : left.uid = info.uid) (hmode : left.mode = info.mode) :
    grants right left uid ↔ grants right info uid := by
  rw [grants, grants, huid, hmode]

/-- What is found in the cache after looking is what was recorded. -/
theorem rights_of_looks {state' : State} (hlooks : Frame looks state state') (inum : ℕ) :
    (recorded state' inum).uid = (recorded state inum).uid ∧
      (recorded state' inum).mode = (recorded state inum).mode := by
  have hsame := hlooks.same inum (hlooks.gen_eq inum (notMem_empty inum))
  exact ⟨(hsame.owner (notMem_empty inum)).1, hsame.mode (notMem_empty inum)⟩

/-- A loaded copy is what is recorded. -/
theorem recorded_of_valid (hacc : Accounted flight state) {ip : Ip}
    (hlive : Live state ip) (hvalid : (state.icache ip).valid) :
    recorded state (state.icache ip).inum = (state.icache ip).info := by
  rw [recorded_of_live hacc hlive, shown, if_pos hvalid]

/-- The reference to the directory that is looked at is not given back. -/
theorem validateParent_spec (right : UInt32) (curproc : Slot)
    (path stale : List Byte) (hstart : Frame looks start state) (hacc : run.At flight state)
    (hleaks : ∀ inum, (resolve start curproc true path stale).1 = some inum → run.leaks) :
    run.Does (validateParent right curproc path stale) state looks fun result state' =>
      run.After flight flight state state' ∧
        (0 ≤ result ↔ Permitted right start curproc path stale) := by
  refine .gets_bind ?_
  rw [uid_of_looks hstart]
  refine (namex_spec curproc path true stale (hstart.mono (looks_le keepsTree)) hacc).bind
    fun found looked hframe hfound => ?_
  obtain ⟨found, name⟩ := found
  obtain ⟨hafter, hresolve⟩ := hfound
  have hkept : ∀ jp, flight jp ≤ (flight + taken found) jp := fun jp => by simp
  have hexempts : isExempt name → Permitted right start curproc path stale := by
    intro hexempt
    rw [Permitted, hresolve]
    exact .inl hexempt
  cases found with
  | none =>
    split_ifs with hexempt
    · exact .pure ⟨⟨hafter.nothing, hafter.keeps⟩, iff_of_true (by norm_num) (hexempts hexempt)⟩
    · exact .halt _
  | some ip =>
    have hleaks := hleaks _ (congrArg Prod.fst hresolve)
    split_ifs with hexempt
    · exact .pure ⟨⟨hafter.now.weaken hleaks hkept, hafter.keeps⟩,
        iff_of_true (by norm_num) (hexempts hexempt)⟩
    · have hacc' : run.At (flight + one ip) looked := hafter.now
      refine (ilock_spec hacc' curproc (hacc'.live (by simp))).bind
        fun _ locked hframe' hlock => ?_
      obtain ⟨hlocked, hvalid, hinum⟩ := hlock
      have hlive : Live locked ip := hlocked.now.live (by simp)
      refine .gets_bind ?_
      refine (iunlock_spec hlocked.now curproc hlive).bind
        fun _ unlocked _ hunlock => ?_
      refine .pure ⟨⟨hunlock.now.weaken hleaks hkept, hafter.keeps.trans
        ((hlocked.keeps.trans hunlock.keeps).weaken hkept)⟩, ?_⟩
      have hlooks : Frame looks start locked :=
        IsTrans.trans _ _ _ hstart (IsTrans.trans _ _ _ hframe hframe')
      have hrights := rights_of_looks hlooks (locked.icache ip).inum
      rw [recorded_of_valid hlocked.now.accounted hlive hvalid] at hrights
      have hgrants := grants_congr right (start.table.proc curproc).uid
        hrights.1 hrights.2
      rw [Permitted, hresolve]
      simp only [hexempt, false_or, Option.map_some, Option.some_inj, exists_eq_left']
      rw [← hinum, ← hgrants]
      split_ifs with hyes
      · exact iff_of_true (by norm_num) hyes
      · exact iff_of_false (by norm_num) hyes

theorem checkWhen_spec {condition : Prop} [Decidable condition] {check : K ℤ}
    {permitted : Prop} (hacc : run.At flight state)
    (hcheck : condition → run.Does check state looks fun result state' =>
      run.After flight flight state state' ∧ (0 ≤ result ↔ permitted)) :
    run.Does (checkWhen condition check) state looks fun result state' =>
      run.After flight flight state state' ∧ (0 ≤ result ↔ (condition → permitted)) := by
  rw [checkWhen]
  split_ifs with hcondition
  · refine (hcheck hcondition).mono (fun _ => id) ?_
    rintro result state' - ⟨hafter, hresult⟩
    exact ⟨hafter, hresult.trans ⟨fun h _ => h, fun h => h hcondition⟩⟩
  · exact .pure ⟨hacc.after, iff_of_true (by norm_num) fun h => absurd h hcondition⟩

end Checks

variable {path : List Byte}

section Creation

variable {run : Run} {flight kept : Ip → ℕ} {state start : State} {dp ip : Ip}
  {footprint : Footprint}

theorem initInode_spec (htree : run.tree) (hacc : run.At flight state)
    (hlive : Live state ip) (hvalid : (state.icache ip).valid)
    (hmode : (state.icache ip).inum ∈ footprint.mode) (major minor : ℤ) :
    run.Does (initInode ip major minor) state footprint fun _ state' =>
      run.After flight flight state state' :=
  storeInfo_spec htree hacc hlive hvalid
    (fun info => { info with major, minor, nlink := 1, mode := 0o644 }) (fun _ => rfl)
    (fun _ => ⟨rfl, rfl⟩) (.inl hmode)

/-- The entries of a new directory. -/
theorem makeDots_spec (htree : run.tree) (hacc : run.At flight state)
    (hdp : 1 ≤ flight dp ∧ (state.icache dp).valid) (hip : 1 ≤ flight ip ∧ (state.icache ip).valid)
    (hnew : start.gen (state.icache ip).inum < state.gen (state.icache ip).inum) :
    run.DoesSince start (makeDots dp ip) state footprint fun _ state' =>
      run.After flight flight state state' := by
  refine ((updateLinks_spec htree hacc (hacc.live hdp.1) hdp.2 1).looking.since start).bind
    fun _ counted _ hcount => ?_
  obtain ⟨hlooks, hcount⟩ := hcount
  refine .gets_bind (.gets_bind ?_)
  -- Both entries go to the new inode.
  have hlink : ∀ (name : List Byte) (inum : ℕ) (state' : State), run.Names name →
      run.After flight flight state state' →
      (∀ inum, state.gen inum ≤ state'.gen inum) →
      run.DoesSince start (dirlink ip name inum) state' footprint fun _ state'' =>
        run.After flight flight state state'' ∧ ∀ inum, state.gen inum ≤ state''.gen inum := by
    intro name inum state' hname hafter hgen
    have hkeep := hafter.keeps ip hip.1
    have hdoes : run.Does (dirlink ip name inum) state'
        ⟨∅, {(state.icache ip).inum}, {(state.icache ip).inum},
          {(state.icache ip).inum}, footprint.outer⟩ fun _ state'' =>
            run.After flight flight state' state'' :=
      dirlink_spec htree hafter.now hip.1 (hkeep.2 hip.2).1 (mem_singleton_of_eq hkeep.1) hname inum
    refine (hdoes.framed.since_new ?_).mono (fun _ => id) ?_
    · rintro inum rfl
      exact hnew.trans_le (hgen _)
    · rintro _ state'' - ⟨hframe, hafter'⟩
      exact ⟨⟨hafter'.now, hafter.keeps.trans hafter'.keeps⟩,
        fun inum => (hgen inum).trans (hframe.gen_le inum)⟩
  refine (hlink dot _ counted (.inl rfl) hcount hlooks.gen_le).bind
    fun first middle _ hfirst => ?_
  split_ifs
  · exact .halt _
  refine (hlink dotdot _ middle (.inr (.inl rfl)) hfirst.1 hfirst.2).bind
    fun second last _ hsecond => ?_
  split_ifs
  · exact .halt _
  · exact .pure hsecond.1

section

variable (htree : run.tree) (hfresh : footprint.fresh = univ)

include htree hfresh

theorem createNew_spec (hacc : run.At (kept + one dp) state) (hvalid : (state.icache dp).valid)
    (hdata : (state.icache dp).inum ∈ footprint.data) (curproc : Slot)
    {name : List Byte} (hname : run.Names name) (type : FileType) (major minor : ℤ) :
    run.Does (createNew curproc dp name type major minor) state footprint
      fun found state' => run.At (kept + taken found) state' ∧
        ∀ ip ∈ found, (state'.icache ip).valid ∧ (state'.icache ip).info.type = type := by
  apply Run.DoesSince.does
  refine ((ialloc_spec htree hacc hfresh type).framed.since state).bind
    fun ip allocated _ halloc => ?_
  obtain ⟨hframe, halloc, hgen, htype⟩ := halloc
  have hdp : 1 ≤ (kept + one dp + one ip) dp := by
    simp only [Pi.add_apply, one_self]
    omega
  have hdpkeep := halloc.keeps dp (by simp)
  have hdpvalid := (hdpkeep.2 hvalid).1
  refine ((ilock_spec halloc.now curproc (halloc.now.live (by simp))).looking.since state).bind
      fun _ locked _ hlock => ?_
  obtain ⟨hlooks, hlocked, hipvalid, hinum⟩ := hlock
  have hnew : state.gen (locked.icache ip).inum < locked.gen (locked.icache ip).inum := by
    rw [hinum]
    exact hgen.trans_le (hlooks.gen_le _)
  have hiptype : (locked.icache ip).info.type = type := by
    have hlive : Live locked ip := hlocked.now.live (by simp)
    have hloaded := loaded_eq hlocked.now.accounted (hlooks.mono (looks_le keepsTree))
      hlive hipvalid
    have hthere := (hlocked.now.accounted.typed ip hlive hipvalid).2
    rw [hloaded.1, hinum] at hthere ⊢
    exact htype.resolve_right hthere
  have hinit : run.Does (initInode ip major minor) locked
      ⟨∅, {(locked.icache ip).inum}, {(locked.icache ip).inum},
        {(locked.icache ip).inum}, footprint.outer⟩ fun _ state' =>
          run.After (kept + one dp + one ip) (kept + one dp + one ip) locked state' :=
    initInode_spec htree hlocked.now (hlocked.now.live (by simp)) hipvalid
      (mem_singleton _) major minor
  refine (hinit.framed.since_new ?_).bind fun _ inited _ hinited => ?_
  · rintro inum rfl
    exact hnew
  obtain ⟨hinitframe, hinited⟩ := hinited
  have hdplock := hlocked.keeps dp hdp
  have hdpvalid := (hdplock.2 hdpvalid).1
  have hdpinit := hinited.keeps dp hdp
  have hdpvalid := (hdpinit.2 hdpvalid).1
  have hipinit := hinited.keeps ip (by simp)
  have hdots : run.DoesSince state (whenever (type = .dir) (makeDots dp ip)) inited
      footprint fun _ state' => run.After (kept + one dp + one ip)
        (kept + one dp + one ip) inited state' := by
    rw [whenever]
    split_ifs
    · refine makeDots_spec htree hinited.now ⟨hdp, hdpvalid⟩ ⟨by simp, (hipinit.2 hipvalid).1⟩ ?_
      rw [hipinit.1]
      exact hnew.trans_le (hinitframe.gen_le _)
    · exact .pure hinited.now.after
  refine hdots.bind fun _ dotted _ hdotted => ?_
  have hdpdots := hdotted.keeps dp hdp
  have hdpvalid := (hdpdots.2 hdpvalid).1
  refine .gets_bind ?_
  refine ((dirlink_spec htree hdotted.now hdp hdpvalid ?_ hname _).since state).bind
      fun linked written _ hlink => ?_
  · rw [hdpdots.1, hdpinit.1, hdplock.1, hdpkeep.1]
    exact hdata
  split_ifs
  · exact .halt _
  have hacc' : run.At (kept + one ip + one dp) written := by
    rw [add_right_comm]
    exact hlink.now
  refine ((iunlockput_spec hacc' curproc).since state).bind fun _ put _ hput => ?_
  refine .pure ⟨hput.now, ?_⟩
  intro jp hjp
  cases hjp
  have hstays : Stays (one ip) locked put :=
    ((hinited.keeps.weaken fun jp => by simp).trans
      (hdotted.keeps.weaken fun jp => by simp)).trans
        ((hlink.keeps.weaken fun jp => by simp).trans (hput.keeps.weaken fun jp => by simp))
  have hlast := (hstays ip (by simp)).2 hipvalid
  exact ⟨hlast.1, hlast.2.trans hiptype⟩

theorem createAt_spec (hstart : Frame keepsTree start state) (hacc : run.At flight state)
    (curproc : Slot) (hpath : path ∈ run.paths)
    (hdata : ∀ inum, (resolve start curproc true path []).1 = some inum →
      inum ∈ footprint.data) (type : FileType) (major minor : ℤ) :
    run.Does (createAt curproc path type major minor) state footprint fun found state' =>
      run.At (flight + taken found) state' ∧ ∀ ip ∈ found, (state'.icache ip).valid ∧
          (type ≠ .dir → (state'.icache ip).info.type ≠ .dir) := by
  refine (namex_spec curproc path true [] hstart hacc).looking.bind
    fun found looked _ hfound => ?_
  obtain ⟨found, name⟩ := found
  obtain ⟨-, hafter, hresolve⟩ := hfound
  cases found with
  | none => exact .pure ⟨hafter.now, by simp⟩
  | some dp =>
    have hacc' : run.At (flight + one dp) looked := hafter.now
    refine (ilock_spec hacc' curproc (hacc'.live (by simp))).bind
      fun _ locked _ hlock => ?_
    have hwritten : (locked.icache dp).inum ∈ footprint.data := by
      apply hdata
      rw [hresolve, hlock.2.2]
      rfl
    refine (dirlookup_spec hlock.1.now name).bind
      fun entry entered _ hentry => ?_
    have hdp := hentry.1.keeps dp (by simp)
    cases entry with
    | none =>
      have hname : run.Names name := .inr (.inr ⟨path, hpath, resolve_mem hresolve⟩)
      refine (createNew_spec htree hfresh hentry.1.nothing (hdp.2 hlock.2.1).1
        (hdp.1 ▸ hwritten) curproc hname type major minor).mono (fun _ => id) ?_
      rintro found state' - ⟨hnow, hnew⟩
      refine ⟨hnow, fun ip hip => ⟨(hnew ip hip).1, fun htype => ?_⟩⟩
      rw [(hnew ip hip).2]
      exact htype
    | some entry =>
      obtain ⟨ip, off⟩ := entry
      have hacc'' : run.At (flight + one ip + one dp) entered := by
        rw [add_right_comm]
        exact hentry.1.now
      refine (iunlockput_spec hacc'' curproc).bind fun _ put _ hput => ?_
      refine (ilock_spec hput.now curproc
        (hput.now.live (by simp))).bind fun _ opened _ hopened => ?_
      refine .gets_bind ?_
      split_ifs with hsuits
      · refine .pure ⟨hopened.1.now, ?_⟩
        intro jp hjp
        cases hjp
        refine ⟨hopened.2.1, fun _ hdir => ?_⟩
        rw [hdir] at hsuits
        simp at hsuits
      · refine (iunlockput_spec hopened.1.now curproc).bind
          fun _ _ _ hput' => ?_
        exact .pure ⟨hput'.now, by simp⟩

/-- The directory is written by root or where the check passes. -/
theorem create_spec (hstart : Frame looks start state) (hacc : run.At flight state)
    (curproc : Slot) (stale : List Byte) (hpath : path ∈ run.paths)
    (hleaks : (start.table.proc curproc).uid ≠ root → ∀ inum,
      (resolve start curproc true path stale).1 = some inum → run.leaks)
    (hdata : ((start.table.proc curproc).uid ≠ root →
        Permitted writeRight start curproc path stale) →
      ∀ inum, (resolve start curproc true path []).1 = some inum →
        inum ∈ footprint.data) (type : FileType) (major minor : ℤ) :
    run.Does (create curproc path type major minor stale) state footprint
      fun found state' => run.At (flight + taken found) state' ∧
        (∀ ip ∈ found, (state'.icache ip).valid ∧
          (type ≠ .dir → (state'.icache ip).info.type ≠ .dir)) ∧
        (found.isSome → (start.table.proc curproc).uid ≠ root →
          Permitted writeRight start curproc path stale) := by
  refine .gets_bind ?_
  rw [uid_of_looks hstart]
  refine (checkWhen_spec hacc fun huser => validateParent_spec writeRight curproc path
    stale hstart hacc (hleaks huser)).looking.bind fun allowed checked _ hchecked => ?_
  obtain ⟨hlooks, hafter, hallowed⟩ := hchecked
  split_ifs with hdenied
  · exact .pure ⟨by simpa [taken] using hafter.now, by simp, by simp⟩
  · have hpermitted := hallowed.1 (not_lt.1 hdenied)
    have hlooked : Frame looks start checked := IsTrans.trans _ _ _ hstart hlooks
    refine (createAt_spec htree hfresh (hlooked.mono (looks_le keepsTree)) hafter.now
      curproc hpath (hdata hpermitted) type major minor).mono (fun _ => id) ?_
    rintro found state' - ⟨hacc', hvalid⟩
    exact ⟨hacc', hvalid, fun _ => hpermitted⟩

end

end Creation

section Opening

variable {run : Run} {flight kept : Ip → ℕ} {state start : State} {ip : Ip}
  {footprint : Footprint}

/-- What a call of `open` has checked for a user. -/
def Checked (state : State) (curproc : Slot) (path : List Byte) (omode : UInt32)
    (stale : List Byte) : Prop :=
  (omode = oRdonly ∨ omode = oRdwr → Permitted readRight state curproc path stale) ∧
    (omode = oWronly ∨ omode = oRdwr ∨ omode = oCreate →
      Permitted writeRight state curproc path stale)

def LooksUp (omode : UInt32) : Prop :=
  omode = oRdonly ∨ omode = oWronly ∨ omode = oRdwr ∨ omode &&& oCreate ≠ 0
  deriving Decidable

theorem checkOpen_spec (hacc : run.At flight state) (curproc : Slot)
    (path : List Byte) (omode : UInt32) (stale : List Byte)
    (hleaks : (state.table.proc curproc).uid ≠ root → LooksUp omode → ∀ inum,
      (resolve state curproc true path stale).1 = some inum → run.leaks) :
    run.Does (checkOpen curproc path omode stale) state looks fun result state' =>
      run.After flight flight state state' ∧
        (result = true ↔ ((state.table.proc curproc).uid ≠ root →
          Checked state curproc path omode stale)) := by
  refine .gets_bind ?_
  split_ifs with huser
  · have hread : omode = oRdonly ∨ omode = oRdwr → LooksUp omode := by
      rintro (h | h)
      · exact .inl h
      · exact .inr (.inr (.inl h))
    have hwrite : omode = oWronly ∨ omode = oRdwr ∨ omode = oCreate → LooksUp omode := by
      rintro (h | h | h)
      · exact .inr (.inl h)
      · exact .inr (.inr (.inl h))
      · exact .inr (.inr (.inr (by rw [h]; decide)))
    refine (checkWhen_spec hacc fun hchecks => validateParent_spec readRight curproc path
      stale (Std.Refl.refl state) hacc (hleaks huser (hread hchecks))).bind
        fun readable checked hframe hchecked => ?_
    obtain ⟨hafter, hreadable⟩ := hchecked
    split_ifs with hdenied
    · refine .pure ⟨hafter, ?_⟩
      refine iff_of_false (by simp) fun hall => ?_
      exact absurd (hreadable.2 (hall huser).1) (not_le.2 hdenied)
    · refine (checkWhen_spec hafter.now fun hchecks => validateParent_spec writeRight
        curproc path stale hframe hafter.now (hleaks huser (hwrite hchecks))).bind
          fun writable last _ hlast => ?_
      refine .pure ⟨⟨hlast.1.now, hafter.keeps.trans hlast.1.keeps⟩, ?_⟩
      rw [decide_eq_true_iff, hlast.2]
      have hread := hreadable.1 (not_lt.1 hdenied)
      exact ⟨fun hwrite _ => ⟨hread, hwrite⟩, fun hall => (hall huser).2⟩
  · exact .pure ⟨hacc.after, iff_of_true rfl fun h => absurd h huser⟩

theorem openInode_spec (htree : run.tree) (hfresh : footprint.fresh = univ)
    (hstart : Frame looks start state) (hacc : run.At flight state)
    (curproc : Slot) (omode : UInt32) (stale : List Byte) (hpath : path ∈ run.paths)
    (hleaks : (start.table.proc curproc).uid ≠ root → LooksUp omode → ∀ inum,
      (resolve start curproc true path stale).1 = some inum → run.leaks)
    (hdata : ((start.table.proc curproc).uid ≠ root →
        Permitted writeRight start curproc path stale) →
      ∀ inum, (resolve start curproc true path []).1 = some inum → inum ∈ footprint.data) :
    run.Does (openInode curproc path omode stale) state footprint fun found state' =>
      run.At (flight + taken found) state' ∧ (∀ ip ∈ found, (state'.icache ip).valid ∧
          (omode ≠ oRdonly → (state'.icache ip).info.type ≠ .dir)) ∧
        (found.isSome → omode &&& oCreate ≠ 0 → (start.table.proc curproc).uid ≠ root →
            Permitted writeRight start curproc path stale) := by
  rw [openInode]
  split_ifs with hcreate
  · refine (create_spec htree hfresh hstart hacc curproc stale hpath
      (fun huser => hleaks huser (.inr (.inr (.inr hcreate)))) hdata .file 0 0).mono
        (fun _ => id) ?_
    rintro found state' - ⟨hacc', hfound, hpermitted⟩
    exact ⟨hacc', fun ip hip => ⟨(hfound ip hip).1, fun _ => (hfound ip hip).2 (by decide)⟩,
      fun hsome _ => hpermitted hsome⟩
  · refine (namei_spec curproc path (Std.Refl.refl state) hacc).looking.bind
      fun found looked _ hfound => ?_
    cases found with
    | none => exact .pure ⟨hfound.2.1.now, by simp, by simp⟩
    | some ip =>
      have hacc' : run.At (flight + one ip) looked := hfound.2.1.now
      refine (ilock_spec hacc' curproc (hacc'.live (by simp))).bind
        fun _ locked _ hlock => ?_
      refine .gets_bind ?_
      split_ifs with hdenied
      · refine (iunlockput_spec hlock.1.now curproc).bind
          fun _ _ _ hput => ?_
        exact .pure ⟨by simpa [taken] using hput.now, by simp, by simp⟩
      · refine .pure ⟨hlock.1.now, ?_, fun _ h => absurd h hcreate⟩
        intro jp hjp
        cases hjp
        exact ⟨hlock.2.1, fun hwrites hdir => hdenied ⟨hdir, hwrites⟩⟩

theorem fdalloc_spec (houter : footprint.outer) (hacc : run.At flight state)
    (curproc : Slot) (fp : Fp) :
    run.Does (fdalloc curproc fp) state footprint fun found state' =>
      run.After flight flight state state' ∧
        (state'.icache = state.icache ∧ state'.ftable = state.ftable) ∧
        ∀ fd ∈ found, state'.ofile curproc fd = some fp := by
  refine .gets_bind ?_
  split
  · exact .pure ⟨hacc.after, ⟨rfl, rfl⟩, by simp⟩
  next fd _ =>
    refine (setOfile_spec houter hacc curproc fd (some fp)).bind fun _ _ _ hset => ?_
    obtain ⟨hafter, rfl⟩ := hset
    refine .pure ⟨hafter, ⟨rfl, rfl⟩, ?_⟩
    intro other hother
    cases hother
    simp [Syscalls.State.setOfile]

/-- The descriptor that `open` returns has the rights of `omode`. -/
def Opens (state : State) (curproc : Slot) (omode : UInt32) (result : ℤ) : Prop :=
  result = -1 ∨ ∃ (fd : Fd) (fp : Fp) (ip : Ip) (file : File), result = fd ∧
    state.ofile curproc fd = some fp ∧ state.ftable fp = openedFile ip omode file

theorem refiled_opened (run : Run) {omode : UInt32} {file : File} (href : file.ref = 1)
    (hlive : Live state ip) (hvalid : (state.icache ip).valid)
    (hdir : omode ≠ oRdonly → (state.icache ip).info.type ≠ .dir) :
    Refiled run state file (openedFile ip omode file) where
  free := by
    apply Or.inr
    intro hfree
    rw [show (openedFile ip omode file).ref = file.ref from rfl, href] at hfree
    exact absurd hfree (by norm_num)
  writes jp hjp hwrites := by
    cases hjp
    refine Or.inr ⟨hlive, hvalid, hdir ?_⟩
    intro hreads
    rw [hreads] at hwrites
    simp [openedFile, oRdonly] at hwrites

/-- The inode is no directory unless it is opened for reading. -/
theorem installFile_spec (houter : footprint.outer)
    (hacc : run.At (kept + one ip) state) (curproc : Slot) (omode : UInt32)
    (hvalid : (state.icache ip).valid)
    (hdir : omode ≠ oRdonly → (state.icache ip).info.type ≠ .dir) :
    run.Does (installFile curproc ip omode) state footprint fun result state' =>
      run.At kept state' ∧ Opens state' curproc omode result := by
  have hundo : ∀ state', run.At (kept + one ip) state' →
      run.Does (undoOpen curproc ip) state' footprint fun result state'' =>
        run.At kept state'' ∧ Opens state'' curproc omode result := by
    intro state' hacc'
    refine (iunlockput_spec hacc' curproc).bind fun _ _ _ hput => ?_
    refine (endOp_spec hput.now).bind fun _ _ _ hend => ?_
    exact .pure ⟨hend.now, .inl rfl⟩
  refine (filealloc_spec houter hacc).bind fun found allocated _ halloc => ?_
  obtain ⟨halloc, hicache, -, hfile⟩ := halloc
  cases found with
  | none => exact hundo allocated halloc.now
  | some fp =>
    refine (fdalloc_spec houter halloc.now curproc fp).bind
      fun found described _ hfd => ?_
    obtain ⟨hdescribed, hkeep, hfd⟩ := hfd
    cases found with
    | none =>
      refine (fileclose_spec houter hdescribed.now fp).bind
        fun _ closed _ hclosed => ?_
      exact hundo closed hclosed
    | some fd =>
      refine (iunlock_spec hdescribed.now curproc (hdescribed.now.live (by simp))).looking.bind
          fun _ unlocked _ hunlock => ?_
      refine (endOp_spec hunlock.2.now).looking.bind fun _ ended _ hend => ?_
      have hinner := (hunlock.1.inner id).trans (hend.1.inner id)
      have hstays := (hunlock.2.keeps.trans hend.2.keeps) ip (by simp)
      rw [hkeep.1, hicache] at hstays
      have hlast := hstays.2 hvalid
      obtain ⟨href, hnone⟩ := hfile fp rfl
      rw [← hkeep.2, ← hinner.ftable] at href hnone
      -- The file now holds the reference.
      have hpass : run.Passes (kept + one ip) kept (fileInode (ended.ftable fp))
          (fileInode (openedFile ip omode (ended.ftable fp))) := by
        rw [show fileInode (openedFile ip omode (ended.ftable fp)) = some ip from if_pos rfl]
        refine fun jp => ⟨by simp [taken], hnone.imp_right fun hnone => ?_⟩
        rw [hnone]
        simp [taken]
      have hrefiled : Refiled run ended (ended.ftable fp)
          (openedFile ip omode (ended.ftable fp)) := by
        refine refiled_opened run href (hend.2.now.live (by simp)) hlast.1 ?_
        rw [hlast.2]
        exact hdir
      refine (setFile_spec houter hend.2.now fp (openedFile ip omode) hpass
        hrefiled).bind fun _ opened _ hset => ?_
      obtain ⟨hset, rfl⟩ := hset
      refine .pure ⟨hset.now, .inr ⟨fd, fp, ip, ended.ftable fp, rfl, ?_, ?_⟩⟩
      · change ended.ofile curproc fd = some fp
        rw [hinner.ofile]
        exact hfd fd rfl
      · simp [Syscalls.State.setFile]

theorem sysOpen_spec (htree : run.tree) (hfresh : footprint.fresh = univ)
    (houter : footprint.outer) (hacc : run.At 0 state) (curproc : Slot)
    (path : Option (List Byte)) (omode : Option UInt32) (stale : List Byte)
    (hpaths : ∀ name ∈ path, name ∈ run.paths)
    (hleaks : ∀ name ∈ path, ∀ mode ∈ omode, (state.table.proc curproc).uid ≠ root →
      LooksUp mode → ∀ inum, (resolve state curproc true name stale).1 = some inum → run.leaks)
    (hdata : ∀ name ∈ path, ((state.table.proc curproc).uid ≠ root →
        Permitted writeRight state curproc name stale) →
      ∀ inum, (resolve state curproc true name []).1 = some inum → inum ∈ footprint.data) :
    run.Does (sysOpen curproc path omode stale) state footprint fun result state' =>
      run.At 0 state' ∧ (result = -1 ∨ ∃ name ∈ path, ∃ mode ∈ omode,
        Opens state' curproc mode result ∧ ((state.table.proc curproc).uid ≠ root →
            Checked state curproc name mode stale ∧
              (mode &&& oCreate ≠ 0 → Permitted writeRight state curproc name stale))) := by
  unfold sysOpen
  split
  next path omode =>
    have hleaks := hleaks path rfl omode rfl
    refine (checkOpen_spec hacc curproc path omode stale hleaks).looking.bind
      fun passed checked _ hchecked => ?_
    obtain ⟨hlooks, hafter, hpassed⟩ := hchecked
    split_ifs with htrue
    · refine (beginOp_spec hafter.now).looking.bind fun _ begun _ hbegin => ?_
      refine (openInode_spec htree hfresh (IsTrans.trans _ _ _ hlooks hbegin.1)
        hbegin.2.now curproc omode stale (hpaths path rfl) hleaks (hdata path rfl)).bind
          fun found opened _ hopened => ?_
      obtain ⟨hnow, hfound, hpermitted⟩ := hopened
      cases found with
      | none =>
        refine (endOp_spec hnow.nothing).bind fun _ _ _ hend => ?_
        exact .pure ⟨hend.now, .inl rfl⟩
      | some ip =>
        obtain ⟨hvalid, hdir⟩ := hfound ip rfl
        refine (installFile_spec houter hnow curproc omode hvalid hdir).mono (fun _ => id) ?_
        rintro result state' - ⟨hacc', hopens⟩
        exact ⟨hacc', .inr ⟨path, rfl, omode, rfl, hopens, fun huser =>
          ⟨hpassed.1 htrue huser, fun hcreate => hpermitted rfl hcreate huser⟩⟩⟩
    · exact .pure ⟨hafter.now, .inl rfl⟩
  next => exact .pure ⟨hacc, .inl rfl⟩

/-- `sys_mkdir` and `sys_mknod`. -/
theorem createAndPut_spec (htree : run.tree) (hfresh : footprint.fresh = univ)
    (hacc : run.At 0 state) (curproc : Slot) (path : Option (List Byte))
    (type : FileType) (major minor : ℤ) (stale : List Byte)
    (hpaths : ∀ name ∈ path, name ∈ run.paths)
    (hleaks : ∀ name ∈ path, (state.table.proc curproc).uid ≠ root → ∀ inum,
      (resolve state curproc true name stale).1 = some inum → run.leaks)
    (hdata : ∀ name ∈ path, ((state.table.proc curproc).uid ≠ root →
        Permitted writeRight state curproc name stale) →
      ∀ inum, (resolve state curproc true name []).1 = some inum → inum ∈ footprint.data) :
    run.Does (createAndPut curproc path type major minor stale) state footprint
      fun _ state' => run.At 0 state' := by
  refine (beginOp_spec hacc).looking.bind fun _ begun _ hbegin => ?_
  cases path with
  | none => exact endAndFail_spec hbegin.2.now (-1)
  | some path =>
    refine (create_spec htree hfresh hbegin.1 hbegin.2.now curproc stale
      (hpaths path rfl) (hleaks path rfl) (hdata path rfl) type major minor).bind
        fun found created _ hcreated => ?_
    cases found with
    | none => exact endAndFail_spec hcreated.1.nothing (-1)
    | some ip => exact putAndEnd_spec hcreated.1 curproc 0

end Opening

end Xv6Users.CreateSpecs
