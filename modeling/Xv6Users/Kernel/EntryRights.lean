import Xv6Users.Kernel.Machine
import Xv6Users.Kernel.InodeRuns

/-!
# Entries of directories

Five calls add or remove an entry of a directory.  `create` checks the directory
that it writes, but lets every name pass that begins with `passwd` or `group`;
`sys_link` and `sys_unlink` check nothing.  So for a kind of call and a last path
element the directories are guarded in every reachable state exactly if the call
checks and the element is not one of those that only begin like an exempt name.
-/

namespace Xv6Users.EntryRights

open Contracts Processes Inodes InodeAccount Moves InodeSpecs Syscalls CallSpecs CreateSpecs List
open CallTable Machine Directories InodeRuns

inductive EntryKind where
  | open
  | mkdir
  | mknod
  | link
  | unlink
  deriving DecidableEq

variable {call : Call} {kind : EntryKind} {path stale name entry : List Byte} {inum found : ℕ}
  {state : State}

def entryPath : Call → Option (EntryKind × List Byte)
  | .open (some path) (some omode) _ =>
    if omode &&& oCreate ≠ 0 then some (.open, path) else none
  | .mkdir (some path) _ => some (.mkdir, path)
  | .mknod (some path) _ _ _ => some (.mknod, path)
  | .link _ (some new) => some (.link, new)
  | .unlink (some path) => some (.unlink, path)
  | _ => none

def EntryCall (kind : EntryKind) (name : List Byte) (call : Call) : Prop :=
  ∃ path, entryPath call = some (kind, path) ∧ (elements path).getLast? = some name

/-- A call that succeeds changes a directory only if the directory grants it, but
for the names `passwd` and `group`. -/
def GuardsEntries (name : List Byte) (state : State) (curproc : Slot) (call : Call) : Prop :=
  ∀ result state', syscall curproc call state = .done result state' → 0 ≤ result →
    ∀ inum, state'.gen inum = state.gen inum → (recorded state' inum).type = .dir →
      state'.data inum ≠ state.data inum →
        grants writeRight (recorded state inum) (state.table.proc curproc).uid ∨
          name = passwdName ∨ name = groupName

/-- What makes the calls of a kind safe for a name, apart from `passwd` and `group`. -/
def Checks (name : List Byte) : EntryKind → Prop
  | .link => False
  | .unlink => name = dot ∨ name = dotdot
  | _ => ¬ isExempt name

def IsCall (path : List Byte) (call : Call) : EntryKind → Prop
  | .open => ∃ omode stale, omode &&& oCreate ≠ 0 ∧
      call = .open (some path) (some omode) stale
  | .mkdir => ∃ stale, call = .mkdir (some path) stale
  | .mknod => ∃ major minor stale, call = .mknod (some path) major minor stale
  | .link => ∃ old, call = .link old (some path)
  | .unlink => call = .unlink (some path)

theorem entryPath_eq_some (hentry : entryPath call = some (kind, path)) :
    IsCall path call kind := by
  unfold entryPath at hentry
  split at hentry
  next omode stale =>
    split_ifs at hentry with hcreate
    cases hentry
    exact ⟨omode, stale, hcreate, rfl⟩
  next stale =>
    cases hentry
    exact ⟨stale, rfl⟩
  next major minor stale =>
    cases hentry
    exact ⟨major, minor, stale, rfl⟩
  next old _ =>
    cases hentry
    exact ⟨old, rfl⟩
  next =>
    cases hentry
    exact rfl
  next => cases hentry

section Writes

variable {state : State} {curproc : Slot}

theorem walk_parent {elems : List (List Byte)}
    (hwalk : walk state true elems inum stale = (some found, name)) :
    elems.getLast? = some name := by
  induction elems generalizing inum stale with
  | nil => simp [walk] at hwalk
  | cons elem rest ih =>
    rw [walk] at hwalk
    split_ifs at hwalk with htype hlast
    · cases hwalk
    · cases hwalk
      rw [hlast.2]
      rfl
    · cases hlookup : lookup state inum elem with
      | none =>
        rw [hlookup] at hwalk
        cases hwalk
      | some next =>
        rw [hlookup] at hwalk
        have hrest := ih hwalk
        rw [getLast?_cons, hrest]
        rfl

/-- What the buffer holds before only shows when there is no element. -/
theorem walk_stale (elems : List (List Byte)) (inum : ℕ) (stale stale' : List Byte) :
    (walk state true elems inum stale).1 = (walk state true elems inum stale').1 := by
  cases elems with
  | nil => rfl
  | cons elem rest => rfl

theorem resolve_stale (path stale stale' : List Byte) :
    (resolve state curproc true path stale).1 = (resolve state curproc true path stale').1 := by
  rw [resolve, resolve]
  cases startIno state curproc path with
  | none => rfl
  | some inum => exact walk_stale _ _ _ _

theorem resolve_parent (hresolve : resolve state curproc true path stale = (some found, name)) :
    (elements path).getLast? = some name := by
  rw [resolve] at hresolve
  cases hstart : startIno state curproc path with
  | none =>
    rw [hstart] at hresolve
    cases hresolve
  | some inum =>
    rw [hstart] at hresolve
    exact walk_parent hresolve

/-- A check of a name that is not exempt looks at the directory itself. -/
theorem grants_of_permitted {right : UInt32} (hpermitted : Permitted right state curproc path stale)
    (hname : (elements path).getLast? = some name) (hexempt : ¬ isExempt name)
    (hresolve : (resolve state curproc true path []).1 = some inum) :
    grants right (recorded state inum) (state.table.proc curproc).uid := by
  rw [← resolve_stale path stale] at hresolve
  have hlast := resolve_parent (Prod.ext_iff.2 ⟨hresolve, rfl⟩ :
    resolve state curproc true path stale = (some inum, (resolve state curproc true path stale).2))
  rw [hname] at hlast
  cases hlast
  cases hpermitted with
  | inl hyes => exact absurd hyes hexempt
  | inr hgrants =>
    obtain ⟨found, hfound, hgrants⟩ := hgrants
    rw [hresolve] at hfound
    cases hfound
    exact hgrants

def writable (state : State) (curproc : Slot) : Set ℕ :=
  { inum | grants writeRight (recorded state inum) (state.table.proc curproc).uid }

/-- Only directories that grant it are written. -/
def guarded (state : State) (curproc : Slot) : Footprint :=
  ⟨Set.univ, writable state curproc, Set.univ, Set.univ, True⟩

theorem syscall_guarded (hacc : Accounted 0 state) (huser : (state.table.proc curproc).uid ≠ root)
    (hcall : EntryCall kind name call) (hchecks : Checks name kind) :
    (Run.any state).Does (syscall curproc call) state (guarded state curproc)
      fun _ state' => (Run.any state).At 0 state' := by
  have hat : (Run.any state).At 0 state := Run.start _ hacc
  obtain ⟨path, hentry, hname⟩ := hcall
  have hcreate : ∀ stale, ¬ isExempt name → ∀ target ∈ some path,
      ((state.table.proc curproc).uid ≠ root → Permitted writeRight state curproc target stale) →
      ∀ inum, (resolve state curproc true target []).1 = some inum →
        inum ∈ (guarded state curproc).data := by
    intro stale hexempt target htarget hpermitted inum hresolve
    cases htarget
    exact grants_of_permitted (hpermitted huser) hname hexempt hresolve
  replace hentry := entryPath_eq_some hentry
  cases kind with
  | «open» =>
    obtain ⟨omode, stale, -, rfl⟩ := hentry
    exact (sysOpen_spec trivial rfl trivial hat curproc (some path) (some omode) stale
      (fun _ _ => Set.mem_univ _) (fun _ _ _ _ _ _ _ _ => trivial)
      (hcreate stale hchecks)).mono (fun _ => id) fun _ _ _ hopen => hopen.1
  | mkdir =>
    obtain ⟨stale, rfl⟩ := hentry
    exact createAndPut_spec trivial rfl hat curproc (some path) .dir 0 0 stale
      (fun _ _ => Set.mem_univ _) (fun _ _ _ _ _ => trivial) (hcreate stale hchecks)
  | mknod =>
    obtain ⟨major, minor, stale, rfl⟩ := hentry
    exact sysMknod_spec trivial rfl hat curproc (some path) major minor stale
      (fun _ _ => Set.mem_univ _) (fun _ _ _ _ _ _ _ => trivial) (hcreate stale hchecks)
  | link => exact hchecks.elim
  | unlink =>
    cases hentry
    refine sysUnlink_spec trivial hat curproc (some path)
      fun target htarget inum last hresolve => ?_
    cases htarget
    have hlast := resolve_parent hresolve
    rw [hname] at hlast
    cases hlast
    intro hdot hdotdot
    exact absurd hchecks (not_or.2 ⟨hdot, hdotdot⟩)

/-- The calls of a kind that checks write where it is granted. -/
theorem guardsEntries_of_checks (hacc : Accounted 0 state)
    (huser : (state.table.proc curproc).uid ≠ root)
    (hcall : EntryCall kind name call) (hchecks : Checks name kind) :
    GuardsEntries name state curproc call := by
  intro result state' hdone _ inum hgen htype hchanged
  have hspec := syscall_guarded hacc huser hcall hchecks
  unfold Run.Does Ends at hspec
  rw [hdone] at hspec
  by_contra hdenied
  rw [not_or] at hdenied
  have hdata := (hspec.1.same inum hgen).data hdenied.1
  rw [htype] at hdata
  exact hchanged (hdata.resolve_right (by simp))

end Writes

/-- A name that a path element can have. -/
structure IsElement (name : List Byte) : Prop where
  nonempty : name ≠ []
  slash : slash ∉ name
  zero : 0 ∉ name
  short : name.length ≤ dirsiz

theorem elements_absolute (hname : IsElement name) : elements (slash :: name) = [name] := by
  have hsplit : (slash :: name).splitOn slash = [[], name] := by
    have hhead : (slash :: name).splitOn slash = [] :: name.splitOn slash := by
      simp [splitOn, splitOnP_cons_eq_if_modifyHead]
    rw [hhead, splitOn_eq_singleton hname.slash]
  rw [elements, hsplit]
  simp [hname.nonempty, take_of_length_le hname.short]

def oneFile (entry : List Byte) : Image where
  ninodes := 8
  disk inum := if inum = rootIno then { emptyDinode .dir with nlink := 1 }
    else if inum = 2 then { emptyDinode .file with nlink := 1 }
    else emptyDinode .free
  data inum := if inum = rootIno then direntBytes 2 entry else []

theorem aligned_direntBytes (inum : ℕ) (name : List Byte) : Aligned (direntBytes inum name) := by
  rw [Aligned, length_direntBytes]

theorem entries_direntBytes (inum : ℕ) (name : List Byte) :
    entries (direntBytes inum name) = [⟨inum % 2 ^ 16, storedName name⟩] := by
  have haligned : Aligned [] := dvd_zero _
  have hend := entries_splice_end haligned (length_direntBytes inum name)
  rw [parseDirent_direntBytes] at hend
  simpa [splice, entries, FixedRows.rows] using hend

theorem findDirent_self (hname : IsElement name) :
    findDirent (direntBytes 2 name) name (offsets (direntBytes 2 name).length) =
      some (some (0, 2)) := by
  rw [findDirent_entries (aligned_direntBytes 2 name), entries_direntBytes,
    storedName_eq hname.zero hname.short]
  simp [isNamed]

theorem findDirent_other (hentry : IsElement entry) (hne : entry ≠ name) :
    findDirent (direntBytes 2 entry) name (offsets (direntBytes 2 entry).length) = some none := by
  rw [findDirent_entries (aligned_direntBytes 2 entry), entries_direntBytes,
    storedName_eq hentry.zero hentry.short]
  simp [isNamed, hne]

theorem findUnused_full (entry : List Byte) :
    findUnused (direntBytes 2 entry) (offsets (direntBytes 2 entry).length) = some direntSize := by
  rw [findUnused_entries (aligned_direntBytes 2 entry), entries_direntBytes]
  simp [isUnused]

/-- The root directory was changed by a call that succeeded. -/
def Enters (entry : List Byte) (result : ℤ) (state : State) : Prop :=
  0 ≤ result ∧ state.gen rootIno = 0 ∧ (recorded state rootIno).type = .dir ∧
    state.data rootIno ≠ direntBytes 2 entry

/-- The directory does not grant the change to user 1000. -/
theorem not_guardsEntries (hname : name ≠ passwdName ∧ name ≠ groupName)
    (henters : Returns (syscall 0 call) (asUid 1000 (oneFile entry)) (Enters entry)) :
    ¬ GuardsEntries name (asUid 1000 (oneFile entry)) 0 call := by
  intro hguards
  obtain ⟨result, state', hdone, hresult, hgen, htype, hdata⟩ := henters
  have hmode : (recorded (asUid 1000 (oneFile entry)) rootIno).mode = 0 := rfl
  rcases hguards result state' hdone hresult rootIno hgen htype hdata with hgrants | hexact
  · rw [grants, hmode] at hgrants
    simp at hgrants
  · exact not_or.2 hname hexact

theorem unlink_enters (hname : IsElement name) (hdots : ¬ (name = dot ∨ name = dotdot)) :
    Returns (syscall 0 (.unlink (some (slash :: name)))) (asUid 1000 (oneFile name))
      (Enters name) := by
  change Returns (sysUnlink 0 (some (slash :: name))) _ _
  rw [sysUnlink, nameiparent, namex, elements_absolute hname]
  refine .step rfl ?_
  refine .step rfl ?_
  refine .step rfl ?_
  rw [if_neg hdots]
  have hfind := findDirent_self hname
  refine .step ((dirlookup_found rfl (by exact hfind)).trans rfl) ?_
  refine .step rfl ?_
  refine .step rfl ?_
  refine .step rfl ?_
  have hlength : (direntBytes 2 name).length = direntSize := length_direntBytes 2 name
  refine .step ((writei_eq 0 (show FileType.dir ≠ .dev by decide) (by decide)
    (Nat.zero_le _) (by decide) (le_refl 1)).trans
      (congrArg _ (if_neg (show ¬ (direntBytes 2 name).length < _ from hlength.ge.not_gt)))) ?_
  refine .intro rfl ⟨le_rfl, rfl, rfl, ?_⟩
  change splice (direntBytes 2 name) (replicate direntSize 0) 0 ≠ direntBytes 2 name
  intro hsame
  have hhead := congrArg head? hsame
  simp [splice, direntBytes, direntSize, replicate_succ] at hhead

/-- A new entry makes the directory longer. -/
theorem splice_ne (entry row : List Byte) (hrow : row.length = direntSize) :
    splice (direntBytes 2 entry) row direntSize ≠ direntBytes 2 entry := by
  intro hsame
  have hlength := congrArg length hsame
  simp [splice, hrow, direntSize] at hlength

/-- The file that is there already. -/
theorem isElement_first : IsElement [102] :=
  ⟨by decide, by decide, by decide, by decide⟩

/-- A new name goes behind the file that is there. -/
theorem dirlink_second (hne : [102] ≠ name)
    (htype : (state.icache 0).info.type = .dir) (hbytes : bytesOf state 0 = direntBytes 2 [102])
    (hlog : 1 ≤ state.outstanding) :
    dirlink 0 name inum state = .done 0 ((state.setData (state.icache 0).inum
        (splice (bytesOf state 0) (direntBytes inum name) direntSize)).setDisk
          (state.icache 0).inum (state.icache 0).info) := by
  have hfind := findDirent_other isElement_first hne
  have hunused := findUnused_full [102]
  rw [← hbytes] at hfind hunused
  have hlength : (bytesOf state 0).length = direntSize := by
    rw [hbytes, length_direntBytes]
  rw [dirlink_new htype hfind hunused hlength.ge (by decide) hlog, written, if_pos]
  rw [hlength, length_direntBytes]
  decide

theorem dirlookup_second (hne : [102] ≠ name)
    (htype : (state.icache 0).info.type = .dir) (hbytes : bytesOf state 0 = direntBytes 2 [102]) :
    dirlookup 0 name state = .done none state := by
  have hfind := findDirent_other isElement_first hne
  rw [← hbytes] at hfind
  exact dirlookup_absent htype hfind

theorem nameiparent_absolute (hname : IsElement name) (stale : List Byte) (state : State) :
    nameiparent 0 (slash :: name) stale state = (startInode 0 (slash :: name) >>=
      fun ip => namexLoop 0 true [name] ip stale) state := by
  rw [nameiparent, namex, elements_absolute hname]

theorem validateWrite_exempt {found : Option Ip} {state' : State} (hexempt : isExempt name)
    (hwalk : nameiparent 0 path stale state = .done (found, name) state') :
    validateWrite 0 path stale state = .done 1 state' := by
  simp [validateWrite, validateParent, procUid, Op.gets, bind, Op.bind, hwalk, hexempt,
    pure, Op.pure]

theorem link_enters (hname : IsElement name) (hne : [102] ≠ name) :
    Returns (syscall 0 (.link (some [slash, 102]) (some (slash :: name))))
      (asUid 1000 (oneFile [102])) (Enters [102]) := by
  refine .step rfl (.step rfl (.step rfl ?_))
  refine .step rfl (.step rfl (.step rfl ?_))
  refine .step ((nameiparent_absolute hname _ _).trans rfl) ?_
  refine .step rfl (.step rfl ?_)
  refine .step (dirlink_second hne rfl rfl (le_refl 1)) (.step rfl ?_)
  exact .intro rfl ⟨le_rfl, rfl, rfl, splice_ne _ _ (length_direntBytes 2 name)⟩

section Exempt

variable {name : List Byte} (hname : IsElement name) (hexempt : isExempt name) (hne : [102] ≠ name)

include hname hexempt hne

/-- `sys_mkdir` and `sys_mknod`. -/
theorem createAndPut_enters {type : FileType} (htype : type = .dir ∨ type = .dev) :
    Returns (createAndPut 0 (some (slash :: name)) type 0 0 []) (asUid 1000 (oneFile [102]))
      (Enters [102]) := by
  rcases htype with rfl | rfl
  all_goals
    refine .step rfl ?_
    simp only [create, createAt, createNew, Op.bind_assoc]
    refine .step rfl ?_
    refine .step (validateWrite_exempt hexempt
      ((nameiparent_absolute hname _ _).trans rfl)) ?_
    change Returns ((nameiparent _ _ _ >>= _) >>= _) _ _
    rw [Op.bind_assoc]
    refine .step ((nameiparent_absolute hname _ _).trans rfl) ?_
    simp only [Op.bind_assoc]
    refine .step rfl (.step (dirlookup_second hne rfl rfl) ?_)
    simp only [Op.bind_assoc]
    refine .step rfl (.step rfl (.step rfl ?_))
    refine .step rfl (.step rfl ?_)
    refine .step (dirlink_second hne rfl rfl (le_refl 1)) ?_
    exact .intro rfl ⟨le_rfl, rfl, rfl, splice_ne _ _ (length_direntBytes 3 name)⟩

theorem open_enters :
    Returns (sysOpen 0 (some (slash :: name)) (some oCreate) []) (asUid 1000 (oneFile [102]))
      (Enters [102]) := by
  simp only [sysOpen, checkOpen, openInode, Op.bind_assoc]
  refine .step rfl ?_
  change Returns ((checkWhen _ _ >>= _) >>= _) _ _
  rw [Op.bind_assoc]
  refine .step rfl ?_
  change Returns ((checkWhen _ (validateWrite _ _ _) >>= _) >>= _) _ _
  rw [Op.bind_assoc]
  refine .step (validateWrite_exempt hexempt ((nameiparent_absolute hname _ _).trans rfl)) ?_
  refine .step rfl (.step rfl ?_)
  change Returns (create _ _ _ _ _ _ >>= _) _ _
  simp only [create, createAt, createNew, Op.bind_assoc]
  refine .step rfl ?_
  refine .step (validateWrite_exempt hexempt ((nameiparent_absolute hname _ _).trans rfl)) ?_
  change Returns ((nameiparent _ _ _ >>= _) >>= _) _ _
  rw [Op.bind_assoc]
  refine .step ((nameiparent_absolute hname _ _).trans rfl) ?_
  simp only [Op.bind_assoc]
  refine .step rfl (.step (dirlookup_second hne rfl rfl) ?_)
  simp only [Op.bind_assoc]
  refine .step rfl (.step rfl (.step rfl ?_))
  refine .step rfl (.step rfl ?_)
  refine .step (dirlink_second hne rfl rfl (le_refl 1)) ?_
  exact .intro rfl ⟨by decide, rfl, rfl, splice_ne _ _ (length_direntBytes 3 name)⟩

end Exempt

/-- The one name that the first file has itself. -/
theorem link_enters_first :
    Returns (syscall 0 (.link (some [slash, 103]) (some [slash, 102])))
      (asUid 1000 (oneFile [103])) (Enters [103]) := .intro rfl ⟨le_rfl, rfl, rfl, by decide⟩

theorem lastElement_absolute (hname : IsElement name) :
    (elements (slash :: name)).getLast? = some name := by
  rw [elements_absolute hname]
  rfl

/-- A call that enters a directory where nothing is granted. -/
theorem exists_unguarded (hname : IsElement name)
    (hchecks : ¬ Checks name kind) : ∃ entry call, EntryCall kind name call ∧
      Returns (syscall 0 call) (asUid 1000 (oneFile entry)) (Enters entry) := by
  have hlast := lastElement_absolute hname
  have hother : isExempt name → [102] ≠ name := by
    rintro hexempt rfl
    revert hexempt
    decide
  cases kind with
  | «open» =>
    have hexempt : isExempt name := not_not.1 hchecks
    exact ⟨[102], .open (some (slash :: name)) (some oCreate) [], ⟨slash :: name, rfl, hlast⟩,
      open_enters hname hexempt (hother hexempt)⟩
  | mkdir =>
    have hexempt : isExempt name := not_not.1 hchecks
    exact ⟨[102], .mkdir (some (slash :: name)) [], ⟨slash :: name, rfl, hlast⟩,
      createAndPut_enters hname hexempt (hother hexempt) (.inl rfl)⟩
  | mknod =>
    have hexempt : isExempt name := not_not.1 hchecks
    exact ⟨[102], .mknod (some (slash :: name)) (some 0) (some 0) [], ⟨slash :: name, rfl, hlast⟩,
      createAndPut_enters hname hexempt (hother hexempt) (.inr rfl)⟩
  | link =>
    by_cases hfirst : name = [102]
    · subst hfirst
      exact ⟨[103], _, ⟨[slash, 102], rfl, hlast⟩, link_enters_first⟩
    · exact ⟨[102], _, ⟨slash :: name, rfl, hlast⟩, link_enters hname (Ne.symm hfirst)⟩
  | unlink => exact ⟨name, _, ⟨slash :: name, rfl, hlast⟩, unlink_enters hname hchecks⟩

/-- Calls of a kind for an entry of a name are guarded by the mode of the directory,
in every reachable state and for every user, exactly if the name is exempt or the calls
check it. -/
theorem guardsEntries_iff (kind : EntryKind) {name : List Byte} (hname : IsElement name) :
    (∀ (state : State) (curproc : Slot) (call : Call), Reachable state →
      (state.table.proc curproc).uid ≠ root → EntryCall kind name call →
        GuardsEntries name state curproc call) ↔
      name = passwdName ∨ name = groupName ∨ Checks name kind := by
  constructor
  · intro hguards
    by_contra hnot
    simp only [not_or] at hnot
    obtain ⟨hpasswd, hgroup, hchecks⟩ := hnot
    obtain ⟨entry, call, hcall, henters⟩ := exists_unguarded hname hchecks
    exact not_guardsEntries ⟨hpasswd, hgroup⟩ henters
      (hguards _ 0 call (asUid_reachable 1000 _) (show (1000 : ℤ) ≠ root by decide) hcall)
  · intro hsafe state curproc call hstate huser hcall
    rcases hsafe with hpasswd | hgroup | hchecks
    · exact fun _ _ _ _ _ _ _ _ => .inr (.inl hpasswd)
    · exact fun _ _ _ _ _ _ _ _ => .inr (.inr hgroup)
    · exact guardsEntries_of_checks hstate.accounted huser hcall hchecks

/-- User 1000 makes the directory `b` only where the directory grants it. -/
theorem mkdir_guarded :
    ∃ state call, Machine.Reachable state ∧ (state.table.proc 0).uid ≠ root ∧
      EntryCall .mkdir [98] call ∧ GuardsEntries [98] state 0 call := by
  have hname : IsElement [98] := ⟨by decide, by decide, by decide, by decide⟩
  have hchecks : Checks [98] .mkdir := by
    change ¬ isExempt [98]
    decide
  have huser : ((asUid 1000 (oneFile [97])).table.proc 0).uid ≠ root :=
    show (1000 : ℤ) ≠ root by decide
  have hcall : EntryCall .mkdir [98] (.mkdir (some [slash, 98]) []) :=
    ⟨[slash, 98], rfl, lastElement_absolute hname⟩
  exact ⟨asUid 1000 (oneFile [97]), .mkdir (some [slash, 98]) [], asUid_reachable 1000 _,
    huser, hcall, (guardsEntries_iff .mkdir hname).2 (.inr (.inr hchecks)) _ 0 _
      (asUid_reachable 1000 _) huser hcall⟩

/-- User 1000 removes the file `a` from a directory that grants nothing. -/
theorem unlink_unguarded :
    ∃ state call, Machine.Reachable state ∧ (state.table.proc 0).uid ≠ root ∧
      EntryCall .unlink [97] call ∧ ¬ GuardsEntries [97] state 0 call := by
  have hname : IsElement [97] := ⟨by decide, by decide, by decide, by decide⟩
  exact ⟨asUid 1000 (oneFile [97]), .unlink (some [slash, 97]), asUid_reachable 1000 _,
    show (1000 : ℤ) ≠ root by decide, ⟨[slash, 97], rfl, lastElement_absolute hname⟩,
    not_guardsEntries (by decide) (unlink_enters hname (by decide))⟩

end Xv6Users.EntryRights
