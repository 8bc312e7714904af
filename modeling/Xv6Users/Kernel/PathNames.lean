import Xv6Users.Kernel.Machine

/-!
# Path names

`skipelem` takes one element after the other off a path, and the loop of `namex` looks
each one up.  The elements are what lies between the slashes, and looking a path up is
the same as looking its last element up in the directory that `nameiparent` finds.
-/

namespace Xv6Users.PathNames

open Contracts Processes Inodes InodeAccount Moves InodeSpecs Machine List Function

section Elements

variable {path name rest : List Byte}

theorem elements_slash (path : List Byte) : elements (slash :: path) = elements path := by
  have hsplit : (slash :: path).splitOn slash = [] :: path.splitOn slash :=
    splitOn_append_cons_self_of_not_mem not_mem_nil path
  rw [elements, hsplit, filter_cons_of_neg (by simp), elements]

theorem elements_dropWhile (path : List Byte) :
    elements (path.dropWhile (· == slash)) = elements path := by
  induction path with
  | nil => rfl
  | cons byte rest ih =>
    by_cases hbyte : byte = slash
    · subst hbyte
      rw [dropWhile_cons_of_pos (by simp), ih, elements_slash]
    · rw [dropWhile_cons_of_neg (by simpa using hbyte)]

theorem elements_word {word : List Byte} (hword : word ≠ []) (hslash : slash ∉ word)
    (hrest : rest = [] ∨ rest.head? = some slash) :
    elements (word ++ rest) = word.take dirsiz :: elements rest := by
  cases rest with
  | nil =>
    rw [append_nil, elements, splitOn_eq_singleton hslash,
      filter_cons_of_pos (by simpa using hword)]
    rfl
  | cons byte rest =>
    have hbyte : byte = slash := by simpa using hrest
    subst hbyte
    rw [elements_slash, elements, splitOn_append_cons_self_of_not_mem hslash,
      filter_cons_of_pos (by simpa using hword), map_cons, elements]

/-- The first byte that is kept is not dropped. -/
theorem head_dropWhile {test : Byte → Bool} {bytes : List Byte} {byte : Byte}
    (hdrop : bytes.dropWhile test = byte :: rest) : test byte = false := by
  have hnot := head?_dropWhile_not test bytes
  rwa [hdrop, head?_cons] at hnot

/-- A call of `skipelem` cuts a word off that the path has after its leading slashes. -/
theorem skipelem_eq_some (hskip : skipelem path = some (name, rest)) :
    ∃ word tail, path.dropWhile (· == slash) = word ++ tail ∧ word ≠ [] ∧ slash ∉ word ∧
      (tail = [] ∨ tail.head? = some slash) ∧ name = word.take dirsiz ∧
      rest = tail.dropWhile (· == slash) := by
  rw [skipelem] at hskip
  split_ifs at hskip with hempty
  cases hskip
  refine ⟨_, _, takeWhile_append_dropWhile.symm, ?_, ?_, ?_, rfl, rfl⟩
  · obtain ⟨byte, bytes, hpath⟩ := exists_cons_of_ne_nil hempty
    have hbyte := head_dropWhile hpath
    rw [hpath, takeWhile_cons_of_pos (by simp [bne, hbyte])]
    exact cons_ne_nil _ _
  · intro hmem
    have hslash := mem_takeWhile_imp hmem
    simp at hslash
  · cases htail : ((path.dropWhile (· == slash)).dropWhile (· != slash)) with
    | nil => exact .inl rfl
    | cons byte bytes =>
      have hbyte := head_dropWhile htail
      simp only [bne_eq_false_iff_eq] at hbyte
      exact .inr (by rw [head?_cons, hbyte])

/-- What a call of `skipelem` leaves is the rest of the elements. -/
theorem elements_of_skipelem (hskip : skipelem path = some (name, rest)) :
    elements path = name :: elements rest := by
  obtain ⟨word, tail, hpath, hword, hslash, htail, rfl, rfl⟩ := skipelem_eq_some hskip
  rw [← elements_dropWhile, hpath, elements_word hword hslash htail, elements_dropWhile]

theorem elements_of_skipelem_none (hskip : skipelem path = none) : elements path = [] := by
  rw [skipelem] at hskip
  split_ifs at hskip with hempty
  rw [← elements_dropWhile, hempty]
  rfl

/-- Every call takes at least one byte off the path. -/
theorem length_lt_of_skipelem (hskip : skipelem path = some (name, rest)) :
    rest.length < path.length := by
  obtain ⟨word, tail, hpath, hword, -, -, -, rfl⟩ := skipelem_eq_some hskip
  have hwhole := (dropWhile_sublist (· == slash) (l := path)).length_le
  have htail := (dropWhile_sublist (· == slash) (l := tail)).length_le
  have hpos : 0 < word.length := length_pos_iff.2 hword
  rw [hpath, length_append] at hwhole
  omega

/-- The rest of a path starts with an element, if it is not empty. -/
theorem rest_eq_nil_iff (hskip : skipelem path = some (name, rest)) :
    rest = [] ↔ elements rest = [] := by
  constructor
  · rintro rfl
    rfl
  · intro hnone
    obtain ⟨word, tail, -, -, -, -, -, rfl⟩ := skipelem_eq_some hskip
    cases hagain : skipelem (tail.dropWhile (· == slash)) with
    | some found =>
      rw [elements_of_skipelem hagain] at hnone
      cases hnone
    | none =>
      rw [skipelem] at hagain
      split_ifs at hagain with hempty
      rwa [dropWhile_idempotent] at hempty

end Elements

/-- The names that repeated calls of `skipelem` return. -/
def skipelems (path : List Byte) : List (List Byte) :=
  match _hskip : skipelem path with
  | none => []
  | some (name, rest) => name :: skipelems rest
  termination_by path.length
  decreasing_by exact length_lt_of_skipelem _hskip

theorem skipelems_eq (path : List Byte) : skipelems path = elements path := by
  fun_induction skipelems path with
  | case1 path hskip => exact (elements_of_skipelem_none hskip).symm
  | case2 path name rest hskip ih => rw [ih, elements_of_skipelem hskip]

/-! ## The loop of `namex` -/

/-- The loop of `namex` as the source has it, over what is left of the path. -/
def namexPath (curproc : Slot) (parent : Bool) (path : List Byte) (ip : Ip)
    (name : List Byte) : K (Option Ip × List Byte) :=
  match _hskip : skipelem path with
  | none =>
    if parent then do
      iput ip
      pure (none, name)
    else pure (some ip, name)
  | some (elem, rest) => do
    ilock curproc (some ip)
    let inode ← getInode ip
    if inode.info.type ≠ .dir then do
      iunlockput curproc ip
      pure (none, elem)
    else if parent ∧ rest = [] then do
      iunlock curproc ip
      pure (some ip, elem)
    else do
      match ← dirlookup ip elem with
      | none => do
        iunlockput curproc ip
        pure (none, elem)
      | some (next, _) => do
        iunlockput curproc ip
        namexPath curproc parent rest next elem
  termination_by path.length
  decreasing_by exact length_lt_of_skipelem _hskip

/-- The loop over the path is the loop over its elements. -/
theorem namexPath_eq (curproc : Slot) (parent : Bool) (path : List Byte) (ip : Ip)
    (name : List Byte) :
    namexPath curproc parent path ip name = namexLoop curproc parent (elements path) ip name := by
  fun_induction namexPath curproc parent path ip name with
  | case1 path ip name hskip hparent =>
    rw [elements_of_skipelem_none hskip, namexLoop, if_pos hparent]
  | case2 path ip name hskip hparent =>
    rw [elements_of_skipelem_none hskip, namexLoop, if_neg hparent]
  | case3 path ip name elem rest hskip ih =>
    rw [elements_of_skipelem hskip, namexLoop]
    simp only [ih, rest_eq_nil_iff hskip] <;> rfl

/-- One step of a path: the inode is a directory, and the name is in it. -/
def into (state : State) (inum : ℕ) (elem : List Byte) : Option ℕ :=
  if (recorded state inum).type = .dir then lookup state inum elem else none

theorem walk_eq_foldlM (state : State) (elems : List (List Byte)) (inum : ℕ) (name : List Byte) :
    (walk state false elems inum name).1 = elems.foldlM (into state) inum := by
  induction elems generalizing inum name with
  | nil => rfl
  | cons elem rest ih =>
    rw [walk, foldlM_cons, into]
    by_cases hdir : (recorded state inum).type = .dir
    · rw [if_neg (not_not.2 hdir), if_neg (by simp), if_pos hdir]
      cases lookup state inum elem with
      | none => rfl
      | some next => exact ih next elem
    · rw [if_pos hdir, if_neg hdir]
      rfl

variable {curproc : Slot}

variable {path : List Byte}

/-- A path that is looked up leads to where its elements lead, one after the other. -/
theorem namei_eq_foldlM {state final : State} (hacc : Accounted 0 state)
    {found : Option Ip} (hdone : namei curproc path state = .done found final) :
    (found.map fun ip => (final.icache ip).inum) =
      (startIno state curproc path).bind fun inum =>
        (elements path).foldlM (into state) inum := by
  have hspec : (Run.any state).Does (namei curproc path) state looks _ :=
    namei_spec curproc path (Std.Refl.refl state) (Run.start (Run.any state) hacc)
  unfold Run.Does Ends at hspec
  rw [hdone] at hspec
  rw [← hspec.2.2, resolve]
  cases startIno state curproc path with
  | none => rfl
  | some inum => exact walk_eq_foldlM state (elements path) inum []

def lookupIn (curproc : Slot) : Option Ip × List Byte → K (Option Ip)
  | (none, _) => pure none
  | (some dp, name) => do
    ilock curproc (some dp)
    let found ← dirlookup dp name
    iunlockput curproc dp
    pure (found.map Prod.fst)

section Last

variable {curproc : Slot} {ip : Ip} {state locked : State}

/-- An inode that was loaded is valid, and nothing else has changed. -/
theorem loadInode_eq_done (hdone : loadInode ip state = .done () locked) :
    (locked.icache ip).lock = (state.icache ip).lock ∧
      (locked.icache ip).ref = (state.icache ip).ref ∧ (locked.icache ip).valid = true := by
  obtain ⟨inode, middle, hget, hdone⟩ := Op.bind_eq_done.1 hdone
  cases hget
  split_ifs at hdone with hvalid
  · cases hdone
    exact ⟨rfl, rfl, hvalid⟩
  · obtain ⟨dinode, middle, hget, hdone⟩ := Op.bind_eq_done.1 hdone
    cases hget
    split_ifs at hdone
    · cases hdone
    · cases hdone
      rw [icache_setInode_self]
      exact ⟨rfl, rfl, rfl⟩

/-- An inode that was locked is loaded and in use. -/
theorem ilock_eq_done (hdone : ilock curproc (some ip) state = .done () locked) :
    (locked.icache ip).lock = some curproc ∧ ¬ (locked.icache ip).ref < 1 ∧
      (locked.icache ip).valid = true := by
  obtain ⟨inode, middle, hget, hdone⟩ := Op.bind_eq_done.1 hdone
  cases hget
  split_ifs at hdone with href
  · cases hdone
  · cases hdone
  · obtain ⟨_, middle, hset, hdone⟩ := Op.bind_eq_done.1 hdone
    cases hset
    obtain ⟨hlocked, hsame, hvalid⟩ := loadInode_eq_done hdone
    rw [icache_setInode_self] at hlocked hsame
    exact ⟨hlocked, hsame ▸ href, hvalid⟩

/-- Unlocking and locking again changes nothing. -/
theorem relock {α : Type} (next : Unit → K α)
    (hdone : ilock curproc (some ip) state = .done () locked) :
    (iunlock curproc ip >>= fun _ => ilock curproc (some ip) >>= next) locked =
      next () locked := by
  obtain ⟨hlock, href, hvalid⟩ := ilock_eq_done hdone
  have hsame : (⟨(locked.icache ip).inum, (locked.icache ip).ref, some curproc, true,
      (locked.icache ip).info⟩ : Inode) = locked.icache ip := by
    rw [← hlock, ← hvalid]
  simp only [iunlock, ilock, loadInode, getInode, setInode, State.setInode, bind, Op.bind,
    Op.gets, Op.modify, hlock, href, hvalid, pure, Op.pure, ne_eq, not_true_eq_false, or_self,
    if_false, if_true, update_self, Option.isSome_none, Bool.false_eq_true,
    update_idem]
  rw [hsame, update_eq_self]

end Last

/-- The loop for an inode is the loop for its directory, and a lookup there. -/
theorem namexLoop_last (curproc : Slot) {elems : List (List Byte)} (helems : elems ≠ [])
    (ip : Ip) (name name' : List Byte) :
    (namexLoop curproc false elems ip name >>= fun found => pure found.1) =
      namexLoop curproc true elems ip name' >>= lookupIn curproc := by
  induction elems generalizing ip name name' with
  | nil => exact absurd rfl helems
  | cons elem rest ih =>
    funext state
    rw [namexLoop, namexLoop, Op.bind_assoc (ilock curproc (some ip)),
      Op.bind_assoc (ilock curproc (some ip))]
    apply Op.bind_congr
    intro _ locked hlock
    rw [Op.bind_assoc (getInode ip), Op.bind_assoc (getInode ip)]
    apply Op.bind_congr
    intro inode _ hget
    cases hget
    by_cases hdir : (locked.icache ip).info.type = .dir
    · rw [if_neg (not_not.2 hdir), if_neg (not_not.2 hdir), if_neg (by simp)]
      by_cases hrest : rest = []
      · -- The parent's lock is dropped and taken again.
        have hagain : ((do
            iunlock curproc ip
            pure (some ip, elem)) >>= lookupIn curproc) locked =
            (dirlookup ip elem >>= fun found => iunlockput curproc ip >>= fun _ =>
              pure (found.map Prod.fst)) locked := by
          rw [Op.bind_assoc]
          exact relock _ hlock
        rw [if_pos ⟨rfl, hrest⟩, hrest, hagain, Op.bind_assoc (dirlookup ip elem)]
        apply Op.bind_congr
        intro found looked _
        cases found with
        | none => rw [Op.bind_assoc (iunlockput curproc ip)]; rfl
        | some entry => rw [Op.bind_assoc (iunlockput curproc ip)]; rfl
      · rw [if_neg (fun hlast => hrest hlast.2), Op.bind_assoc (dirlookup ip elem),
          Op.bind_assoc (dirlookup ip elem)]
        apply Op.bind_congr
        intro found looked _
        cases found with
        | none =>
          rw [Op.bind_assoc (iunlockput curproc ip), Op.bind_assoc (iunlockput curproc ip)]
          rfl
        | some entry =>
          rw [Op.bind_assoc (iunlockput curproc ip), Op.bind_assoc (iunlockput curproc ip)]
          apply Op.bind_congr
          intro _ dropped _
          exact congrFun (ih hrest entry.1 elem elem) dropped
    · rw [if_pos hdir, if_pos hdir, Op.bind_assoc (iunlockput curproc ip),
        Op.bind_assoc (iunlockput curproc ip)]
      rfl

theorem namei_eq_lookupIn (helems : elements path ≠ []) (name : List Byte) :
    namei curproc path = nameiparent curproc path name >>= lookupIn curproc := by
  rw [namei, nameiparent, namex, namex, Op.bind_assoc, Op.bind_assoc]
  funext state
  apply Op.bind_congr
  intro ip middle _
  exact congrFun (namexLoop_last curproc helems ip [] name) middle

/-- Only a directory is searched. -/
theorem type_of_dirlookup {dp : Ip} {name : List Byte} {state final : State}
    {found : Option (Ip × ℕ)} (hdone : dirlookup dp name state = .done found final) :
    (state.icache dp).info.type = .dir := by
  obtain ⟨inode, middle, hget, hdone⟩ := Op.bind_eq_done.1 hdone
  cases hget
  by_contra htype
  rw [if_pos htype] at hdone
  cases hdone

/-- A name is found in a directory. -/
theorem lookupIn_eq_done {parent : Option Ip × List Byte} {ip : Ip} {state final : State} :
    lookupIn curproc parent state = .done (some ip) final ↔
      ∃ dp name locked off looked, parent = (some dp, name) ∧
        ilock curproc (some dp) state = .done () locked ∧
        (locked.icache dp).info.type = .dir ∧
        dirlookup dp name locked = .done (some (ip, off)) looked ∧
        iunlockput curproc dp looked = .done () final := by
  constructor
  · intro hdone
    obtain ⟨found, name⟩ := parent
    cases found with
    | none => cases hdone
    | some dp =>
      obtain ⟨_, locked, hlock, hdone⟩ := Op.bind_eq_done.1 hdone
      obtain ⟨entry, looked, hlookup, hdone⟩ := Op.bind_eq_done.1 hdone
      obtain ⟨_, dropped, hput, hdone⟩ := Op.bind_eq_done.1 hdone
      cases entry with
      | none => cases hdone
      | some entry =>
        cases hdone
        exact ⟨dp, name, locked, entry.2, looked, rfl, hlock,
          type_of_dirlookup hlookup, hlookup, hput⟩
  · rintro ⟨dp, name, locked, off, looked, rfl, hlock, -, hlookup, hput⟩
    exact Op.bind_eq_done.2 ⟨(), locked, hlock, Op.bind_eq_done.2
      ⟨some (ip, off), looked, hlookup, Op.bind_eq_done.2 ⟨(), final, hput, rfl⟩⟩⟩

/-- A path is split at its slashes, and the loop of `namex` runs over its elements.  The
result of `namei` is where they lead from the root or from the current directory, and it
is what the last one names in the directory that `nameiparent` finds. -/
theorem paths_resolve (curproc : Slot) (path : List Byte) :
    skipelems path = elements path ∧
    (∀ parent ip name, namexPath curproc parent path ip name =
      namexLoop curproc parent (elements path) ip name) ∧
    (∀ state found final, Machine.Reachable state → namei curproc path state = .done found final →
      (found.map fun ip => (final.icache ip).inum) =
        (startIno state curproc path).bind fun inum => (elements path).foldlM (into state) inum) ∧
    (elements path ≠ [] → ∀ stale state ip final, namei curproc path state = .done (some ip) final ↔
        ∃ dp name parent locked off looked,
          nameiparent curproc path stale state = .done (some dp, name) parent ∧
          ilock curproc (some dp) parent = .done () locked ∧
          (locked.icache dp).info.type = .dir ∧
          dirlookup dp name locked = .done (some (ip, off)) looked ∧
          iunlockput curproc dp looked = .done () final) := by
  refine ⟨skipelems_eq path, fun parent => namexPath_eq curproc parent path, ?_, ?_⟩
  · intro state found final hreachable hdone
    exact namei_eq_foldlM hreachable.accounted hdone
  · intro helems stale state ip final
    rw [namei_eq_lookupIn helems stale, Op.bind_eq_done]
    constructor
    · rintro ⟨found, parent, hparent, hlast⟩
      obtain ⟨dp, name, locked, off, looked, rfl, hrest⟩ := lookupIn_eq_done.1 hlast
      exact ⟨dp, name, parent, locked, off, looked, hparent, hrest⟩
    · rintro ⟨dp, name, parent, locked, off, looked, hparent, hrest⟩
      exact ⟨_, parent, hparent, lookupIn_eq_done.2 ⟨dp, name, locked, off, looked, rfl, hrest⟩⟩

/-- The path `//.` of a booted machine leads to the root, through one element. -/
theorem slashes_resolve : ∃ state ip final, Machine.Reachable state ∧
    skipelems [slash, slash, 46] = [[46]] ∧
    namei 0 [slash, slash, 46] state = .done (some ip) final ∧
    (final.icache ip).inum = rootIno ∧
    ∃ dp name parent, nameiparent 0 [slash, slash, 46] [] state = .done (some dp, name) parent := by
  have hsplit : elements [slash, slash, 46] = [[46]] := by decide
  have hstart : left (startUp (cold (emptyRoot 0o755))) = some (booted (emptyRoot 0o755)) := rfl
  have hreachable : Machine.Reachable (booted (emptyRoot 0o755)) := .start hstart
  obtain ⟨hskip, -, hfold, hlast⟩ := paths_resolve 0 [slash, slash, 46]
  have hruns : ∃ ip final, namei 0 [slash, slash, 46] (booted (emptyRoot 0o755)) =
      .done (some ip) final := ⟨_, _, rfl⟩
  obtain ⟨ip, final, hdone⟩ := hruns
  have hmeaning := hfold _ _ _ hreachable hdone
  have hroot : ((startIno (booted (emptyRoot 0o755)) 0 [slash, slash, 46]).bind fun inum =>
      (elements [slash, slash, 46]).foldlM (into (booted (emptyRoot 0o755))) inum) =
      some rootIno := by
    decide +kernel
  rw [hroot, Option.map_some, Option.some_inj] at hmeaning
  obtain ⟨dp, name, parent, -, -, -, hparent, -⟩ :=
    (hlast (by rw [hsplit]; exact cons_ne_nil _ _) [] _ _ _).1 hdone
  exact ⟨_, ip, final, hreachable, hskip.trans hsplit, hdone, hmeaning, dp, name, parent, hparent⟩

end Xv6Users.PathNames
