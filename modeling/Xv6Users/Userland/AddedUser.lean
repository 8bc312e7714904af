import Xv6Users.Userland.GroupLines
import Xv6Users.Userland.UniqueKeys

/-!
# Adding a user

`useradd` writes a new record, frees it, and then looks its own name up through
the freed record to find the member of the new group.  What the run does is
described for every content of that record.
-/

namespace Xv6Users.AddedUser

open ScannedText SortedInsert Ulib UserRecords GroupRecords LoadedFiles GroupLines Accounts
open NextNumbers UidRoundTrip KeyInvariant UniqueKeys List Option

variable {kernel : Kernel} {homedir realname uidString username freed : List Byte}
  {words : List (List Byte)} {more : List User}

/-- `MAXFILE * BSIZE`, the most that a file can hold. -/
def maxFileSize : ℕ := 521 * 2048

/-- Text files of well-formed records, where every name in a group line is the
name of a user and every line fits the buffer it is built in. -/
structure IntactFiles (files : Files) (users : List User)
    (lines : List GroupLine) : Prop where
  text : 0 ∉ files.passwd ∧ 0 ∉ files.group
  sizes : files.passwd.length ≤ maxFileSize ∧ files.group.length ≤ maxFileSize
  users_load : ∀ beyond, selectAllUsersFromPasswdFile (0 :: beyond) files.passwd = some users
  lines_load : ∀ beyond, groupLines (0 :: beyond) files.group = some lines
  records : ∀ user ∈ users, user.WellFormed ∧ LineFits user ∧ comma ∉ user.username
  keys : ∀ line ∈ lines, FieldText line.groupname ∧ IsInt line.gid ∧ 0 ≤ line.gid
  intact : ∀ line ∈ lines, Intact users line
  fits : ∀ line ∈ lines, GroupFits (resolve users line)

def loadedGroups (users : List User) (lines : List GroupLine) : List Group :=
  (insertAll compareGroups lines).map (resolve users)

/-- The reloaded lists are the old ones with the new user and a new group that
has the user's name and gid, a gid that is new, and the user as its only
member. -/
def AddsUser (users : List User) (groups : List Group) (newUser : User)
    (result : Option Run) : Prop :=
  ∃ files newGroup, result = some ⟨files, []⟩ ∧
    (∀ beyond, selectAllUsersFromPasswdFile (0 :: beyond) files.passwd =
      some (insertSorted compareUsers users newUser)) ∧
    (∀ beyond, selectAllGroupsFromGroupFile (0 :: beyond) files.passwd
      files.group = some (insertSorted compareGroups groups newGroup)) ∧
    newGroup.groupname = newUser.username ∧ newGroup.gid = newUser.gid ∧
    (∀ group ∈ groups, group.gid ≠ newGroup.gid) ∧ newGroup.userList = [newUser]

/-- The freed record still holds the new name.  A user with an empty name is also
found by a name that nobody has, but joins every group without members. -/
def StillThere (users : List User) (groups : List Group) (username freed : List Byte) : Prop :=
  if username = [] then
    (∀ user ∈ users, user.username ≠ freed) ∧ ∀ group ∈ groups, group.userList ≠ []
  else freed = username

section Lookup

variable {users : List User} {newUser : User} {name : List Byte}

/-- Other names stand for what they stood for. -/
theorem findUser_insertSorted_of_ne (hname : name ≠ newUser.username) :
    findUser (insertSorted compareUsers users newUser) name = findUser users name :=
  find?_insertSorted users (by simpa using hname.symm)

theorem findUser_insertSorted_self (hfresh : ∀ user ∈ users, user.username ≠ newUser.username) :
    findUser (insertSorted compareUsers users newUser) newUser.username = some newUser := by
  have hmem : newUser ∈ insertSorted compareUsers users newUser :=
    (perm_insertSorted users newUser).mem_iff.2 (by simp)
  obtain ⟨found, hfound⟩ := isSome_iff_exists.1 (findUser_isSome hmem rfl)
  obtain ⟨hin, hsame⟩ := findUser_eq_some hfound
  rcases mem_cons.1 ((perm_insertSorted users newUser).mem_iff.1 hin) with
    rfl | hold
  · exact hfound
  · exact absurd hsame (hfresh found hold)

end Lookup

section Lines

variable {files : Files} {users : List User} {lines : List GroupLine}
  {line : GroupLine} {newUser : User}

theorem IntactFiles.sorted (hfiles : IntactFiles files users lines) : SortedBy User.uid users :=
  selectAllUsers_sorted (hfiles.users_load [])

theorem IntactFiles.names_ne_nil (hfiles : IntactFiles files users lines)
    (hline : line ∈ lines) : line.userList ≠ [] :=
  groupLines_ne_nil (hfiles.lines_load []) line hline

theorem mem_loadedGroups {group : Group} :
    group ∈ loadedGroups users lines ↔ ∃ line ∈ lines, resolve users line = group := by
  simp only [loadedGroups, List.mem_map, (perm_insertAll lines).mem_iff]

theorem loadedGroups_sorted (users : List User) (lines : List GroupLine) :
    SortedBy GroupOf.gid (loadedGroups users lines) := by
  rw [loadedGroups, ← resolve_sorted]
  exact insertAll_sorted compareGroups_pos _

/-- The new user changes what a line resolves to only if nobody is listed and the
new name is empty. -/
theorem resolve_insertSorted (hintact : Intact users line)
    (hfresh : ∀ user ∈ users, user.username ≠ newUser.username)
    (hnamed : line.userList = [[]] → newUser.username ≠ []) :
    resolve (insertSorted compareUsers users newUser) line = resolve users line := by
  have hfind : ∀ name ∈ line.userList, findUser (insertSorted compareUsers users newUser) name =
        findUser users name := by
    intro name hname
    apply findUser_insertSorted_of_ne
    rintro rfl
    by_cases hempty : line.userList = [[]]
    · rw [hempty, mem_singleton] at hname
      exact hnamed hempty hname
    · obtain ⟨user, huser, hsame⟩ := hintact newUser.username (by
        rw [memberNamesOf, if_neg hempty]
        exact hname)
      exact hfresh user huser hsame
  rw [resolve, resolve, filterMap_congr hfind]

/-- A resolved intact line is read back as it was written. -/
theorem reread_resolve (hkeys : IsInt line.gid ∧ 0 ≤ line.gid)
    (hnames : line.userList ≠ []) (hcomma : ∀ user ∈ users, comma ∉ user.username)
    (hintact : Intact users line) : (resolve users line).reread users = resolve users line := by
  have hmembers : ∀ member ∈ (resolve users line).userList,
      findUser users member.username = some member ∧ comma ∉ member.username := by
    intro member hmember
    have hfind := (resolve_member hmember).2
    exact ⟨hfind, hcomma member (findUser_eq_some hfind).1⟩
  have hback := resolve_written hmembers
    (fun hempty => (resolve_eq_nil hintact hempty hnames).2)
    (insertAll_sorted compareUsers_pos _)
  have hgid : atoi (itoa (resolve users line).gid [] 10) = (resolve users line).gid :=
    atoi_itoa hkeys.2 hkeys.1.2 []
  rw [Group.reread, hback, hgid]

end Lines

section Run

variable {beyond : List Byte} {files : Files} {users : List User}
  {lines : List GroupLine} {newUser : User} {passwd : List Byte}

section

variable (hfiles : IntactFiles files users lines)

include hfiles

theorem IntactFiles.groups_load
    (hload : selectAllUsersFromPasswdFile (0 :: beyond) passwd = some more) :
    selectAllGroupsFromGroupFile (0 :: beyond) passwd files.group =
      some (loadedGroups more lines) := by
  rw [selectAllGroups_eq hload, hfiles.lines_load beyond, map_some, resolve_sorted]
  rfl

/-- The new record is written beside the old ones. -/
theorem IntactFiles.add_user (hnew : newUser.WellFormed) (hfits : LineFits newUser) :
    ∃ passwd, addNewUser (0 :: beyond) files.passwd newUser = some passwd ∧
      ∀ beyond, selectAllUsersFromPasswdFile (0 :: beyond) passwd =
        some (insertSorted compareUsers users newUser) := by
  have hperm := @perm_insertSorted User compareUsers users newUser
  have hall : ∀ user ∈ insertSorted compareUsers users newUser,
      user.WellFormed ∧ LineFits user := by
    intro user huser
    rcases mem_cons.1 (hperm.mem_iff.1 huser) with rfl | hold
    · exact ⟨hnew, hfits⟩
    · exact ⟨(hfiles.records user hold).1, (hfiles.records user hold).2.1⟩
  have hwrite : updatePasswdFile (insertSorted compareUsers users newUser) =
      some ((insertSorted compareUsers users newUser).flatMap getStringFromUser) :=
    updatePasswdFile_eq_some.2 ⟨fun user huser => (hall user huser).2, rfl⟩
  refine ⟨(insertSorted compareUsers users newUser).flatMap getStringFromUser, ?_, fun beyond => ?_⟩
  · simp only [addNewUser, hfiles.users_load, bind_eq_bind, bind_some, addUserToListSorted]
    exact hwrite
  · rw [reload_updatePasswdFile (fun user huser => (hall user huser).1.loose) hwrite,
      map_reparse fun user huser => (hall user huser).1,
      insertAll_of_sorted compareUsers_pos
        (insertSorted_sorted compareUsers_pos hfiles.sorted newUser)]

/-- The next free gid depends on the gids of the lines only. -/
theorem IntactFiles.nextGid_eq
    (hload : selectAllUsersFromPasswdFile (0 :: beyond) passwd = some more) :
    getNextAvailableGid (0 :: beyond) passwd files.group =
      some ((insertAll compareGroups lines).foldl
        (fun gid line => if line.gid = gid then int32 (gid + 1) else gid) 1000) := by
  simp only [getNextAvailableGid, hfiles.groups_load hload, bind_eq_bind,
    bind_some, loadedGroups, foldl_map]
  rfl

theorem IntactFiles.lines_length : lines.length ≤ maxFileSize + 1 := by
  have hlength := length_recordsOf (hfiles.lines_load [])
  rw [length_append] at hlength
  exact hlength.trans (Nat.succ_le_succ hfiles.sizes.2)

/-- The gid of the new group is not taken. -/
theorem IntactFiles.nextGid_fresh {gid : ℤ}
    (hgid : getNextAvailableGid (0 :: beyond) files.passwd files.group = some gid) :
    0 ≤ gid ∧ ∀ line ∈ lines, line.gid ≠ gid := by
  rw [hfiles.nextGid_eq (hfiles.users_load beyond), some_inj] at hgid
  have hperm := @perm_insertAll GroupLine compareGroups lines
  have hlength : (insertAll compareGroups lines).length ≤ maxFileSize + 1 :=
    hperm.length_eq.trans_le hfiles.lines_length
  have hsorted : SortedBy GroupOf.gid (insertAll compareGroups lines) :=
    insertAll_sorted compareGroups_pos lines
  obtain ⟨hlow, hfree⟩ := (hgid ▸ next_isLeast hsorted (by norm_num)
    (by unfold maxFileSize at hlength; omega)).1
  exact ⟨by omega, fun line hline => hfree line (hperm.mem_iff.2 hline)⟩

theorem IntactFiles.users_length : users.length ≤ maxFileSize + 1 := by
  obtain ⟨tokens, parsed, htokens, hparsed, rfl⟩ := selectAllUsers_eq_some (hfiles.users_load [])
  have hlength := length_recordsOf (bind_eq_some_iff.2 ⟨tokens, htokens, hparsed⟩)
  rw [length_append] at hlength
  exact ((perm_insertAll parsed).length_eq.trans_le hlength).trans (Nat.succ_le_succ hfiles.sizes.1)

theorem IntactFiles.chooseUid_nonneg (hnumber : PlainNumber uidString) {uid : ℤ}
    (huid : chooseUid (0 :: beyond) files.passwd uidString = some (some uid)) : 0 ≤ uid := by
  have hload := hfiles.users_load beyond
  rw [chooseUid] at huid
  split at huid
  case isTrue =>
    obtain ⟨next, hnext, hsome⟩ := map_eq_some_iff.1 huid
    cases hsome
    simp only [getNextAvailableUid, hload, bind_eq_bind, bind_some, some_inj] at hnext
    have hlength := hfiles.users_length
    obtain ⟨hlow, -⟩ := (hnext ▸ next_isLeast hfiles.sorted (by norm_num)
      (by unfold maxFileSize at hlength; omega)).1
    omega
  case isFalse =>
    obtain ⟨rfl, -⟩ := requestedUid_eq_some hload huid
    exact hnumber.nonneg

/-- The record that `createUser` makes of plain arguments is well formed. -/
theorem IntactFiles.newUser_wellFormed
    (hplain : PlainName homedir ∧ PlainName realname ∧ PlainName username)
    (hnumber : PlainNumber uidString)
    (hcreate : createUser (0 :: beyond) files kernel homedir uidString realname
      username = some (some newUser)) : newUser.WellFormed := by
  have hnew := createUser_newRecord (hfiles.users_load beyond)
    ⟨hplain.1.1, hplain.2.1.1, hplain.2.2.1⟩ hcreate
  obtain ⟨hchosen, hgid, rfl, -, -, rfl, -, hhome⟩ := createUser_eq_some hcreate
  have hpath : colon ∉ newUser.homedir := by
    rw [(homePath_eq_some hhome).1, mem_append, not_or]
    refine ⟨by decide +kernel, ?_⟩
    split
    · exact hplain.2.2.2
    · exact hplain.1.2
  exact
    { username := hnew.username.fieldText hplain.2.2.2
      password := hnew.password
      uid := hnew.uid
      gid := hnew.gid
      realname := hnew.realname.fieldText hplain.2.1.2
      homedir := hnew.homedir.fieldText hpath
      uid_nonneg := hfiles.chooseUid_nonneg hnumber hchosen
      gid_nonneg := (hfiles.nextGid_fresh hgid).1 }

end

/-- The group that `createGroup` makes, with whom the freed name stands for. -/
def madeGroup (users : List User) (newUser : User) (freed : List Byte) : Group where
  groupname := newUser.username
  gid := newUser.gid
  userList := (findUser (insertSorted compareUsers users newUser) freed).toList

theorem IntactFiles.createGroup_eq (hfiles : IntactFiles files users lines)
    (hload : selectAllUsersFromPasswdFile (0 :: beyond) passwd =
      some (insertSorted compareUsers users newUser))
    (hgid : getNextAvailableGid (0 :: beyond) files.passwd files.group = some newUser.gid)
    (hfits : newUser.username.length < stringSize) (freed : List Byte) :
    createGroup (0 :: beyond) ⟨passwd, files.group⟩ newUser.username [] (some freed) =
      some (some (madeGroup users newUser freed)) := by
  rw [hfiles.nextGid_eq (hfiles.users_load beyond), some_inj] at hgid
  have hcopy : strcpy stringSize newUser.username = some newUser.username :=
    strcpy_eq_some.2 ⟨hfits, rfl⟩
  have hchosen : chooseGid (0 :: beyond) ⟨passwd, files.group⟩ [] = some (some newUser.gid) := by
    rw [chooseGid, if_pos (by rfl), hfiles.nextGid_eq hload, hgid]
    rfl
  simp only [createGroup, hcopy, hchosen, bind_eq_bind, bind_some,
    getUserFromUsername, hload, madeGroup, findUser]

/-- The whole run, up to the last write. -/
theorem IntactFiles.main_eq (hfiles : IntactFiles files users lines)
    (hwords : parseCommandLineArguments Useradd.getPositionInArguments 4 words =
      some (some [homedir, uidString, realname, username]))
    (hcreate : createUser (0 :: beyond) files kernel homedir uidString realname
      username = some (some newUser))
    (hadd : addNewUser (0 :: beyond) files.passwd newUser = some passwd)
    (hload : selectAllUsersFromPasswdFile (0 :: beyond) passwd =
      some (insertSorted compareUsers users newUser)) (freed : List Byte) :
    Useradd.main (0 :: beyond) kernel freed words files =
      (updateGroupFile (insertSorted compareGroups
        (loadedGroups (insertSorted compareUsers users newUser) lines)
        (madeGroup users newUser freed))).map fun group => ⟨⟨passwd, group⟩, []⟩ := by
  obtain ⟨-, hgid, hname, hfits, -⟩ := createUser_eq_some hcreate
  simp only [Useradd.main, hwords, hcreate, hadd, bind_eq_bind,
    bind_some, hfiles.createGroup_eq hload hgid (hname ▸ hfits), addNewGroup,
    hfiles.groups_load hload, addGroupToListSorted]
  cases updateGroupFile _ <;> rfl

/-- The new user is the one member that the new group is read back with. -/
theorem reread_madeGroup (hnew : newUser.WellFormed)
    (hcomma : ∀ user ∈ insertSorted compareUsers users newUser,
      comma ∉ user.username) (freed : List Byte) :
    (madeGroup users newUser freed).reread (insertSorted compareUsers users newUser) =
      ⟨newUser.username, newUser.gid,
        match findUser (insertSorted compareUsers users newUser) freed with
        | some user => [user]
        | none => (findUser (insertSorted compareUsers users newUser) []).toList⟩ := by
  rw [Group.reread]
  simp only [madeGroup, atoi_itoa hnew.gid_nonneg hnew.gid.2]
  cases hfind : findUser (insertSorted compareUsers users newUser) freed with
  | none =>
    cases hempty : findUser (insertSorted compareUsers users newUser) [] <;>
      simp [memberNames, hempty, insertAll, insertSorted]
  | some user =>
    obtain ⟨hmem, rfl⟩ := findUser_eq_some hfind
    have hback := @resolve_written (insertSorted compareUsers users newUser) [user]
      (by simpa using ⟨hfind, hcomma user hmem⟩) (by simp) (by simp [SortedBy])
    simp only [toList_some, hback]

theorem IntactFiles.comma_free (hfiles : IntactFiles files users lines)
    (hcomma : comma ∉ newUser.username) :
    ∀ user ∈ insertSorted compareUsers users newUser, comma ∉ user.username := by
  intro user huser
  rcases mem_cons.1 ((perm_insertSorted users newUser).mem_iff.1 huser) with
    rfl | hold
  · exact hcomma
  · exact (hfiles.records user hold).2.2

theorem subset_insertSorted (users : List User) (newUser : User) :
    users ⊆ insertSorted compareUsers users newUser := by
  intro user huser
  exact (perm_insertSorted users newUser).mem_iff.2 (.tail _ huser)

/-- Every group of the new file can be printed. -/
theorem IntactFiles.printable (hfiles : IntactFiles files users lines)
    (hnew : newUser.WellFormed) (freed : List Byte) :
    ∀ group ∈ insertSorted compareGroups
        (loadedGroups (insertSorted compareUsers users newUser) lines)
        (madeGroup users newUser freed), Group.Printable group := by
  have htext : ∀ {name : List Byte} {user : User},
      findUser (insertSorted compareUsers users newUser) name = some user →
      FieldText user.username := by
    intro name user hfind
    rcases mem_cons.1 ((perm_insertSorted users newUser).mem_iff.1
      (findUser_eq_some hfind).1) with rfl | hold
    · exact hnew.username
    · exact (hfiles.records user hold).1.username
  intro group hgroup
  rcases mem_cons.1 ((perm_insertSorted _ _).mem_iff.1 hgroup) with rfl | hold
  · refine ⟨hnew.username, hnew.gid, fun member hmember => ?_⟩
    exact htext (mem_toList.1 hmember)
  · obtain ⟨line, hline, rfl⟩ := mem_loadedGroups.1 hold
    obtain ⟨hname, hgid, -⟩ := hfiles.keys line hline
    exact ⟨hname, hgid, fun member hmember => htext (resolve_member hmember).2⟩

/-- The group list that the written file loads to. -/
theorem IntactFiles.reload (hfiles : IntactFiles files users lines)
    (hnew : newUser.WellFormed) (hcomma : comma ∉ newUser.username)
    (hload : selectAllUsersFromPasswdFile (0 :: beyond) passwd =
      some (insertSorted compareUsers users newUser)) {content : List Byte}
    (hwrite : updateGroupFile (insertSorted compareGroups
      (loadedGroups (insertSorted compareUsers users newUser) lines)
      (madeGroup users newUser freed)) = some content) :
    selectAllGroupsFromGroupFile (0 :: beyond) passwd content = some (insertSorted compareGroups
        (loadedGroups (insertSorted compareUsers users newUser) lines)
        ((madeGroup users newUser freed).reread (insertSorted compareUsers users newUser))) := by
  have hfree := hfiles.comma_free hcomma
  have hgid : ((madeGroup users newUser freed).reread
      (insertSorted compareUsers users newUser)).gid = newUser.gid := by
    rw [reread_madeGroup hnew hfree]
  rw [reload_updateGroupFile hload (hfiles.printable hnew freed) hwrite,
    map_insertSorted, insertAll_of_sorted compareGroups_pos]
  · exact insertSorted_sorted compareGroups_pos (loadedGroups_sorted _ _) _
  · intro group hgroup
    obtain ⟨line, hline, rfl⟩ := mem_loadedGroups.1 hgroup
    exact reread_resolve (hfiles.keys line hline).2 (hfiles.names_ne_nil hline) hfree
      ((hfiles.intact line hline).mono (subset_insertSorted users newUser))
  · intro group _
    unfold compareGroups
    rw [hgid]
    rfl

/-- The name, a number and one member are shorter than a line. -/
theorem madeGroup_fits (hnew : newUser.WellFormed) (freed : List Byte)
    (htext : ∀ member ∈ (madeGroup users newUser freed).userList,
      FieldText member.username) : GroupFits (madeGroup users newUser freed) := by
  have hname := hnew.username.fits
  have hnumber := (fieldText_itoa hnew.gid).fits
  unfold GroupFits getStringFromGroup
  unfold madeGroup at htext ⊢
  cases hfind : findUser (insertSorted compareUsers users newUser) freed with
  | none =>
    simp [memberText, stringSize] at hname hnumber ⊢
    omega
  | some member =>
    have hmember := (htext member (by simp [hfind])).fits
    simp [memberText, stringSize] at hname hnumber hmember ⊢
    omega

/-- The old groups are loaded as before exactly when no group without members
meets a user without a name. -/
theorem IntactFiles.loadedGroups_eq_iff (hfiles : IntactFiles files users lines)
    (hfresh : ∀ user ∈ users, user.username ≠ newUser.username) :
    loadedGroups (insertSorted compareUsers users newUser) lines = loadedGroups users lines ↔
      newUser.username = [] → ∀ group ∈ loadedGroups users lines, group.userList ≠ [] := by
  constructor
  · intro hsame hname group hgroup hempty
    obtain ⟨line, hline, rfl⟩ := mem_loadedGroups.1 hgroup
    have hlist := (resolve_eq_nil (hfiles.intact line hline) hempty (hfiles.names_ne_nil hline)).1
    have hresolve := map_inj_left.1 hsame line
      ((perm_insertAll lines).mem_iff.2 hline)
    have hfind := findUser_insertSorted_self hfresh
    rw [hname] at hfind
    rw [← hresolve, resolve, hlist] at hempty
    simp [hfind, insertAll, insertSorted] at hempty
  · intro hnamed
    apply map_congr_left
    intro line hline
    have hmem := (perm_insertAll lines).mem_iff.1 hline
    apply resolve_insertSorted (hfiles.intact line hmem) hfresh
    intro hlist hname
    apply hnamed hname (resolve users line) (mem_loadedGroups.2 ⟨line, hmem, rfl⟩)
    have hnone : findUser users [] = none := by
      rw [findUser, find?_eq_none]
      intro user huser
      simpa [hname] using hfresh user huser
    simp [resolve, hlist, hnone, insertAll]

/-- The member that the freed name leads to is the new user exactly when the name
is still there, or both the name and the member list are empty. -/
theorem member_eq_iff (hfresh : ∀ user ∈ users, user.username ≠ newUser.username)
    (freed : List Byte) :
    (match findUser (insertSorted compareUsers users newUser) freed with
      | some user => [user]
      | none => (findUser (insertSorted compareUsers users newUser) []).toList) =
        [newUser] ↔
      if newUser.username = [] then ∀ user ∈ users, user.username ≠ freed
      else freed = newUser.username := by
  have hself := findUser_insertSorted_self hfresh
  by_cases hname : freed = newUser.username
  · subst hname
    simp only [hself, true_iff]
    split
    · exact hfresh
    · trivial
  · have hother : findUser (insertSorted compareUsers users newUser) freed =
        findUser users freed := findUser_insertSorted_of_ne hname
    rw [hother]
    cases hfind : findUser users freed with
    | some user =>
      obtain ⟨huser, hsame⟩ := findUser_eq_some hfind
      have hne : user ≠ newUser := by
        rintro rfl
        exact hfresh user huser rfl
      simp only [cons.injEq, and_true, hne, hname, if_false_right, false_iff, not_and]
      exact fun _ hall => hall user huser hsame
    | none =>
      have hunknown : ∀ user ∈ users, user.username ≠ freed := by
        simpa [findUser] using hfind
      by_cases hempty : newUser.username = []
      · rw [hempty] at hself
        simpa [hself, hempty] using hunknown
      · rw [if_neg hempty]
        refine iff_of_false (fun hlist => ?_) hname
        have hmem : newUser ∈ (findUser (insertSorted compareUsers users newUser) []).toList := by
          simp only [hlist, mem_singleton]
        exact hempty (findUser_eq_some (mem_toList.1 hmem)).2

theorem IntactFiles.madeGroup_text (hfiles : IntactFiles files users lines)
    (hnew : newUser.WellFormed) (freed : List Byte) :
    ∀ member ∈ (madeGroup users newUser freed).userList, FieldText member.username :=
  (hfiles.printable hnew freed _ ((perm_insertSorted _ _).mem_iff.2 (.head _))).members

/-- What a run that adds the user says about the groups that are read back. -/
theorem IntactFiles.reload_of_addsUser (hfiles : IntactFiles files users lines)
    (hwords : parseCommandLineArguments Useradd.getPositionInArguments 4 words =
      some (some [homedir, uidString, realname, username]))
    (hcreate : createUser (0 :: beyond) files kernel homedir uidString realname
      username = some (some newUser)) (hnew : newUser.WellFormed)
    (hcomma : comma ∉ newUser.username) (hfits : LineFits newUser)
    (hadds : AddsUser users (loadedGroups users lines) newUser
      (Useradd.main (0 :: beyond) kernel freed words files)) :
    ∃ newGroup : Group, newGroup.gid = newUser.gid ∧ newGroup.userList = [newUser] ∧
      insertSorted compareGroups (loadedGroups (insertSorted compareUsers users newUser) lines)
          ((madeGroup users newUser freed).reread (insertSorted compareUsers users newUser)) =
        insertSorted compareGroups (loadedGroups users lines) newGroup := by
  obtain ⟨passwd, hadd, hload⟩ := @IntactFiles.add_user beyond _ _ _ _ hfiles hnew hfits
  obtain ⟨files', newGroup, hresult, -, hreload, -, hgid, -, hlist⟩ := hadds
  rw [hfiles.main_eq hwords hcreate hadd (hload beyond) freed] at hresult
  obtain ⟨content, hwrite, hrun⟩ := map_eq_some_iff.1 hresult
  cases hrun
  exact ⟨newGroup, hgid, hlist, some.inj
    ((hfiles.reload hnew hcomma (hload beyond) hwrite).symm.trans (hreload beyond))⟩

end Run

def shippedUsers : List User :=
  [shippedRoot, shippedKen, shippedDmr, shippedBwk]

def shippedLines : List GroupLine :=
  (shippedGroups ++ shippedLastGroup).map fun group =>
    group.withMembers (group.userList.map User.username)

def shippedBob : User :=
  ⟨str "bob", [], 1003, 1003, [], str "/home/bob"⟩

theorem shipped_intact : IntactFiles shippedFiles shippedUsers shippedLines where
  text := by decide +kernel
  sizes := by decide +kernel
  users_load := shipped_holds.users_load
  lines_load beyond := by
    rw [shipped_group_lines]
    exact (groupLines_lines (by decide) (fun group hgroup =>
      ⟨(shipped_group_text group hgroup).1, (shipped_group_text group hgroup).2.1.1,
        (shipped_group_text group hgroup).2.2⟩) beyond).trans (by decide +kernel)
  records user huser := by
    have hrest : ∀ user ∈ shippedUsers, LineFits user ∧ comma ∉ user.username := by
      decide +kernel
    exact ⟨shipped_wellFormed user huser, hrest user huser⟩
  keys line hline := by
    obtain ⟨group, hgroup, rfl⟩ := List.mem_map.1 hline
    exact ⟨(shipped_group_text group hgroup).1, (shipped_group_text group hgroup).2.1⟩
  intact := by decide +kernel
  fits := by decide +kernel

theorem shipped_createUser :
    createUser [0] shippedFiles willing [] [] [] (str "bob") =
      some (some shippedBob) := by
  have huid : chooseUid [0] shippedFiles.passwd [] = some (some 1003) := by
    rw [chooseUid, if_pos (by rfl), getNextAvailableUid, shipped_intact.users_load]
    decide
  have hgid : getNextAvailableGid [0] shippedFiles.passwd shippedFiles.group = some 1003 := by
    rw [shipped_intact.nextGid_eq (shipped_intact.users_load [])]
    decide +kernel
  rw [createUser, huid]
  simp only [bind_eq_bind, bind_some, hgid]
  rfl

theorem shipped_words :
    parseCommandLineArguments Useradd.getPositionInArguments 4 [str "bob"] =
      some (some [[], [], [], str "bob"]) := by
  decide +kernel

theorem shippedBob_wellFormed : shippedBob.WellFormed := by
  have hplain : PlainName (str "bob") := ⟨by decide +kernel, by decide +kernel⟩
  have hnone : PlainName [] := ⟨by simp [Word], by simp⟩
  exact shipped_intact.newUser_wellFormed ⟨hnone, hnone, hplain⟩ (.inl rfl) shipped_createUser

end Xv6Users.AddedUser
