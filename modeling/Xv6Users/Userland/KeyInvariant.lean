import Xv6Users.Userland.JoinGroups
import Xv6Users.Userland.LeaveGroups
import Xv6Users.Userland.NextNumbers
import Xv6Users.Userland.UidRoundTrip

/-!
# The key invariant of the database

What the two files have to satisfy for all their keys to be unique and to stay
so: the records load, whatever lies behind the read buffers, and the group keys
do not depend on the password file.  The library routines keep this invariant
when the names and numbers they are given are new and are read back as they
were written.
-/

namespace Xv6Users.KeyInvariant

open ScannedText SortedInsert Ulib UserRecords GroupRecords LoadedFiles MemberLists JoinGroups
open LeaveGroups NextNumbers Accounts UidRoundTrip Function List Option

variable {newGroup : Group} {kernel : Kernel}
  {a gidString group groupname homedir newUsername passwd realname uidString username groups
    names : List Byte} {currUser user newUser modUser : User} {lookup : Option (List Byte)}
  {uid gid : ℤ}

/-- Usernames, uids, group names and gids are pairwise distinct. -/
def HasUniqueKeys (files : Files) : Prop :=
  ∀ beyond, ∃ users groups, selectAllUsersFromPasswdFile (0 :: beyond) files.passwd = some users ∧
    selectAllGroupsFromGroupFile (0 :: beyond) files.passwd files.group = some groups ∧
    (users.map User.username).Nodup ∧ (users.map User.uid).Nodup ∧
    (groups.map GroupOf.groupname).Nodup ∧ (groups.map GroupOf.gid).Nodup

def PlainNumber (text : List Byte) : Prop :=
  text = [] ∨ decimalPrefix text % 2 ^ 32 < 2 ^ 31

def PlainName (text : List Byte) : Prop :=
  Word text ∧ colon ∉ text

/-- The next free uid is an `int`. -/
def UidRoom (beyond passwd : List Byte) : Prop :=
  ∀ users, selectAllUsersFromPasswdFile (0 :: beyond) passwd = some users →
    users.length + 1000 < 2 ^ 31

/-- The next free gid is an `int`. -/
def GidRoom (beyond group : List Byte) : Prop :=
  ∀ passwd groups, selectAllGroupsFromGroupFile (0 :: beyond) passwd group =
    some groups → groups.length + 1000 < 2 ^ 31

def groupKey (group : Group) : List Byte × ℤ :=
  (group.groupname, group.gid)

/-- The group file loads with these keys, whatever the password file is. -/
def GroupsLoad (group : List Byte) (keys : List (List Byte × ℤ)) : Prop :=
  ∀ beyond passwd users, selectAllUsersFromPasswdFile (0 :: beyond) passwd = some users →
    ∃ groups, selectAllGroupsFromGroupFile (0 :: beyond) passwd group =
      some groups ∧ groups.map groupKey = keys

/-- Well-formed users with distinct names and uids. -/
structure GoodUsers (users : List User) : Prop where
  wellFormed : ∀ user ∈ users, user.WellFormed
  usernames : (users.map User.username).Nodup
  uids : (users.map User.uid).Nodup

/-- Group keys that can be written and are distinct. -/
structure GoodKeys (keys : List (List Byte × ℤ)) : Prop where
  text : ∀ key ∈ keys, FieldText key.1 ∧ IsInt key.2 ∧ 0 ≤ key.2
  groupnames : (keys.map Prod.fst).Nodup
  gids : (keys.map Prod.snd).Nodup

/-- What every careful run preserves. -/
structure Holds (files : Files) (users : List User)
    (keys : List (List Byte × ℤ)) : Prop where
  users_load : ∀ beyond, selectAllUsersFromPasswdFile (0 :: beyond) files.passwd = some users
  users : GoodUsers users
  groups_load : GroupsLoad files.group keys
  keys : GoodKeys keys

theorem Holds.hasUniqueKeys {files : Files} {users : List User}
    {keys : List (List Byte × ℤ)} (hholds : Holds files users keys) : HasUniqueKeys files := by
  intro beyond
  obtain ⟨groups, hgroups, rfl⟩ :=
    hholds.groups_load beyond files.passwd users (hholds.users_load beyond)
  refine ⟨users, groups, hholds.users_load beyond, hgroups,
    hholds.users.usernames, hholds.users.uids, ?_, ?_⟩
  · simpa [groupKey, comp_def] using hholds.keys.groupnames
  · simpa [groupKey, comp_def] using hholds.keys.gids

section Groups

variable {beyond content : List Byte} {files : Files} {users : List User}
  {keys : List (List Byte × ℤ)} {groups : List Group}

/-- Groups in order are read back with the keys they were written with. -/
theorem reread_keys (htext : ∀ group ∈ groups, IsInt group.gid ∧ 0 ≤ group.gid)
    (hsorted : SortedBy GroupOf.gid groups) (users : List User) :
    (insertAll compareGroups (groups.map (Group.reread users))).map groupKey =
      groups.map groupKey := by
  have hgid : ∀ group ∈ groups, (group.reread users).gid = group.gid :=
    fun group hgroup => atoi_itoa (htext group hgroup).2 (htext group hgroup).1.2 []
  have hreread : SortedBy GroupOf.gid (groups.map (Group.reread users)) := by
    refine List.pairwise_map.2 (hsorted.imp_of_mem ?_)
    intro left right hleft hright hle
    rwa [hgid left hleft, hgid right hright]
  rw [insertAll_of_sorted compareGroups_pos hreread, List.map_map]
  refine List.map_congr_left fun group hgroup => ?_
  exact Prod.ext rfl (hgid group hgroup)

theorem groupsLoad_written
    (htext : ∀ key ∈ groups.map groupKey, FieldText key.1 ∧ IsInt key.2 ∧ 0 ≤ key.2)
    (hmembers : ∀ group ∈ groups, ∀ member ∈ group.userList, FieldText member.username)
    (hsorted : SortedBy GroupOf.gid groups) (hwrite : updateGroupFile groups = some content) :
    GroupsLoad content (groups.map groupKey) := by
  intro beyond passwd users hload
  have hkeys : ∀ group ∈ groups, FieldText group.groupname ∧
      IsInt group.gid ∧ 0 ≤ group.gid := fun group hgroup =>
    htext (groupKey group) (mem_map_of_mem hgroup)
  have hprintable : ∀ group ∈ groups, group.Printable := fun group hgroup =>
    ⟨(hkeys group hgroup).1, (hkeys group hgroup).2.1, hmembers group hgroup⟩
  exact ⟨_, reload_updateGroupFile hload hprintable hwrite,
    reread_keys (fun group hgroup => (hkeys group hgroup).2) hsorted users⟩

/-- The groups that a run of this history loads. -/
theorem Holds.exists_groups (hholds : Holds files users keys) (beyond : List Byte) :
    ∃ groups, selectAllGroupsFromGroupFile (0 :: beyond) files.passwd
        files.group = some groups ∧ groups.map groupKey = keys ∧
      SortedBy GroupOf.gid groups ∧
      ∀ group ∈ groups, ∀ member ∈ group.userList, member ∈ users := by
  obtain ⟨groups, hgroups, hkeys⟩ :=
    hholds.groups_load beyond files.passwd users (hholds.users_load beyond)
  exact ⟨groups, hgroups, hkeys, loaded_groups_sorted hgroups,
    fun group hgroup member hmember =>
      (loaded_members (hholds.users_load beyond) hgroups hgroup hmember).1⟩

theorem Holds.username_text (hholds : Holds files users keys) (huser : user ∈ users) :
    FieldText user.username := (hholds.users.wellFormed user huser).username

/-- A rewrite that changes member lists only keeps the keys. -/
theorem Holds.rewrite_members (hholds : Holds files users keys) {written : List Group}
    (hgroups : selectAllGroupsFromGroupFile (0 :: beyond) files.passwd files.group = some groups)
    (hkeys : written.map groupKey = groups.map groupKey)
    (hmembers : ∀ group ∈ written, ∀ member ∈ group.userList, member ∈ users)
    (hwrite : updateGroupFile written = some content) :
    Holds ⟨files.passwd, content⟩ users keys := by
  obtain ⟨loaded, hloaded, rfl, hsorted, -⟩ := hholds.exists_groups beyond
  cases hloaded.symm.trans hgroups
  have hgids : ∀ list : List Group, SortedBy GroupOf.gid list ↔
      ((list.map groupKey).map Prod.snd).Pairwise (· ≤ ·) := fun list => by
    rw [List.map_map, List.pairwise_map]
    rfl
  refine ⟨hholds.users_load, hholds.users, ?_, hholds.keys⟩
  rw [← hkeys]
  refine groupsLoad_written (by rw [hkeys]; exact hholds.keys.text) ?_ ?_ hwrite
  · exact fun group hgroup member hmember =>
      hholds.username_text (hmembers group hgroup member hmember)
  · rw [hgids, hkeys, ← hgids]
    exact hsorted

/-- A rewrite of the group file that keeps the keys and takes every member from
the old groups, the user apart. -/
def Rewritten (groups : List Group) (user : User) (content : List Byte) : Prop :=
  ∃ written : List Group, written.map groupKey = groups.map groupKey ∧
    (∀ group ∈ written, ∀ member ∈ group.userList,
      member = user ∨ ∃ old ∈ groups, member ∈ old.userList) ∧
    updateGroupFile written = some content

theorem Holds.rewrite (hholds : Holds files users keys) (huser : user ∈ users)
    (hgroups : selectAllGroupsFromGroupFile (0 :: beyond) files.passwd files.group = some groups)
    (hrewritten : Rewritten groups user content) : Holds ⟨files.passwd, content⟩ users keys := by
  obtain ⟨written, hkeys, hmembers, hwrite⟩ := hrewritten
  refine hholds.rewrite_members hgroups hkeys ?_ hwrite
  intro group hgroup member hmember
  rcases hmembers group hgroup member hmember with rfl | ⟨old, hold, hmember⟩
  · exact huser
  · exact (loaded_members (hholds.users_load beyond) hgroups hold hmember).1

theorem leave_rewritten
    (hgroups : selectAllGroupsFromGroupFile (0 :: beyond) passwd group = some groups)
    (hremove : removeUserFromAllGroups (0 :: beyond) passwd group user = some content) :
    Rewritten groups user content := by
  rw [removeUserFromAllGroups_eq hgroups, bind_eq_some_iff] at hremove
  obtain ⟨left, hleft, hwrite⟩ := hremove
  have heq := eq_map_of_mapM hleft
    (g := fun group => (leaveGroup user group).getD group)
    fun group new hnew => by simp [hnew]
  subst heq
  have hshrink : ∀ group ∈ groups, ∃ kept : List User, kept.Sublist group.userList ∧
        (leaveGroup user group).getD group = group.withMembers kept := by
    intro group hgroup
    obtain ⟨kept, hkept, hnew⟩ := map_eq_some_iff.1 (mapM_eq_map_iff.1 hleft group hgroup)
    exact ⟨kept, removeMember_sublist hkept, hnew.symm⟩
  refine ⟨_, ?_, ?_, hwrite⟩
  · rw [List.map_map]
    refine map_congr_left fun group hgroup => ?_
    obtain ⟨kept, -, hnew⟩ := hshrink group hgroup
    rw [comp_apply, hnew]
    rfl
  · intro new hnew member hmember
    obtain ⟨group, hgroup, rfl⟩ := mem_map.1 hnew
    obtain ⟨kept, hsublist, hnew⟩ := hshrink group hgroup
    rw [hnew] at hmember
    exact .inr ⟨group, hgroup, hsublist.subset hmember⟩

theorem joinedGroups_keys (user : User) (toAdd groups : List Group) :
    (joinedGroups user toAdd groups).map groupKey = groups.map groupKey := by
  have hmarks : (marks user toAdd groups).map Prod.fst = groups :=
    joinMarks_groups (inside user) toAdd groups
  nth_rewrite 2 [← hmarks]
  rw [joinedGroups, List.map_map, List.map_map]
  refine List.map_congr_left fun mark _ => ?_
  rw [Function.comp_apply, Function.comp_apply]
  split_ifs <;> rfl

theorem joinedGroups_members (user : User) (toAdd groups : List Group) :
    ∀ group ∈ joinedGroups user toAdd groups, ∀ member ∈ group.userList,
      member = user ∨ ∃ old ∈ groups, member ∈ old.userList := by
  have hmarked : ∀ mark ∈ marks user toAdd groups, mark.1 ∈ groups := by
    intro mark hmark
    have hmem := mem_map_of_mem (f := Prod.fst) hmark
    rwa [marks, joinMarks_groups] at hmem
  have htail : ∀ member ∈ finalTail user toAdd groups, ∃ old ∈ groups, member ∈ old.userList := by
    intro member hmember
    rw [finalTail] at hmember
    rcases sharedTail_mem (marks user toAdd groups) []
      with hnil | ⟨mark, hmark, -, htail⟩
    · rw [hnil] at hmember
      simp at hmember
    · rw [htail] at hmember
      exact ⟨mark.1, hmarked mark hmark, (dropWhile_sublist _).subset hmember⟩
  intro group hgroup member hmember
  obtain ⟨mark, hmark, rfl⟩ := mem_map.1 hgroup
  split_ifs at hmember
  · rw [userList_withMembers, mem_append, mem_cons] at hmember
    rcases hmember with hlower | rfl | hupper
    · exact .inr ⟨mark.1, hmarked mark hmark, (takeWhile_sublist _).subset hlower⟩
    · exact .inl rfl
    · exact .inr (htail member hupper)
  · exact .inr ⟨mark.1, hmarked mark hmark, hmember⟩

theorem join_rewritten {toAdd : List Group}
    (hgroups : selectAllGroupsFromGroupFile (0 :: beyond) passwd group = some groups)
    (hadd : addUserToGroups (0 :: beyond) passwd group toAdd user = some content) :
    Rewritten groups user content := by
  rw [addUserToGroups_eq hgroups] at hadd
  exact ⟨_, joinedGroups_keys user toAdd groups, joinedGroups_members user toAdd groups, hadd⟩

/-- The `-G` part leaves the group file alone or rewrites it once or twice; a
property that rewrites keep holds after it. -/
theorem changeGroups_induction (property : List Byte → Prop)
    (hrewrite : ∀ group content, property group →
      (removeUserFromAllGroups (0 :: beyond) files.passwd group user = some content ∨
        ∃ toAdd, addUserToGroups (0 :: beyond) files.passwd group toAdd user =
          some content) → property content) (hproperty : property files.group)
    (hchange : changeGroups (0 :: beyond) files user names a = some content) :
    property content := by
  rw [Accounts.changeGroups] at hchange
  split_ifs at hchange
  · cases hchange
    exact hproperty
  · simp only [bind_eq_bind, bind_eq_some_iff] at hchange
    obtain ⟨group, hleave, toAdd, -, hadd⟩ := hchange
    refine hrewrite group content ?_ (.inr ⟨toAdd, hadd⟩)
    rw [leaveGroups] at hleave
    split_ifs at hleave
    · exact hrewrite files.group group hproperty (.inl hleave)
    · cases hleave
      exact hproperty

theorem Holds.changeGroups (hholds : Holds files users keys) (huser : user ∈ users)
    (hchange : changeGroups (0 :: beyond) files user names a = some content) :
    Holds ⟨files.passwd, content⟩ users keys := by
  refine changeGroups_induction
    (fun group => Holds ⟨files.passwd, group⟩ users keys) ?_ hholds hchange
  intro group content hgroup hwritten
  obtain ⟨groups, hgroups, -⟩ := hgroup.exists_groups beyond
  apply hgroup.rewrite huser hgroups
  rcases hwritten with hleave | ⟨toAdd, hadd⟩
  · exact leave_rewritten hgroups hleave
  · exact join_rewritten hgroups hadd

end Groups

section Numbers

variable {beyond : List Byte} {files : Files} {users : List User}
  {keys : List (List Byte × ℤ)}

theorem Holds.nextGid_fresh (hholds : Holds files users keys) (hroom : GidRoom beyond files.group)
    (hgid : getNextAvailableGid (0 :: beyond) files.passwd files.group = some gid) :
    0 ≤ gid ∧ ∀ key ∈ keys, key.2 ≠ gid := by
  obtain ⟨groups, hgroups, rfl, hsorted, -⟩ := hholds.exists_groups beyond
  simp only [getNextAvailableGid, hgroups, bind_eq_bind, bind_some, some_inj] at hgid
  have hlength := hroom _ _ hgroups
  obtain ⟨hlow, hfree⟩ := (hgid ▸ next_isLeast hsorted (by norm_num) (by push_cast at *; omega)).1
  refine ⟨by omega, fun key hkey => ?_⟩
  obtain ⟨group, hgroup, rfl⟩ := mem_map.1 hkey
  exact hfree group hgroup

theorem Holds.nextUid_fresh (hholds : Holds files users keys) (hroom : UidRoom beyond files.passwd)
    (huid : getNextAvailableUid (0 :: beyond) files.passwd = some uid) :
    0 ≤ uid ∧ ∀ user ∈ users, user.uid ≠ uid := by
  have hload := hholds.users_load beyond
  simp only [getNextAvailableUid, hload, bind_eq_bind, bind_some, some_inj] at huid
  have hlength := hroom _ hload
  obtain ⟨hlow, hfree⟩ := (huid ▸ next_isLeast (selectAllUsers_sorted hload)
    (by norm_num) (by push_cast at *; omega)).1
  exact ⟨by omega, hfree⟩

theorem PlainNumber.nonneg {text : List Byte} (hnumber : PlainNumber text) : 0 ≤ atoi text := by
  rcases hnumber with rfl | hsmall
  · decide
  · exact (atoi_nonneg_iff text).2 hsmall

theorem Holds.chooseUid_fresh (hholds : Holds files users keys)
    (hroom : UidRoom beyond files.passwd) (hnumber : PlainNumber uidString)
    (huid : chooseUid (0 :: beyond) files.passwd uidString = some (some uid)) :
    0 ≤ uid ∧ ∀ user ∈ users, user.uid ≠ uid := by
  rw [chooseUid] at huid
  split_ifs at huid
  · obtain ⟨_, hnext, hsome⟩ := map_eq_some_iff.1 huid
    cases hsome
    exact hholds.nextUid_fresh hroom hnext
  · obtain ⟨rfl, -, hfresh⟩ := requestedUid_eq_some (hholds.users_load beyond) huid
    exact ⟨hnumber.nonneg, hfresh⟩

theorem Holds.chooseGid_fresh (hholds : Holds files users keys)
    (hroom : GidRoom beyond files.group) (hnumber : PlainNumber gidString)
    (hgid : chooseGid (0 :: beyond) files gidString = some (some gid)) :
    IsInt gid ∧ 0 ≤ gid ∧ ∀ key ∈ keys, key.2 ≠ gid := by
  rw [chooseGid] at hgid
  split_ifs at hgid
  · obtain ⟨_, hnext, hsome⟩ := map_eq_some_iff.1 hgid
    cases hsome
    exact ⟨isInt_getNextAvailableGid hnext, hholds.nextGid_fresh hroom hnext⟩
  · obtain ⟨groups, hgroups, rfl, -, -⟩ := hholds.exists_groups beyond
    by_cases hzero : atoi gidString = 0
    · simp [requestedGid, hzero] at hgid
    · simp only [requestedGid, hzero, if_false, isGidAvailable, hgroups,
        bind_eq_bind, bind_some, some_inj,
        ite_none_right_eq_some] at hgid
      obtain ⟨havailable, rfl⟩ := hgid
      refine ⟨isInt_atoi gidString, hnumber.nonneg, fun key hkey => ?_⟩
      obtain ⟨group, hgroup, rfl⟩ := mem_map.1 hkey
      simpa [groupKey] using all_eq_true.1 havailable group hgroup

end Numbers

section Records

variable {beyond content : List Byte} {files : Files} {users : List User}
  {keys : List (List Byte × ℤ)}

theorem GoodKeys.cons_perm {key : List Byte × ℤ}
    {newKeys : List (List Byte × ℤ)} (hkeys : GoodKeys keys) (hperm : newKeys.Perm (key :: keys))
    (htext : FieldText key.1 ∧ IsInt key.2 ∧ 0 ≤ key.2) (hname : ∀ other ∈ keys, other.1 ≠ key.1)
    (hgid : ∀ other ∈ keys, other.2 ≠ key.2) : GoodKeys newKeys where
  text other hother := by
    rcases mem_cons.1 (hperm.mem_iff.1 hother) with rfl | hother
    · exact htext
    · exact hkeys.text other hother
  groupnames := nodup_map_of_perm_cons hperm hname hkeys.groupnames
  gids := nodup_map_of_perm_cons hperm hgid hkeys.gids

theorem GoodUsers.cons_perm {others newUsers : List User} (hothers : GoodUsers others)
    (hperm : newUsers.Perm (user :: others)) (huser : user.WellFormed)
    (hname : ∀ other ∈ others, other.username ≠ user.username)
    (huid : ∀ other ∈ others, other.uid ≠ user.uid) : GoodUsers newUsers where
  wellFormed other hother := by
    rcases mem_cons.1 (hperm.mem_iff.1 hother) with rfl | hother
    · exact huser
    · exact hothers.wellFormed other hother
  usernames := nodup_map_of_perm_cons hperm hname hothers.usernames
  uids := nodup_map_of_perm_cons hperm huid hothers.uids

theorem GoodUsers.filter (husers : GoodUsers users) (test : User → Bool) :
    GoodUsers (users.filter test) where
  wellFormed user huser := husers.wellFormed user (mem_of_mem_filter huser)
  usernames := husers.usernames.sublist (filter_sublist.map _)
  uids := husers.uids.sublist (filter_sublist.map _)

/-- Writing one new record beside others of a good list. -/
theorem Holds.write_users {others written : List User}
    (hholds : Holds files users keys) (hothers : GoodUsers others)
    (hperm : written.Perm (newUser :: others)) (hnew : newUser.Loose)
    (huid : 0 ≤ newUser.uid) (hgid : 0 ≤ newUser.gid)
    (hname : ∀ other ∈ others, other.username ≠ newUser.username)
    (hfresh : ∀ other ∈ others, other.uid ≠ newUser.uid)
    (hwrite : updatePasswdFile written = some content) :
    ∃ newUsers, Holds ⟨content, files.group⟩ newUsers keys ∧
      newUsers.Perm (newUser.reparse :: others) := by
  obtain ⟨reloaded, hload, hreparse⟩ := reload_new hothers.wellFormed hperm hnew hwrite
  have hkept : newUser.reparse.uid = newUser.uid := atoi_itoa huid hnew.uid.2 []
  refine ⟨reloaded, ⟨hload, ?_, hholds.groups_load, hholds.keys⟩, hreparse⟩
  exact hothers.cons_perm hreparse (hnew.reparse_wellFormed huid hgid) hname
    fun other hother => hkept ▸ hfresh other hother

/-- Adding one new group. -/
theorem Holds.add_group (hholds : Holds files users keys) (htext : FieldText newGroup.groupname)
    (hgid : IsInt newGroup.gid ∧ 0 ≤ newGroup.gid ∧ ∀ key ∈ keys, key.2 ≠ newGroup.gid)
    (hname : ∀ key ∈ keys, key.1 ≠ newGroup.groupname)
    (hmember : ∀ member ∈ newGroup.userList, member ∈ users)
    (hadd : addNewGroup (0 :: beyond) files.passwd files.group newGroup = some content) :
    ∃ newKeys, Holds ⟨files.passwd, content⟩ users newKeys := by
  obtain ⟨groups, hgroups, rfl, hsorted, hmembers⟩ := hholds.exists_groups beyond
  simp only [addNewGroup, hgroups, bind_eq_bind, bind_some, addGroupToListSorted] at hadd
  have hperm : (insertSorted compareGroups groups newGroup).Perm
      (newGroup :: groups) := perm_insertSorted groups newGroup
  have hgood : GoodKeys ((insertSorted compareGroups groups newGroup).map groupKey) :=
    hholds.keys.cons_perm (hperm.map groupKey) ⟨htext, hgid.1, hgid.2.1⟩ hname hgid.2.2
  refine ⟨_, hholds.users_load, hholds.users, ?_, hgood⟩
  refine groupsLoad_written hgood.text ?_
    (insertSorted_sorted compareGroups_pos hsorted newGroup) hadd
  intro group hgroup member hin
  rcases mem_cons.1 (hperm.mem_iff.1 hgroup) with rfl | hgroup
  · exact hholds.username_text (hmember member hin)
  · exact hholds.username_text (hmembers group hgroup member hin)

theorem unknown_username
    (hload : selectAllUsersFromPasswdFile (0 :: beyond) files.passwd = some users)
    (hnone : getUserFromUsername (0 :: beyond) files.passwd username = some none) :
    ∀ user ∈ users, user.username ≠ username := by
  simp only [getUserFromUsername, hload, bind_eq_bind, bind_some, some_inj] at hnone
  intro user huser
  simpa using find?_eq_none.1 hnone user huser

theorem known_username
    (hload : selectAllUsersFromPasswdFile (0 :: beyond) files.passwd = some users)
    (hsome : getUserFromUsername (0 :: beyond) files.passwd username = some (some user)) :
    user ∈ users ∧ user.username = username := by
  simp only [getUserFromUsername, hload, bind_eq_bind, bind_some, some_inj] at hsome
  exact ⟨mem_of_find?_eq_some hsome, by simpa using find?_some hsome⟩

theorem Holds.unknown_groupname (hholds : Holds files users keys)
    (hnone : getGroupFromGroupname (0 :: beyond) files.passwd files.group groupname = some none) :
    ∀ key ∈ keys, key.1 ≠ groupname := by
  obtain ⟨groups, hgroups, rfl, -, -⟩ := hholds.exists_groups beyond
  simp only [getGroupFromGroupname, hgroups, bind_eq_bind, bind_some, some_inj] at hnone
  intro key hkey
  obtain ⟨group, hgroup, rfl⟩ := mem_map.1 hkey
  simpa [groupKey] using find?_eq_none.1 hnone group hgroup

theorem createGroup_eq_some
    (hload : selectAllUsersFromPasswdFile (0 :: beyond) files.passwd = some users)
    (hcreate : createGroup (0 :: beyond) files groupname gidString lookup = some (some newGroup)) :
    newGroup.groupname = groupname ∧ groupname.length < stringSize ∧
      chooseGid (0 :: beyond) files gidString = some (some newGroup.gid) ∧
      ∀ member ∈ newGroup.userList, member ∈ users ∧ lookup = some member.username := by
  simp only [createGroup, bind_eq_bind, bind_eq_some_iff, strcpy_eq_some] at hcreate
  obtain ⟨_, ⟨hfits, rfl⟩, chosen, hchosen, hcreate⟩ := hcreate
  cases chosen with
  | none => simp at hcreate
  | some gid =>
    cases lookup with
    | none =>
      cases hcreate
      exact ⟨rfl, hfits, hchosen, by simp⟩
    | some name =>
      simp only [bind_eq_some_iff] at hcreate
      obtain ⟨member, hmember, hcreate⟩ := hcreate
      cases hcreate
      refine ⟨rfl, hfits, hchosen, fun user huser => ?_⟩
      rw [mem_toList.1 huser] at hmember
      obtain ⟨hknown, rfl⟩ := known_username hload hmember
      exact ⟨hknown, rfl⟩

theorem PlainName.fieldText {name : List Byte} (hname : PlainName name)
    (hfits : name.length < stringSize) : FieldText name :=
  (hname.1.lineText hfits).fieldText hname.2

section

variable (hholds : Holds files users keys)

include hholds

/-- A new group with a new name. -/
theorem Holds.create_group (hplain : PlainName groupname) (hnumber : PlainNumber gidString)
    (hroom : GidRoom beyond files.group) (hname : ∀ key ∈ keys, key.1 ≠ groupname)
    (hcreate : createGroup (0 :: beyond) files groupname gidString lookup = some (some newGroup))
    (hadd : addNewGroup (0 :: beyond) files.passwd files.group newGroup = some content) :
    ∃ newKeys, Holds ⟨files.passwd, content⟩ users newKeys := by
  obtain ⟨rfl, hfits, hchosen, hmembers⟩ := createGroup_eq_some (hholds.users_load beyond) hcreate
  exact hholds.add_group (hplain.fieldText hfits)
    (hholds.chooseGid_fresh hroom hnumber hchosen) hname
    (fun member hmember => (hmembers member hmember).1) hadd

/-- A new user with a new name. -/
theorem Holds.create_user (hwords : Word homedir ∧ Word realname) (hplain : PlainName username)
    (hnumber : PlainNumber uidString)
    (hroom : UidRoom beyond files.passwd ∧ GidRoom beyond files.group)
    (hname : ∀ user ∈ users, user.username ≠ username)
    (hcreate : createUser (0 :: beyond) files kernel homedir uidString realname
      username = some (some newUser))
    (hadd : addNewUser (0 :: beyond) files.passwd newUser = some content) :
    ∃ newUsers, Holds ⟨content, files.group⟩ newUsers keys ∧
      newUsers.Perm (newUser.reparse :: users) := by
  have hload := hholds.users_load beyond
  have hnew := createUser_newRecord hload ⟨hwords.1, hwords.2, hplain.1⟩ hcreate
  obtain ⟨hchosen, hgid, rfl, -⟩ := createUser_eq_some hcreate
  obtain ⟨huid, hfresh⟩ := hholds.chooseUid_fresh hroom.1 hnumber hchosen
  simp only [UserRecords.addNewUser, hload, bind_eq_bind, bind_some] at hadd
  exact hholds.write_users hholds.users (perm_insertSorted users newUser)
    (hnew.loose hplain.2) huid (hholds.nextGid_fresh hroom.2 hgid).1 hname hfresh
    hadd

/-- A record takes the place of one with other keys. -/
theorem Holds.update_user
    (hcurr : currUser ∈ users) (hloose : modUser.Loose) (huid : 0 ≤ modUser.uid)
    (hgid : 0 ≤ modUser.gid) (hname : modUser.username = currUser.username ∨
      ∀ user ∈ users, user.username ≠ modUser.username)
    (hfresh : modUser.uid = currUser.uid ∨ ∀ user ∈ users, user.uid ≠ modUser.uid)
    (hwrite : updatePasswdFile (replaceUser currUser modUser users) = some content) :
    ∃ newUsers, Holds ⟨content, files.group⟩ newUsers keys ∧ newUsers.Perm
        (modUser.reparse :: users.filter fun user => user.uid ≠ currUser.uid) := by
  refine hholds.write_users (hholds.users.filter _)
    (replaceUser_perm hholds.users.uids hcurr modUser) hloose huid hgid
    ?_ ?_ hwrite
  all_goals
    intro other hother
    obtain ⟨hother, hne⟩ := mem_filter.1 hother
    have hne : other.uid ≠ currUser.uid := by simpa using hne
  · rcases hname with hsame | hnew
    · rw [hsame]
      intro hequal
      have heq := inj_on_of_nodup_map hholds.users.usernames hother hcurr
        hequal
      exact hne (congrArg User.uid heq)
    · exact hnew other hother
  · rcases hfresh with hsame | hnew
    · rw [hsame]
      exact hne
    · exact hnew other hother

/-- The record that `usermod` writes back. -/
theorem Holds.modify_user
    (hcurr : currUser ∈ users) (hplain : PlainName newUsername) (hnumber : PlainNumber uidString)
    (hwords : Word realname ∧ Word homedir)
    (hmodify : modifyUser (0 :: beyond) files kernel currUser newUsername
      uidString realname homedir groups a = some (group, some modUser))
    (hupdate : updateUserInfo (0 :: beyond) files.passwd currUser modUser = some passwd) :
    ∃ newUsers, Holds ⟨passwd, group⟩ newUsers keys ∧ newUsers.Perm
        (modUser.reparse :: users.filter fun user => user.uid ≠ currUser.uid) := by
  have hload := hholds.users_load beyond
  have hold := hholds.users.wellFormed currUser hcurr
  have hnew := modifyUser_newRecord hload hold ⟨hwords.2, hwords.1, hplain.1⟩
    hmodify
  obtain ⟨hgroups, hname, -, huid, hgid, -⟩ := modifyUser_eq_some hmodify
  simp only [updateUserInfo, hload, bind_eq_bind, bind_some]
    at hupdate
  have hrenamed : modUser.username = currUser.username ∨ modUser.username = newUsername ∧
        ∀ user ∈ users, user.username ≠ modUser.username := by
    split_ifs at hname
    · exact .inl hname
    · obtain ⟨hsame, -, hnone⟩ := hname
      exact .inr ⟨hsame, hsame ▸ unknown_username hload hnone⟩
  have hrenumbered : modUser.uid = currUser.uid ∨ modUser.uid = atoi uidString ∧
        ∀ user ∈ users, user.uid ≠ modUser.uid := by
    split_ifs at huid
    · exact .inl huid
    · obtain ⟨hsame, -, hfresh⟩ := requestedUid_eq_some hload huid
      exact .inr ⟨hsame, hfresh⟩
  have hcolon : colon ∉ modUser.username := by
    rcases hrenamed with hsame | ⟨hsame, -⟩
    · exact hsame ▸ fun hmem => (hold.username.bytes colon hmem).1 rfl
    · exact hsame ▸ hplain.2
  have hnonneg : 0 ≤ modUser.uid := by
    rcases hrenumbered with hsame | ⟨hsame, -⟩
    · exact hsame ▸ hold.uid_nonneg
    · exact hsame ▸ hnumber.nonneg
  exact (hholds.changeGroups hcurr hgroups).update_user hcurr
    (hnew.loose hcolon) hnonneg (hgid ▸ hold.gid_nonneg)
    (hrenamed.imp_right And.right) (hrenumbered.imp_right And.right) hupdate

end

/-- The group file that `modifyUser` leaves, also when it reports an error. -/
theorem modifyUser_group {after : List Byte} {modified : Option User}
    (hmodify : modifyUser after files kernel currUser newUsername uidString
      realname homedir groups a = some (group, modified)) :
    group = files.group ∨ changeGroups after files currUser groups a = some group := by
  simp only [modifyUser, bind_eq_bind, bind_eq_some_iff]
    at hmodify
  obtain ⟨renamed, -, hmodify⟩ := hmodify
  cases renamed with
  | none =>
    cases hmodify
    exact .inl rfl
  | some renamed =>
    obtain ⟨renumbered, -, hmodify⟩ := bind_eq_some_iff.1 hmodify
    cases renumbered with
    | none =>
      cases hmodify
      exact .inl rfl
    | some renumbered =>
      simp only [bind_eq_some_iff, some_inj, Prod.mk.injEq] at hmodify
      obtain ⟨_, -, _, hgroups, _, -, rfl, -⟩ := hmodify
      exact .inr hgroups

theorem Holds.modify_failed (hholds : Holds files users keys) (hcurr : currUser ∈ users)
    (hmodify : modifyUser (0 :: beyond) files kernel currUser newUsername
      uidString realname homedir groups a = some (group, none)) :
    Holds ⟨files.passwd, group⟩ users keys := by
  rcases modifyUser_group hmodify with rfl | hgroups
  · exact hholds
  · exact hholds.changeGroups hcurr hgroups

end Records

end Xv6Users.KeyInvariant
