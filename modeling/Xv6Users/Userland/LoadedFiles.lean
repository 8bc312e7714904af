import Xv6Users.Userland.GroupRecords

/-!
# The loaded files

The two files together with what loading them returns.  A `Database` holds
well-formed records whose keys are unique; the member lists need no assumption,
since loading resolves every name to a user and sorts the users found.
-/

namespace Xv6Users.LoadedFiles

open ScannedText SortedInsert Ulib UserRecords GroupRecords List Option

/-- Groups whose name and gid can be written and read back. -/
structure GroupKeys (group : Group) : Prop where
  groupname : FieldText group.groupname
  gid : IsInt group.gid
  gid_nonneg : 0 ≤ group.gid

/-- Both files and their records.  Loading does not depend on what lies behind
the terminator of the read buffer. -/
structure Database where
  passwd : List Byte
  group : List Byte
  users : List User
  groups : List Group
  users_load : ∀ beyond, selectAllUsersFromPasswdFile (0 :: beyond) passwd = some users
  groups_load : ∀ beyond, selectAllGroupsFromGroupFile (0 :: beyond) passwd group = some groups
  wellFormed : ∀ user ∈ users, user.WellFormed
  groupKeys : ∀ group ∈ groups, GroupKeys group
  usernames : (users.map User.username).Nodup
  uids : (users.map User.uid).Nodup
  groupnames : (groups.map GroupOf.groupname).Nodup
  gids : (groups.map GroupOf.gid).Nodup

/-- A database that can be edited member by member: no username is empty and
every group line fits its buffer. -/
structure NamedDatabase extends Database where
  named : ∀ user ∈ users, user.username ≠ []
  fits : ∀ group ∈ groups, GroupFits group

theorem readNames_comma_free {fuel : ℕ} {memory : List Byte}
    {names : List (List Byte)} (hread : readNames fuel memory = some names) :
    ∀ name ∈ names, comma ∉ name := by
  induction fuel generalizing memory names with
  | zero => simp [readNames] at hread
  | succ fuel ih =>
    simp only [readNames, bind_eq_bind, bind_eq_some_iff] at hread
    obtain ⟨found, hfound, hrest⟩ := hread
    have hfree := readField_stop_free hfound
    split at hrest
    · cases hrest
      simpa using hfree
    · obtain ⟨rest, hnames, hcons⟩ := bind_eq_some_iff.1 hrest
      cases hcons
      intro name hname
      rcases mem_cons.1 hname with rfl | hname
      · exact hfree
      · exact ih hnames name hname

variable {users : List User}

variable {group : Group} {user : User}

theorem getGroupFromString_members {after passwd memory : List Byte}
    (hload : selectAllUsersFromPasswdFile after passwd = some users)
    (hparse : getGroupFromString after passwd memory = some group) :
    ∃ names : List (List Byte), (∀ name ∈ names, comma ∉ name) ∧ group.userList =
        insertAll compareUsers (names.filterMap (findUser users)) := by
  simp only [getGroupFromString, bind_eq_bind, bind_eq_some_iff] at hparse
  obtain ⟨fields, -, hparse⟩ := hparse
  split at hparse
  · simp only [mapM_getUserFromUsername hload, bind_eq_some_iff, some_inj] at hparse
    obtain ⟨names, hnames, found, rfl, rfl⟩ := hparse
    refine ⟨names, readNames_comma_free hnames, ?_⟩
    simp only [foldl_addUserToListSorted, filterMap_map]
    rfl
  · exact absurd hparse (by simp)

theorem findUser_eq_some {name : List Byte}
    (hfind : findUser users name = some user) : user ∈ users ∧ user.username = name :=
  ⟨mem_of_find?_eq_some hfind, by simpa using find?_some hfind⟩

theorem findUser_of_mem (hnodup : (users.map User.username).Nodup) (huser : user ∈ users) :
    findUser users user.username = some user := by
  cases hfind : findUser users user.username with
  | none =>
    have := find?_eq_none.1 hfind user huser
    simp at this
  | some found =>
    obtain ⟨hmem, hname⟩ := findUser_eq_some hfind
    rw [inj_on_of_nodup_map hnodup hmem huser hname]

variable {member : User}

section Loaded

variable {after passwd content : List Byte} {users : List User}
  {groups : List Group} {group : Group}

theorem loaded_groups_sorted (hgroups : selectAllGroupsFromGroupFile after passwd content =
      some groups) : SortedBy GroupOf.gid groups := by
  simp only [selectAllGroupsFromGroupFile, bind_eq_bind, bind_eq_some_iff, some_inj] at hgroups
  obtain ⟨tokens, -, parsed, -, rfl⟩ := hgroups
  exact insertAll_sorted compareGroups_pos parsed

/-- A loaded member list was resolved from names without commas. -/
theorem loaded_names (husers : selectAllUsersFromPasswdFile after passwd = some users)
    (hgroups : selectAllGroupsFromGroupFile after passwd content = some groups)
    (hgroup : group ∈ groups) :
    ∃ names : List (List Byte), (∀ name ∈ names, comma ∉ name) ∧ group.userList =
        insertAll compareUsers (names.filterMap (findUser users)) := by
  simp only [selectAllGroupsFromGroupFile, bind_eq_bind, bind_eq_some_iff, some_inj] at hgroups
  obtain ⟨tokens, -, parsed, hparsed, rfl⟩ := hgroups
  obtain ⟨token, -, htoken⟩ :=
    exists_of_mem_mapM hparsed ((perm_insertAll parsed).mem_iff.1 hgroup)
  exact getGroupFromString_members husers htoken

/-- Members are users of the database whose names hold no comma. -/
theorem loaded_members (husers : selectAllUsersFromPasswdFile after passwd = some users)
    (hgroups : selectAllGroupsFromGroupFile after passwd content = some groups)
    (hgroup : group ∈ groups) (hmember : member ∈ group.userList) :
    member ∈ users ∧ comma ∉ member.username := by
  obtain ⟨names, hfree, hlist⟩ := loaded_names husers hgroups hgroup
  rw [hlist] at hmember
  obtain ⟨name, hname, hfind⟩ := mem_filterMap.1
    ((perm_insertAll _).mem_iff.1 hmember)
  obtain ⟨huser, rfl⟩ := findUser_eq_some hfind
  exact ⟨huser, hfree _ hname⟩

variable {db : Database}

theorem Database.groups_sorted (db : Database) : SortedBy GroupOf.gid db.groups :=
  loaded_groups_sorted (db.groups_load [])

theorem Database.members_sorted (hgroup : group ∈ db.groups) :
    SortedBy User.uid group.userList := by
  obtain ⟨names, -, hlist⟩ := loaded_names (db.users_load []) (db.groups_load []) hgroup
  rw [hlist]
  exact insertAll_sorted compareUsers_pos _

theorem Database.members_resolved (hgroup : group ∈ db.groups)
    (hmember : member ∈ group.userList) : member ∈ db.users ∧ comma ∉ member.username :=
  loaded_members (db.users_load []) (db.groups_load []) hgroup hmember

end Loaded

variable {members : List User}

/-- Usernames without commas resolve to the users they stand for. -/
theorem filterMap_usernames (hmembers : ∀ member ∈ members,
      findUser users member.username = some member ∧ comma ∉ member.username) :
    (members.flatMap fun user => user.username.splitOn comma).filterMap
      (findUser users) = members := by
  induction members with
  | nil => rfl
  | cons member rest ih =>
    obtain ⟨hfind, hfree⟩ := hmembers member (by simp)
    rw [flatMap_cons, splitOn_eq_singleton hfree, singleton_append, filterMap_cons_some hfind,
      ih fun other hother => hmembers other (.tail member hother)]

/-- Resolving the names written for a member list gives the list back. -/
theorem resolve_memberNames (hnodup : (users.map User.username).Nodup)
    (hnamed : members = [] → ∀ user ∈ users, user.username ≠ [])
    (hmembers : ∀ member ∈ members, member ∈ users ∧ comma ∉ member.username) :
    (memberNames members).filterMap (findUser users) = members := by
  by_cases hempty : members = []
  · have hnone : findUser users [] = none := by
      rw [findUser, find?_eq_none]
      simpa using hnamed hempty
    simp [memberNames, hempty, hnone]
  · rw [memberNames, if_neg hempty]
    exact filterMap_usernames fun member hmember =>
      ⟨findUser_of_mem hnodup (hmembers member hmember).1, (hmembers member hmember).2⟩

/-- Writing groups in gid order and loading them again keeps their names and
gids.  The members are those that the written names resolve to. -/
theorem Database.reload_groups (db : Database) {content : List Byte} {groups : List Group}
    (hkeys : ∀ group ∈ groups, GroupKeys group)
    (hmembers : ∀ group ∈ groups, ∀ member ∈ group.userList, member ∈ db.users)
    (hsorted : SortedBy GroupOf.gid groups)
    (hwrite : updateGroupFile groups = some content) (beyond : List Byte) :
    selectAllGroupsFromGroupFile (0 :: beyond) db.passwd content =
      some (groups.map fun group => group.withMembers
        (insertAll compareUsers ((memberNames group.userList).filterMap (findUser db.users)))) := by
  have hprintable : ∀ group ∈ groups, group.Printable := fun group hgroup =>
    ⟨(hkeys group hgroup).groupname, (hkeys group hgroup).gid,
      fun member hmember => (db.wellFormed member (hmembers group hgroup member hmember)).username⟩
  have hreread : groups.map (Group.reread db.users) =
      groups.map fun group => group.withMembers (insertAll compareUsers
        ((memberNames group.userList).filterMap (findUser db.users))) := by
    refine map_congr_left fun group hgroup => ?_
    simp only [Group.reread, GroupOf.withMembers,
      atoi_itoa (hkeys group hgroup).gid_nonneg (hkeys group hgroup).gid.2]
  rw [reload_updateGroupFile (db.users_load beyond) hprintable hwrite, hreread,
    insertAll_of_sorted compareGroups_pos]
  exact pairwise_map.2 hsorted

/-- Records that can be stored: what a `NamedDatabase` asks for, said of the
records alone. -/
structure Storable (users : List User) (groups : List Group) : Prop where
  wellFormed : ∀ user ∈ users, user.WellFormed ∧ user.username ≠ []
  usernames : (users.map User.username).Nodup
  uids : (users.map User.uid).Pairwise (· < ·)
  groupKeys : ∀ group ∈ groups, FieldText group.groupname ∧ IsInt group.gid ∧ 0 ≤ group.gid
  groupnames : (groups.map GroupOf.groupname).Nodup
  gids : (groups.map GroupOf.gid).Pairwise (· < ·)
  members : ∀ group ∈ groups,
    (∀ member ∈ group.userList, member ∈ users ∧ comma ∉ member.username) ∧
      (group.userList.map User.uid).Pairwise (· ≤ ·)
  fits : ∀ group ∈ groups, GroupFits group

instance (users : List User) (groups : List Group) : Decidable (Storable users groups) :=
  decidable_of_iff ((∀ user ∈ users, user.WellFormed ∧ user.username ≠ []) ∧
      (users.map User.username).Nodup ∧
      (users.map User.uid).Pairwise (· < ·) ∧
      (∀ group ∈ groups, FieldText group.groupname ∧ IsInt group.gid ∧ 0 ≤ group.gid) ∧
      (groups.map GroupOf.groupname).Nodup ∧
      (groups.map GroupOf.gid).Pairwise (· < ·) ∧
      (∀ group ∈ groups, (∀ member ∈ group.userList, member ∈ users ∧ comma ∉ member.username) ∧
        (group.userList.map User.uid).Pairwise (· ≤ ·)) ∧
      ∀ group ∈ groups, GroupFits group)
    ⟨fun ⟨h1, h2, h3, h4, h5, h6, h7, h8⟩ => ⟨h1, h2, h3, h4, h5, h6, h7, h8⟩,
      fun ⟨h1, h2, h3, h4, h5, h6, h7, h8⟩ => ⟨h1, h2, h3, h4, h5, h6, h7, h8⟩⟩

section Store

variable {users : List User} {groups : List Group}

theorem Storable.users_load (hstorable : Storable users groups) (beyond : List Byte) :
    selectAllUsersFromPasswdFile (0 :: beyond) (users.flatMap getStringFromUser) = some users := by
  have hwellFormed := fun user huser => (hstorable.wellFormed user huser).1
  have hload := selectAllUsers_lines (show ([] : List User).length ≤ 1 by simp)
    (show ∀ user ∈ users ++ [], user.Loose by
      simpa using fun user huser => (hwellFormed user huser).loose) beyond
  have hsorted : SortedBy User.uid users := (pairwise_map.1 hstorable.uids).imp fun h => h.le
  simpa [map_reparse hwellFormed, insertAll_of_sorted compareUsers_pos hsorted] using hload

theorem Storable.reread_eq (hstorable : Storable users groups)
    (hgroup : group ∈ groups) : group.reread users = group := by
  obtain ⟨-, hint, hnonneg⟩ := hstorable.groupKeys group hgroup
  obtain ⟨hmembers, hsorted⟩ := hstorable.members group hgroup
  rw [Group.reread, atoi_itoa hnonneg hint.2, resolve_memberNames hstorable.usernames
      (fun _ user huser => (hstorable.wellFormed user huser).2) hmembers,
    insertAll_of_sorted compareUsers_pos (pairwise_map.1 hsorted)]

theorem Storable.groups_load (hstorable : Storable users groups) (beyond : List Byte) :
    selectAllGroupsFromGroupFile (0 :: beyond)
        (users.flatMap getStringFromUser) (groups.flatMap getStringFromGroup) =
      some groups := by
  have hprintable : ∀ group ∈ groups, group.Printable := fun group hgroup =>
    ⟨(hstorable.groupKeys group hgroup).1, (hstorable.groupKeys group hgroup).2.1,
      fun member hmember => (hstorable.wellFormed member
        ((hstorable.members group hgroup).1 member hmember).1).1.username⟩
  have hreread : groups.map (Group.reread users) = groups :=
    (map_congr_left fun group hgroup => hstorable.reread_eq hgroup).trans
      groups.map_id'
  have hsorted : SortedBy GroupOf.gid groups := (pairwise_map.1 hstorable.gids).imp fun h => h.le
  rw [reload_updateGroupFile (hstorable.users_load beyond) hprintable
    (updateGroupFile_eq_some.2 ⟨hstorable.fits, rfl⟩), hreread,
    insertAll_of_sorted compareGroups_pos hsorted]

def NamedDatabase.store (users : List User) (groups : List Group)
    (hstorable : Storable users groups) : NamedDatabase where
  passwd := users.flatMap getStringFromUser
  group := groups.flatMap getStringFromGroup
  users := users
  groups := groups
  users_load := hstorable.users_load
  groups_load := hstorable.groups_load
  wellFormed user huser := (hstorable.wellFormed user huser).1
  groupKeys group hgroup :=
    ⟨(hstorable.groupKeys group hgroup).1, (hstorable.groupKeys group hgroup).2.1,
      (hstorable.groupKeys group hgroup).2.2⟩
  usernames := hstorable.usernames
  uids := hstorable.uids.imp fun h => h.ne
  groupnames := hstorable.groupnames
  gids := hstorable.gids.imp fun h => h.ne
  named user huser := (hstorable.wellFormed user huser).2
  fits := hstorable.fits

end Store

def sampleUser (name : List Byte) (uid : ℤ) : User where
  username := name
  password := []
  uid := uid
  gid := uid
  realname := []
  homedir := name

def ken : User := sampleUser (str "ken") 1000

def sam : User := sampleUser (str "sam") 1001

end Xv6Users.LoadedFiles
