import Xv6Users.Userland.LoadedFiles

/-!
# Writing and loading the two files

Records that are written and loaded again come back in the stable order of
their numbers.  A group line names its members, and an empty list of members is
read as one empty name, so the groups come back unchanged unless a list is
empty and a user of the database has the empty name.
-/

namespace Xv6Users.RoundTrips

open ScannedText SortedInsert Ulib UserRecords GroupRecords LoadedFiles List

/-- Every well-formed list of users survives a write and a load. -/
theorem users_return {users : List User}
    (husers : ∀ user ∈ users, user.WellFormed ∧ LineFits user) :
    ∃ content loaded, updatePasswdFile users = some content ∧
      (∀ beyond, selectAllUsersFromPasswdFile (0 :: beyond) content = some loaded) ∧
      StableSort User.uid users loaded := by
  have hwellFormed : ∀ user ∈ users, user.WellFormed := fun user huser =>
    (husers user huser).1
  have hwrite : updatePasswdFile users = some (users.flatMap getStringFromUser) :=
    updatePasswdFile_eq_some.2 ⟨fun user huser => (husers user huser).2, rfl⟩
  refine ⟨_, insertAll compareUsers users, hwrite, ?_, insertAll_stableSort compareUsers_pos users⟩
  intro beyond
  rw [reload_updatePasswdFile (fun user huser => (hwellFormed user huser).loose)
    hwrite, map_reparse hwellFormed]

/-- Two users with one uid and empty fields, written out of order. -/
def equalUids : List User :=
  [⟨str "b", [], 7, 7, [], []⟩, ⟨[], [], 7, 0, [], []⟩, ⟨str "a", [], 3, 3, [], []⟩]

theorem equalUids_return :
    ∃ content loaded, updatePasswdFile equalUids = some content ∧
      (∀ beyond, selectAllUsersFromPasswdFile (0 :: beyond) content = some loaded) ∧
      StableSort User.uid equalUids loaded := users_return (by decide +kernel)

def ben : User := ⟨str "b", str "y", 2, 2, [], str "/"⟩

def threeUsers : List User :=
  [⟨str "a", str "x", 1, 1, [], str "/"⟩, ben, ⟨str "c", str "z", 3, 3, [], str "/"⟩]

/-- The same group, with its members in uid order. -/
structure SameGroup (written loaded : Group) : Prop where
  groupname : loaded.groupname = written.groupname
  gid : loaded.gid = written.gid
  members : ∀ user, user ∈ loaded.userList ↔ user ∈ written.userList
  sorted : SortedBy User.uid loaded.userList

/-- Groups that survive a write and a load: they come back in the stable order
of their gids. -/
def GroupsReturn (passwd : List Byte) (groups : List Group) : Prop :=
  ∃ content, updateGroupFile groups = some content ∧
    ∀ beyond, ∃ sorted loaded, StableSort GroupOf.gid groups sorted ∧
      selectAllGroupsFromGroupFile (0 :: beyond) passwd content = some loaded ∧
      List.Forall₂ SameGroup sorted loaded

/-- Groups that can be written for these users. -/
structure Writable (users : List User) (group : Group) : Prop where
  groupname : FieldText group.groupname ∧ group.groupname ≠ []
  gid : IsInt group.gid ∧ 0 ≤ group.gid
  members : ∀ member ∈ group.userList, member ∈ users ∧
    member.username ≠ [] ∧ comma ∉ member.username
  fits : GroupFits group

section Groups

variable {passwd : List Byte} {users : List User} {groups : List Group}
  {group : Group}

def reloadedMembers (users members : List User) : List User :=
  insertAll compareUsers ((memberNames members).filterMap (findUser users))

theorem reread_writable (hgroup : Writable users group) :
    group.reread users = group.withMembers (reloadedMembers users group.userList) := by
  rw [Group.reread, atoi_itoa hgroup.gid.2 hgroup.gid.1.2]
  rfl

theorem mem_reloadedMembers (hnodup : (users.map User.username).Nodup)
    (hgroup : Writable users group)
    (hnamed : group.userList = [] → ∀ user ∈ users, user.username ≠ []) (user : User) :
    user ∈ reloadedMembers users group.userList ↔ user ∈ group.userList := by
  rw [reloadedMembers, resolve_memberNames hnodup hnamed fun member hmember =>
    ⟨(hgroup.members member hmember).1, (hgroup.members member hmember).2.2⟩]
  exact (perm_insertAll group.userList).mem_iff

/-- What a load returns after a write, as a function of the sorted groups. -/
theorem reload_writable
    (hload : ∀ beyond, selectAllUsersFromPasswdFile (0 :: beyond) passwd = some users)
    (hwellFormed : ∀ user ∈ users, user.WellFormed)
    (hgroups : ∀ group ∈ groups, Writable users group) (beyond : List Byte) :
    selectAllGroupsFromGroupFile (0 :: beyond) passwd (groups.flatMap getStringFromGroup) =
      some ((insertAll compareGroups groups).map fun group =>
        group.withMembers (reloadedMembers users group.userList)) := by
  have hprintable : ∀ group ∈ groups, group.Printable := fun group hgroup =>
    ⟨(hgroups group hgroup).groupname.1, (hgroups group hgroup).gid.1,
      fun member hmember => (hwellFormed member
        ((hgroups group hgroup).members member hmember).1).username⟩
  have hwrite : updateGroupFile groups = some (groups.flatMap getStringFromGroup) :=
    updateGroupFile_eq_some.2 ⟨fun group hgroup => (hgroups group hgroup).fits, rfl⟩
  have hreread : groups.map (Group.reread users) = groups.map fun group =>
      group.withMembers (reloadedMembers users group.userList) :=
    map_congr_left fun group hgroup => reread_writable (hgroups group hgroup)
  rw [reload_updateGroupFile (hload beyond) hprintable hwrite, hreread]
  congr 1
  exact insertAll_map (fun _ _ => rfl) groups

/-- A user with the empty name becomes a member of every group that has no
members. -/
theorem reloadedMembers_nil_ne_nil {user : User} (huser : user ∈ users)
    (hname : user.username = []) : reloadedMembers users [] ≠ [] := by
  have hsome : (findUser users []).isSome := by
    rw [findUser, find?_isSome]
    exact ⟨user, huser, by simpa using hname⟩
  obtain ⟨ghost, hghost⟩ := Option.isSome_iff_exists.1 hsome
  have hone : (memberNames []).filterMap (findUser users) = [ghost] := by
    simp [memberNames, hghost]
  rw [reloadedMembers, hone]
  simp [insertAll, insertSorted]

/-- Groups out of order, one of them without members. -/
def unsortedGroups : List Group :=
  [⟨str "b", 2, [sam, ken]⟩, ⟨str "a", 1, []⟩]

def ghost : User := sampleUser [] 7

end Groups

end Xv6Users.RoundTrips
