import Xv6Users.Userland.AddedUser

/-!
# Member names

Groups list their members by name, and `usermod -l` changes the name of a user
in the password file only.  A history in which only users without a group are
renamed keeps every listed name known and every renamed user in the same groups.
-/

namespace Xv6Users.MemberNames

open ScannedText SortedInsert Ulib UserRecords GroupRecords LoadedFiles GroupLines Accounts
open UidRoundTrip KeyInvariant UniqueKeys AddedUser PasswordChange List Option

variable {kernel : Kernel} {words : List (List Byte)}
  {a group newUsername uidString realname homedir groups : List Byte} {user currUser : User}
  {files : Files} {written : List Group} {newGroup : Group}

/-- Every member name in the group file is the name of a user. -/
def MembersKnown (files : Files) : Prop :=
  ∀ beyond, ∃ users lines, selectAllUsersFromPasswdFile (0 :: beyond) files.passwd = some users ∧
    groupLines (0 :: beyond) files.group = some lines ∧
    ∀ line ∈ lines, Intact users line

def BelongsTo (files : Files) (name groupname : List Byte) : Prop :=
  ∃ groups, (∀ beyond, selectAllGroupsFromGroupFile (0 :: beyond) files.passwd
      files.group = some groups) ∧
    ∃ group ∈ groups, group.groupname = groupname ∧
      ∃ member ∈ group.userList, member.username = name

def Unlisted (lines : List GroupLine) (name : List Byte) : Prop :=
  ∀ line ∈ lines, name ∉ line.userList

/-- What keeps member names known and is not checked by the programs: new names
have no comma, and only a user whom no line lists is renamed, by a run that leaves
the groups alone. -/
def KeepsNames (files : Files) : Command → Prop
  | .useradd _ _ _ words =>
    ∀ homedir uidString realname username,
      parseCommandLineArguments Useradd.getPositionInArguments 4 words =
        some (some [homedir, uidString, realname, username]) →
      comma ∉ username
  | .usermod beyond _ words =>
    ∀ newUsername uidString realname homedir m groups a username,
      parseCommandLineArguments Usermod.getPositionInArguments 8 words =
        some (some [newUsername, uidString, realname, homedir, m, groups, a, username]) →
      newUsername = [] ∨ comma ∉ newUsername ∧ groups = [] ∧
        ∀ lines, groupLines (0 :: beyond) files.group = some lines → Unlisted lines username
  | _ => True

def Steady (files : Files) (command : Command) : Prop :=
  Careful files command ∧ KeepsNames files command

def Groupless (users : List User) (lines : List GroupLine) (name : List Byte) : Prop :=
  (∃ user ∈ users, user.username = name) ∧ Unlisted lines name

/-- The run neither renames the user of this name nor changes their groups; a
`useradd` does so if it finds the name in the record it freed. -/
def Leaves (name : List Byte) : Command → Prop
  | .useradd _ _ freed _ => freed ≠ name
  | .usermod _ _ words =>
    ∀ newUsername uidString realname homedir m groups a,
      parseCommandLineArguments Usermod.getPositionInArguments 8 words =
        some (some [newUsername, uidString, realname, homedir, m, groups, a, name]) →
      newUsername = [] ∧ groups = []
  | _ => True

/-- The states that `allowed` runs lead to. -/
inductive Later (allowed : Files → Command → Prop) : Files → Files → Prop where
  | refl (files : Files) : Later allowed files files
  | step {files files' files'' : Files} {command : Command}
      (hlater : Later allowed files files') (hallowed : allowed files' command)
      (hrun : command.run files' = some files'') : Later allowed files files''

structure Known (files : Files) (users : List User)
    (keys : List (List Byte × ℤ)) (lines : List GroupLine) : Prop where
  holds : Holds files users keys
  commas : ∀ user ∈ users, comma ∉ user.username
  lines_load : ∀ beyond, groupLines (0 :: beyond) files.group = some lines
  intact : ∀ line ∈ lines, Intact users line

theorem Known.membersKnown {users : List User}
    {keys : List (List Byte × ℤ)} {lines : List GroupLine}
    (hknown : Known files users keys lines) : MembersKnown files := by
  intro beyond
  exact ⟨users, lines, hknown.holds.users_load beyond, hknown.lines_load beyond, hknown.intact⟩

section Lines

variable {beyond content : List Byte} {files : Files} {users : List User}
  {keys : List (List Byte × ℤ)} {lines : List GroupLine} {groups : List Group}
  {group : Group} {name : List Byte}

/-- The names of a written line are those of its members. -/
theorem mem_lineOf (hcommas : ∀ member ∈ group.userList, comma ∉ member.username)
    (hname : name ∈ (lineOf group).userList) :
    group.userList = [] ∧ name = [] ∨ ∃ member ∈ group.userList, member.username = name := by
  simp only [lineOf, memberNames] at hname
  split at hname
  case isTrue hempty => exact .inl ⟨hempty, mem_singleton.1 hname⟩
  case isFalse =>
    obtain ⟨member, hmember, hsplit⟩ := mem_flatMap.1 hname
    rw [splitOn_eq_singleton (hcommas member hmember), mem_singleton] at hsplit
    exact .inr ⟨member, hmember, hsplit.symm⟩

theorem intact_lineOf (hmembers : ∀ member ∈ group.userList,
      member ∈ users ∧ comma ∉ member.username) : Intact users (lineOf group) := by
  intro name hname
  rw [memberNamesOf] at hname
  split at hname
  case isTrue => cases hname
  case isFalse hnonempty =>
    rcases mem_lineOf (fun member hmember => (hmembers member hmember).2) hname with
      ⟨hempty, -⟩ | ⟨member, hmember, hsame⟩
    · exact absurd (by simp [lineOf, memberNames, hempty]) hnonempty
    · exact ⟨member, (hmembers member hmember).1, hsame⟩

theorem unlisted_written (hname : name ≠ [])
    (hcommas : ∀ group ∈ written, ∀ member ∈ group.userList, comma ∉ member.username)
    (hother : ∀ group ∈ written, ∀ member ∈ group.userList, member.username ≠ name) :
    Unlisted (written.map lineOf) name := by
  intro line hline hlisted
  obtain ⟨group, hgroup, rfl⟩ := mem_map.1 hline
  rcases mem_lineOf (hcommas group hgroup) hlisted with
    ⟨-, hempty⟩ | ⟨member, hmember, hsame⟩
  · exact hname hempty
  · exact hother group hgroup member hmember hsame

/-- A file of groups whose members are users lists known names only. -/
theorem known_written (hholds : Holds ⟨files.passwd, content⟩ users keys)
    (hcommas : ∀ user ∈ users, comma ∉ user.username)
    (htext : ∀ group ∈ written, FieldText group.groupname ∧ IsInt group.gid)
    (hmembers : ∀ group ∈ written, ∀ member ∈ group.userList, member ∈ users)
    (hwrite : updateGroupFile written = some content) :
    Known ⟨files.passwd, content⟩ users keys (written.map lineOf) where
  holds := hholds
  commas := hcommas
  lines_load beyond := by
    have hprintable : ∀ group ∈ written, Group.Printable group := by
      intro group hgroup
      exact ⟨(htext group hgroup).1, (htext group hgroup).2, fun member hmember =>
        hholds.username_text (hmembers group hgroup member hmember)⟩
    have hlines := @groupLines_lines written [] (by simp) (by simpa using hprintable)
      beyond
    rw [(updateGroupFile_eq_some.1 hwrite).2]
    simpa using hlines
  intact line hline := by
    obtain ⟨group, hgroup, rfl⟩ := mem_map.1 hline
    exact intact_lineOf fun member hmember =>
      ⟨hmembers group hgroup member hmember, hcommas member (hmembers group hgroup member hmember)⟩

end Lines

section Rewrites

variable {beyond content : List Byte} {files : Files} {users : List User}
  {keys : List (List Byte × ℤ)} {lines : List GroupLine} {groups : List Group}

section

variable (hknown : Known files users keys lines)

include hknown

theorem Known.loaded (beyond : List Byte) :
    selectAllGroupsFromGroupFile (0 :: beyond) files.passwd files.group =
      some (insertAll compareGroups (lines.map (resolve users))) := by
  rw [selectAllGroups_eq (hknown.holds.users_load beyond), hknown.lines_load beyond, map_some]

/-- A loaded member was listed. -/
theorem Known.listed
    (hgroups : selectAllGroupsFromGroupFile (0 :: beyond) files.passwd files.group =
      some groups) {group : Group} (hgroup : group ∈ groups) {member : User}
    (hmember : member ∈ group.userList) :
    ∃ line ∈ lines, line.groupname = group.groupname ∧ member.username ∈ line.userList := by
  cases (hknown.loaded beyond).symm.trans hgroups
  obtain ⟨line, hline, rfl⟩ := mem_map.1
    ((perm_insertAll _).mem_iff.1 hgroup)
  exact ⟨line, hline, rfl, (resolve_member hmember).1⟩

/-- Names that are not listed stay so, but for that of the user. -/
theorem Known.rewrite (huser : user ∈ users)
    (hgroups : selectAllGroupsFromGroupFile (0 :: beyond) files.passwd files.group = some groups)
    (hrewritten : Rewritten groups user content) :
    ∃ newLines, Known ⟨files.passwd, content⟩ users keys newLines ∧
      ∀ name, name ≠ [] → name ≠ user.username → Unlisted lines name → Unlisted newLines name := by
  have hholds := hknown.holds.rewrite huser hgroups hrewritten
  obtain ⟨written, hkeys, hmembers, hwrite⟩ := hrewritten
  obtain ⟨loaded, hloaded, hloadedKeys, -⟩ := hknown.holds.exists_groups beyond
  cases hloaded.symm.trans hgroups
  have hin : ∀ group ∈ written, ∀ member ∈ group.userList, member ∈ users := by
    intro group hgroup member hmember
    rcases hmembers group hgroup member hmember with rfl | ⟨old, hold, hmember⟩
    · exact huser
    · exact (loaded_members (hknown.holds.users_load beyond) hgroups hold hmember).1
  have htext : ∀ group ∈ written, FieldText group.groupname ∧ IsInt group.gid := by
    intro group hgroup
    have hkey := hknown.holds.keys.text (groupKey group) (by
      rw [← hloadedKeys, ← hkeys]
      exact mem_map_of_mem hgroup)
    exact ⟨hkey.1, hkey.2.1⟩
  refine ⟨_, known_written hholds hknown.commas htext hin hwrite,
    fun name hname hother hunlisted => ?_⟩
  apply unlisted_written hname fun group hgroup member hmember =>
    hknown.commas member (hin group hgroup member hmember)
  rintro group hgroup member hmember rfl
  rcases hmembers group hgroup member hmember with rfl | ⟨old, hold, hmember⟩
  · exact hother rfl
  · obtain ⟨line, hline, -, hlisted⟩ := hknown.listed hgroups hold hmember
    exact hunlisted line hline hlisted

theorem Known.changeGroups {names : List Byte} (huser : user ∈ users)
    (hchange : changeGroups (0 :: beyond) files user names a = some content) :
    ∃ newLines, Known ⟨files.passwd, content⟩ users keys newLines ∧
      ∀ name, name ≠ [] → name ≠ user.username → Unlisted lines name → Unlisted newLines name := by
  refine changeGroups_induction
    (fun group => ∃ newLines, Known ⟨files.passwd, group⟩ users keys newLines ∧
      ∀ name, name ≠ [] → name ≠ user.username → Unlisted lines name →
        Unlisted newLines name) ?_ ⟨lines, hknown, fun _ _ _ => id⟩ hchange
  rintro group content ⟨middle, hmiddle, hkept⟩ hwritten
  have hgroups := hmiddle.loaded beyond
  have hrewritten : Rewritten
      (insertAll compareGroups (middle.map (resolve users))) user content := by
    rcases hwritten with hleave | ⟨toAdd, hadd⟩
    · exact leave_rewritten hgroups hleave
    · exact join_rewritten hgroups hadd
  obtain ⟨newLines, hnew, hstay⟩ := hmiddle.rewrite huser hgroups hrewritten
  exact ⟨newLines, hnew, fun name hname hother hunlisted =>
    hstay name hname hother (hkept name hname hother hunlisted)⟩

/-- A new group lists its members, all others are listed as before. -/
theorem Known.add_group {newKeys : List (List Byte × ℤ)}
    (hholds : Holds ⟨files.passwd, content⟩ users newKeys)
    (htext : FieldText newGroup.groupname ∧ IsInt newGroup.gid)
    (hmember : ∀ member ∈ newGroup.userList, member ∈ users)
    (hadd : addNewGroup (0 :: beyond) files.passwd files.group newGroup = some content) :
    ∃ newLines, Known ⟨files.passwd, content⟩ users newKeys newLines ∧
      ∀ name, name ≠ [] → (∀ member ∈ newGroup.userList, member.username ≠ name) →
        Unlisted lines name → Unlisted newLines name := by
  obtain ⟨groups, hgroups, hkeys, -, hmembers⟩ := hknown.holds.exists_groups beyond
  simp only [addNewGroup, hgroups, bind_eq_bind, bind_some, addGroupToListSorted] at hadd
  have hmem : ∀ group ∈ insertSorted compareGroups groups newGroup,
      group = newGroup ∨ group ∈ groups := fun group hgroup =>
    mem_cons.1 ((perm_insertSorted groups newGroup).mem_iff.1 hgroup)
  have hin : ∀ group ∈ insertSorted compareGroups groups newGroup,
      ∀ member ∈ group.userList, member ∈ users := by
    intro group hgroup member
    rcases hmem group hgroup with rfl | hold
    · exact hmember member
    · exact hmembers group hold member
  have hnames : ∀ group ∈ insertSorted compareGroups groups newGroup,
      FieldText group.groupname ∧ IsInt group.gid := by
    intro group hgroup
    rcases hmem group hgroup with rfl | hold
    · exact htext
    · have hkey := hknown.holds.keys.text (groupKey group) (by
        rw [← hkeys]
        exact mem_map_of_mem hold)
      exact ⟨hkey.1, hkey.2.1⟩
  refine ⟨_, known_written hholds hknown.commas hnames hin hadd,
    fun name hname hother hunlisted => ?_⟩
  apply unlisted_written hname fun group hgroup member hmember =>
    hknown.commas member (hin group hgroup member hmember)
  rintro group hgroup member hlists rfl
  rcases hmem group hgroup with rfl | hold
  · exact hother member hlists rfl
  · obtain ⟨line, hline, -, hlisted⟩ := hknown.listed hgroups hold hlists
    exact hunlisted line hline hlisted

end

end Rewrites

section Steps

variable {beyond passwd : List Byte} {files files' : Files} {users newUsers : List User}
  {keys newKeys : List (List Byte × ℤ)} {lines : List GroupLine}

section

variable (hknown : Known files users keys lines)

include hknown

/-- The password file is replaced; every listed user keeps a record. -/
theorem Known.replace {newUser : User} {others : List User}
    (hholds : Holds ⟨passwd, files.group⟩ newUsers keys)
    (hperm : newUsers.Perm (newUser :: others)) (hcomma : comma ∉ newUser.username)
    (hothers : others ⊆ users)
    (hkept : ∀ user ∈ users, user.username = newUser.username ∨ user ∈ others ∨
      Unlisted lines user.username) : Known ⟨passwd, files.group⟩ newUsers keys lines where
  holds := hholds
  commas user huser := by
    rcases mem_cons.1 (hperm.mem_iff.1 huser) with rfl | hother
    · exact hcomma
    · exact hknown.commas user (hothers hother)
  lines_load := hknown.lines_load
  intact line hline name hname := by
    obtain ⟨user, huser, rfl⟩ := hknown.intact line hline name hname
    rcases hkept user huser with hsame | hother | hunlisted
    · exact ⟨newUser, hperm.mem_iff.2 (.head _), hsame.symm⟩
    · exact ⟨user, hperm.mem_iff.2 (.tail _ hother), rfl⟩
    · rw [memberNamesOf] at hname
      split at hname
      · cases hname
      · exact absurd hname (hunlisted line hline)

theorem Known.create_group {groupname gidString : List Byte}
    {lookup : Option (List Byte)} {content : List Byte}
    (hplain : PlainName groupname) (hnumber : PlainNumber gidString)
    (hroom : GidRoom beyond files.group) (hname : ∀ key ∈ keys, key.1 ≠ groupname)
    (hcreate : createGroup (0 :: beyond) files groupname gidString lookup = some (some newGroup))
    (hadd : addNewGroup (0 :: beyond) files.passwd files.group newGroup = some content) :
    ∃ newKeys newLines, Known ⟨files.passwd, content⟩ users newKeys newLines ∧
      ∀ name, name ≠ [] → lookup ≠ some name → Unlisted lines name → Unlisted newLines name := by
  obtain ⟨newKeys, hholds⟩ := hknown.holds.create_group hplain hnumber hroom hname hcreate hadd
  obtain ⟨rfl, hfits, hchosen, hmembers⟩ :=
    createGroup_eq_some (hknown.holds.users_load beyond) hcreate
  obtain ⟨newLines, hnew, hkept⟩ := hknown.add_group hholds
    ⟨hplain.fieldText hfits, (hknown.holds.chooseGid_fresh hroom hnumber hchosen).1⟩
    (fun member hmember => (hmembers member hmember).1) hadd
  refine ⟨newKeys, newLines, hnew, fun name hnonempty hother => hkept name hnonempty ?_⟩
  rintro member hmember rfl
  exact hother (hmembers member hmember).2

theorem known_useradd {freed : List Byte}
    (hsteady : Steady files (.useradd beyond kernel freed words))
    (hrun : (Command.useradd beyond kernel freed words).run files = some files') :
    ∃ newUsers newKeys newLines, Known files' newUsers newKeys newLines ∧
      ∀ name, name ≠ [] → freed ≠ name → Groupless users lines name →
        Groupless newUsers newLines name := by
  rcases useradd_cases hrun with rfl | ⟨homedir, uidString, realname, username,
    newUser, newGroup, hparse, hcreate, hpasswd, hnewGroup, hadd⟩
  · exact ⟨users, keys, lines, hknown, fun _ _ _ => id⟩
  · obtain ⟨hhome, hreal, hplain, hnumber, huids, hgids, hname, hgroup⟩ :=
      hsteady.1 homedir uidString realname username hparse
    have hcomma := hsteady.2 homedir uidString realname username hparse
    obtain ⟨newUsers, hholds, hperm⟩ := hknown.holds.create_user ⟨hhome, hreal⟩
      hplain hnumber ⟨huids, hgids⟩
      (unknown_username (hknown.holds.users_load beyond) hname) hcreate hpasswd
    have husername : newUser.username = username := (createUser_eq_some hcreate).2.2.1
    have hmiddle := hknown.replace hholds hperm (husername.symm ▸ hcomma)
      (List.Subset.refl users) fun user huser => .inr (.inl huser)
    obtain ⟨newKeys, newLines, hnew, hkept⟩ := hmiddle.create_group hplain
      (.inl rfl) hgids (hknown.holds.unknown_groupname hgroup) hnewGroup hadd
    refine ⟨newUsers, newKeys, newLines, hnew, ?_⟩
    rintro name hnonempty hfreed ⟨⟨user, huser, rfl⟩, hunlisted⟩
    exact ⟨⟨user, hperm.mem_iff.2 (.tail _ huser), rfl⟩,
      hkept _ hnonempty (fun hsame => hfreed (some_inj.1 hsame)) hunlisted⟩

theorem known_groupadd (hsteady : Steady files (.groupadd beyond words))
    (hrun : (Command.groupadd beyond words).run files = some files') :
    ∃ newUsers newKeys newLines, Known files' newUsers newKeys newLines ∧
      ∀ name, name ≠ [] → Groupless users lines name → Groupless newUsers newLines name := by
  rcases groupadd_cases hrun with rfl | ⟨gidString, groupname, newGroup, hparse,
    hcreate, hpasswd, hadd⟩
  · exact ⟨users, keys, lines, hknown, fun _ _ => id⟩
  · obtain ⟨hplain, hnumber, hgids, hgroup⟩ := hsteady.1 gidString groupname hparse
    obtain ⟨newKeys, newLines, hnew, hkept⟩ := hknown.create_group hplain hnumber
      hgids (hknown.holds.unknown_groupname hgroup) hcreate hadd
    rw [← hpasswd] at hnew
    exact ⟨users, newKeys, newLines, hnew, fun name hnonempty hname =>
      ⟨hname.1, hkept name hnonempty (by simp) hname.2⟩⟩

theorem Known.other_user {other : User} (huser : user ∈ users) (hother : other ∈ users) :
    other = user ∨ other ∈ users.filter fun other => other.uid ≠ user.uid := by
  by_cases huid : other.uid = user.uid
  · exact .inl (inj_on_of_nodup_map hknown.holds.users.uids hother huser huid)
  · exact .inr (mem_filter.2 ⟨hother, by simpa using huid⟩)

/-- The lines after the `-G` part of a run of `usermod`. -/
theorem Known.modify_groups {modified : Option User} (hcurr : currUser ∈ users)
    (hmodify : modifyUser (0 :: beyond) files kernel currUser newUsername uidString
      realname homedir groups a = some (group, modified)) :
    ∃ newLines, Known ⟨files.passwd, group⟩ users keys newLines ∧ (groups = [] → newLines = lines) ∧
      ∀ name, name ≠ [] → name ≠ currUser.username → Unlisted lines name →
        Unlisted newLines name := by
  have hsame : group = files.group ∨ groups ≠ [] ∧
      Accounts.changeGroups (0 :: beyond) files currUser groups a = some group := by
    rcases modifyUser_group hmodify with hsame | hchange
    · exact .inl hsame
    · by_cases hgroups : groups = []
      · rw [Accounts.changeGroups, hgroups,
          if_pos (show isEmptyString [] = true from rfl), some_inj] at hchange
        exact .inl hchange.symm
      · exact .inr ⟨hgroups, hchange⟩
  rcases hsame with rfl | ⟨hgroups, hchange⟩
  · exact ⟨lines, hknown, fun _ => rfl, fun _ _ _ => id⟩
  · obtain ⟨newLines, hnew, hkept⟩ := hknown.changeGroups hcurr hchange
    exact ⟨newLines, hnew, fun hempty => absurd hempty hgroups, hkept⟩

/-- The files after a successful run of `usermod`. -/
theorem Known.modify_user {modUser : User} (hcurr : currUser ∈ users)
    (hplain : PlainName newUsername) (hnumber : PlainNumber uidString)
    (hwords : Word realname ∧ Word homedir)
    (hrename : newUsername = [] ∨ comma ∉ newUsername ∧ groups = [] ∧
      Unlisted lines currUser.username)
    (hmodify : modifyUser (0 :: beyond) files kernel currUser newUsername
      uidString realname homedir groups a = some (group, some modUser))
    (hupdate : updateUserInfo (0 :: beyond) files.passwd currUser modUser = some passwd) :
    ∃ newUsers newLines, Known ⟨passwd, group⟩ newUsers keys newLines ∧ newUsers.Perm
        (modUser.reparse :: users.filter fun user => user.uid ≠ currUser.uid) ∧
      (groups = [] → newLines = lines) ∧
      ∀ name, name ≠ [] → name ≠ currUser.username → Unlisted lines name →
        Unlisted newLines name := by
  obtain ⟨newLines, hmiddle, hsame, hkept⟩ := hknown.modify_groups hcurr hmodify
  obtain ⟨newUsers, hholds, hperm⟩ := hknown.holds.modify_user hcurr hplain
    hnumber hwords hmodify hupdate
  refine ⟨newUsers, newLines, ?_, hperm, hsame, hkept⟩
  obtain ⟨-, husername, -⟩ := modifyUser_eq_some hmodify
  split_ifs at husername with hempty
  case pos =>
    apply hmiddle.replace hholds hperm
    · exact (congrArg (comma ∉ ·) husername).mpr (hknown.commas currUser hcurr)
    · exact filter_sublist.subset
    · intro user huser
      rcases hknown.other_user hcurr huser with rfl | hother
      · exact .inl husername.symm
      · exact .inr (.inl hother)
  case neg =>
    have hnonempty : newUsername ≠ [] := fun h => hempty (by rw [h]; rfl)
    obtain ⟨hcomma, hgroups, hlines⟩ := hrename.resolve_left hnonempty
    apply hmiddle.replace hholds hperm
    · exact (congrArg (comma ∉ ·) husername.1).mpr hcomma
    · exact filter_sublist.subset
    · intro user huser
      rcases hknown.other_user hcurr huser with rfl | hother
      · rw [hsame hgroups]
        exact .inr (.inr hlines)
      · exact .inr (.inl hother)

theorem known_usermod (hsteady : Steady files (.usermod beyond kernel words))
    (hrun : (Command.usermod beyond kernel words).run files = some files') :
    ∃ newUsers newKeys newLines, Known files' newUsers newKeys newLines ∧
      ∀ name, name ≠ [] → Leaves name (.usermod beyond kernel words) →
        Groupless users lines name → Groupless newUsers newLines name := by
  rw [Command.run, map_eq_some_iff] at hrun
  obtain ⟨run, hrun, rfl⟩ := hrun
  rcases usermod_cases hrun with rfl | ⟨newUsername, uidString, realname, homedir, m,
    groups, a, username, currUser, modified, hparse, hfound, hmodify, hwrite⟩
  · exact ⟨users, keys, lines, hknown, fun _ _ _ => id⟩
  · obtain ⟨hplain, hnumber, hwords⟩ :=
      hsteady.1 newUsername uidString realname homedir m groups a username hparse
    have hrename := hsteady.2 newUsername uidString realname homedir m groups a username hparse
    obtain ⟨hcurr, rfl⟩ := known_username (hknown.holds.users_load beyond) hfound
    have hstays : ∀ newLines, (groups = [] → newLines = lines) →
        (∀ name, name ≠ [] → name ≠ currUser.username → Unlisted lines name →
          Unlisted newLines name) →
        ∀ name, name ≠ [] → Leaves name (.usermod beyond kernel words) →
          Unlisted lines name → Unlisted newLines name := by
      intro newLines hsame hkept name hnonempty hleaves hunlisted
      by_cases hname : name = currUser.username
      · subst hname
        rw [hsame (hleaves newUsername uidString realname homedir m groups a hparse).2]
        exact hunlisted
      · exact hkept name hnonempty hname hunlisted
    cases modified with
    | none =>
      obtain ⟨newLines, hnew, hsame, hkept⟩ := hknown.modify_groups hcurr hmodify
      rw [hwrite]
      exact ⟨users, keys, newLines, hnew, fun name hnonempty hleaves hname =>
        ⟨hname.1, hstays newLines hsame hkept name hnonempty hleaves hname.2⟩⟩
    | some modUser =>
      obtain ⟨newUsers, newLines, hnew, hperm, hsame, hkept⟩ :=
        hknown.modify_user hcurr hplain hnumber hwords
          (hrename.imp_right fun h => ⟨h.1, h.2.1, h.2.2 lines (hknown.lines_load beyond)⟩)
          hmodify hwrite
      refine ⟨newUsers, keys, newLines, hnew, ?_⟩
      rintro name hnonempty hleaves ⟨⟨user, huser, rfl⟩, hlines⟩
      refine ⟨?_, hstays newLines hsame hkept _ hnonempty hleaves hlines⟩
      rcases hknown.other_user hcurr huser with rfl | hother
      · refine ⟨_, hperm.mem_iff.2 (.head _), ?_⟩
        obtain ⟨-, husername, -⟩ := modifyUser_eq_some hmodify
        rwa [(hleaves newUsername uidString realname homedir m groups a hparse).1,
          if_pos (show isEmptyString [] = true from rfl)] at husername
      · exact ⟨user, hperm.mem_iff.2 (.tail _ hother), rfl⟩

theorem known_passwd {procUid : ℤ} {argv : List (List Byte)} {stdin : List (Option Byte)}
    (hsteady : Steady files (.passwd beyond procUid argv stdin))
    (hrun : (Command.passwd beyond procUid argv stdin).run files = some files') :
    ∃ newUsers newKeys newLines, Known files' newUsers newKeys newLines ∧
      ∀ name, name ≠ [] → Groupless users lines name → Groupless newUsers newLines name := by
  rcases passwd_cases hknown.holds hsteady.1 hrun with rfl |
    ⟨hgroup, user, huser, record, newUsers, hname, hholds, hperm⟩
  · exact ⟨users, keys, lines, hknown, fun _ _ => id⟩
  · obtain ⟨passwd, group⟩ := files'
    cases hgroup
    have hnew : Known ⟨passwd, files.group⟩ newUsers keys lines := by
      apply hknown.replace hholds hperm
      · rw [hname]
        exact hknown.commas user huser
      · exact filter_sublist.subset
      · intro other hother
        rcases hknown.other_user huser hother with rfl | hother
        · exact .inl hname.symm
        · exact .inr (.inl hother)
    refine ⟨newUsers, keys, lines, hnew, ?_⟩
    rintro name - ⟨⟨other, hother, rfl⟩, hlines⟩
    refine ⟨?_, hlines⟩
    rcases hknown.other_user huser hother with rfl | hother
    · exact ⟨record, hperm.mem_iff.2 (.head _), hname⟩
    · exact ⟨other, hperm.mem_iff.2 (.tail _ hother), rfl⟩

/-- One steady run keeps the invariant, and a user without groups that it leaves
alone stays without groups. -/
theorem known_step {command : Command}
    (hsteady : Steady files command) (hrun : command.run files = some files') :
    ∃ newUsers newKeys newLines, Known files' newUsers newKeys newLines ∧
      ∀ name, name ≠ [] → Leaves name command → Groupless users lines name →
        Groupless newUsers newLines name := by
  cases command with
  | usermod => exact known_usermod hknown hsteady hrun
  | useradd => exact known_useradd hknown hsteady hrun
  | groupadd =>
    obtain ⟨newUsers, newKeys, newLines, hnew, hkept⟩ := known_groupadd hknown hsteady hrun
    exact ⟨newUsers, newKeys, newLines, hnew, fun name hname _ => hkept name hname⟩
  | passwd =>
    obtain ⟨newUsers, newKeys, newLines, hnew, hkept⟩ := known_passwd hknown hsteady hrun
    exact ⟨newUsers, newKeys, newLines, hnew, fun name hname _ => hkept name hname⟩

end

end Steps

theorem shipped_known :
    Known shippedFiles shippedUsers ((shippedGroups ++ shippedLastGroup).map groupKey)
      shippedLines where
  holds := shipped_holds
  commas user huser := (shipped_intact.records user huser).2.2
  lines_load := shipped_intact.lines_load
  intact := shipped_intact.intact

theorem known_of_reachable (hfiles : Reachable Steady files) :
    ∃ users keys lines, Known files users keys lines := by
  induction hfiles with
  | shipped => exact ⟨_, _, _, shipped_known⟩
  | step hfiles hsteady hrun ih =>
    obtain ⟨users, keys, lines, hknown⟩ := ih
    obtain ⟨newUsers, newKeys, newLines, hnew, -⟩ := known_step hknown hsteady hrun
    exact ⟨newUsers, newKeys, newLines, hnew⟩

section Histories

variable {files files' : Files} {users : List User} {keys : List (List Byte × ℤ)}
  {lines : List GroupLine} {name : List Byte}

theorem groupless_later (hname : name ≠ [])
    (hlater : Later (fun files command => Steady files command ∧ Leaves name command)
      files files') (hknown : Known files users keys lines)
    (hgroupless : Groupless users lines name) :
    ∃ newUsers newKeys newLines, Known files' newUsers newKeys newLines ∧
      Groupless newUsers newLines name := by
  induction hlater with
  | refl => exact ⟨users, keys, lines, hknown, hgroupless⟩
  | step hlater hallowed hrun ih =>
    obtain ⟨newUsers, newKeys, newLines, hnew, hstill⟩ := ih
    obtain ⟨lastUsers, lastKeys, lastLines, hlast, hkept⟩ := known_step hnew hallowed.1 hrun
    exact ⟨lastUsers, lastKeys, lastLines, hlast, hkept name hname hallowed.2 hstill⟩

theorem Known.not_belongsTo (hknown : Known files users keys lines)
    (hunlisted : Unlisted lines name) (groupname : List Byte) :
    ¬ BelongsTo files name groupname := by
  rintro ⟨groups, hgroups, group, hgroup, -, member, hmember, rfl⟩
  obtain ⟨line, hline, -, hlisted⟩ := hknown.listed (hgroups []) hgroup hmember
  exact hunlisted line hline hlisted

/-- A name that no user has is not listed. -/
theorem Known.unlisted_of_unknown (hknown : Known files users keys lines)
    (hname : name ≠ []) (hunknown : ∀ user ∈ users, user.username ≠ name) :
    Unlisted lines name := by
  intro line hline hlisted
  have hmember : name ∈ memberNamesOf line := by
    rw [memberNamesOf]
    split
    case isTrue hempty =>
      rw [hempty, mem_singleton] at hlisted
      exact absurd hlisted hname
    case isFalse => exact hlisted
  obtain ⟨user, huser, hsame⟩ := hknown.intact line hline name hmember
  exact hunknown user huser hsame

end Histories

/-- Every token of the file is one group. -/
theorem gidRoom_of_tokens {beyond : List Byte} {tokens : List (List Byte)}
    (htokens : tokensOf [newline] (group ++ 0 :: beyond) = some tokens)
    (hroom : tokens.length + 1000 < 2 ^ 31) : GidRoom beyond group := by
  intro passwd groups hgroups
  simp only [selectAllGroupsFromGroupFile, htokens, bind_eq_bind,
    bind_some, bind_eq_some_iff, some_inj] at hgroups
  obtain ⟨parsed, hparsed, rfl⟩ := hgroups
  have hlength : (insertAll compareGroups parsed).length = tokens.length :=
    (perm_insertAll parsed).length_eq.trans (mapM_eq_some_iff.1 hparsed).length_eq.symm
  exact (congrArg (· + 1000 < 2 ^ 31) hlength).mpr hroom

theorem none_plain : PlainName [] :=
  ⟨by simp [Word], by simp⟩

/-- `useradd bob` as it runs on the shipped files: root becomes the only member of
the new group. -/
def addBob : Command :=
  .useradd [] willing (str "root") [str "bob"]

theorem addBob_steady : Steady shippedFiles addBob := by
  constructor
  · intro homedir uidString realname username hparse
    cases shipped_words.symm.trans hparse
    refine ⟨none_plain.1, none_plain.1, ⟨by decide +kernel, by decide +kernel⟩,
      .inl rfl, ?_, ?_, ?_, ?_⟩
    · intro users husers
      cases (shipped_holds.users_load []).symm.trans husers
      decide
    · have htokens : ∃ tokens ∈ tokensOf [newline] (shippedFiles.group ++ [0]),
          tokens.length + 1000 < 2 ^ 31 := by
        decide +kernel
      obtain ⟨tokens, htokens, hroom⟩ := htokens
      exact gidRoom_of_tokens htokens hroom
    · rw [getUserFromUsername, shipped_holds.users_load]
      decide +kernel
    · rw [getGroupFromGroupname, shipped_known.loaded]
      decide +kernel
  · intro homedir uidString realname username hparse
    cases shipped_words.symm.trans hparse
    decide +kernel

def renameBob : List (List Byte) :=
  [str "-l", str "rob", str "bob"]

/-- A later run that rewrites the group file: root joins the group of users. -/
def joinUsers : List (List Byte) :=
  [str "-a", str "-G", str "users", str "root"]

theorem renameBob_words :
    parseCommandLineArguments Usermod.getPositionInArguments 8 renameBob =
      some (some [str "rob", [], [], [], [], [], [], str "bob"]) := by
  decide +kernel

theorem joinUsers_words :
    parseCommandLineArguments Usermod.getPositionInArguments 8 joinUsers =
      some (some [[], [], [], [], [], str "users", str "1", str "root"]) := by
  decide +kernel

theorem renameBob_steady (hlines : ((groupLines [0] files.group).all fun lines =>
      lines.all fun line => str "bob" ∉ line.userList) = true) :
    Steady files (.usermod [] willing renameBob) := by
  constructor
  all_goals
    intro _ _ _ _ _ _ _ _ hparse
    cases renameBob_words.symm.trans hparse
  · exact ⟨⟨by decide +kernel, by decide +kernel⟩, .inl rfl, none_plain.1,
      none_plain.1⟩
  · refine .inr ⟨by decide +kernel, rfl, fun lines hload line hline => ?_⟩
    rw [hload] at hlines
    simpa using all_eq_true.1 hlines line hline

theorem joinUsers_steady (files : Files) : Steady files (.usermod [] willing joinUsers) := by
  constructor
  all_goals
    intro _ _ _ _ _ _ _ _ hparse
    cases joinUsers_words.symm.trans hparse
  · exact ⟨none_plain, .inl rfl, none_plain.1, none_plain.1⟩
  · exact .inl rfl

theorem joinUsers_leaves : Leaves (str "rob") (.usermod [] willing joinUsers) := by
  intro _ _ _ _ _ _ _ hparse
  have hsame := joinUsers_words.symm.trans hparse
  simp only [some_inj, cons.injEq] at hsame
  exact absurd hsame.2.2.2.2.2.2.2.1 (by decide)

end Xv6Users.MemberNames
