import Xv6Users.Userland.KeyInvariant

/-!
# Unique keys over whole histories

The database programs run one at a time on the shipped files.  Only some of
them check that a key is new, so the keys stay unique in the histories whose
runs are careful: they give new names where the code does not look, and text
and numbers that are read back as they were given.
-/

namespace Xv6Users.UniqueKeys

open Option

open SortedInsert Ulib UserRecords GroupRecords PasswordChange Accounts UidRoundTrip KeyInvariant

variable {kernel : Kernel} {argv words : List (List Byte)} {stdin : List (Option Byte)}
  {procUid : ℤ} {freed : List Byte}

/-- One run of a database program.  `beyond` is the memory behind the read
buffers. -/
inductive Command where
  | useradd (beyond : List Byte) (kernel : Kernel) (freed : List Byte)
      (words : List (List Byte))
  | groupadd (beyond : List Byte) (words : List (List Byte))
  | usermod (beyond : List Byte) (kernel : Kernel) (words : List (List Byte))
  | passwd (beyond : List Byte) (procUid : ℤ) (argv : List (List Byte))
      (stdin : List (Option Byte))

/-- The files after a run of `passwd`. -/
def Outcome.files (files : Files) : Outcome → Files
  | .changed passwd => { files with passwd }
  | _ => files

/-- The files after a run, or `none` when it runs into a memory error. -/
def Command.run (files : Files) : Command → Option Files
  | useradd beyond kernel freed words =>
    (Useradd.main (0 :: beyond) kernel freed words files).map Run.files
  | groupadd beyond words => (Groupadd.main (0 :: beyond) words files).map Run.files
  | usermod beyond kernel words => (Usermod.main (0 :: beyond) kernel words files).map Run.files
  | passwd beyond procUid argv stdin =>
    (PasswordChange.main (0 :: beyond) files.passwd procUid argv stdin).map (Outcome.files files)

def shippedFiles : Files where
  passwd :=
    str "root:password:0:0:Superuser:/home/root\n" ++
    (str "ken:abcd1234:1000:1000:Ken_Thompson:/home/ken\n" ++
    (str "dmr:password1:1001:1001:Dennis_Ritchie:/home/dmr\n" ++
      str "bwk:123456:1002:1002:Brian_Kernighan:/home/bwk"))
  group :=
    str "root:0:root\n" ++ (str "admin:1:root,ken\n" ++
    (str "users:2:ken,dmr,bwk\n" ++ (str "ken:1000:ken\n" ++
    (str "dmr:1001:dmr\n" ++ str "bwk:1002:bwk"))))

/-- The states reached from the shipped files by runs that are `allowed`. -/
inductive Reachable (allowed : Files → Command → Prop) : Files → Prop where
  | shipped : Reachable allowed shippedFiles
  | step {files files' : Files} {command : Command}
      (hfiles : Reachable allowed files) (hallowed : allowed files command)
      (hrun : command.run files = some files') : Reachable allowed files'

/-- What keeps the keys unique and is not checked by the programs. -/
def Careful (files : Files) : Command → Prop
  | .useradd beyond _ _ words =>
    ∀ homedir uidString realname username,
      parseCommandLineArguments Useradd.getPositionInArguments 4 words =
        some (some [homedir, uidString, realname, username]) →
      Word homedir ∧ Word realname ∧ PlainName username ∧
        PlainNumber uidString ∧ UidRoom beyond files.passwd ∧
        GidRoom beyond files.group ∧
        getUserFromUsername (0 :: beyond) files.passwd username = some none ∧
        getGroupFromGroupname (0 :: beyond) files.passwd files.group username = some none
  | .groupadd beyond words =>
    ∀ gidString groupname, parseCommandLineArguments Groupadd.getPositionInArguments 2 words =
        some (some [gidString, groupname]) →
      PlainName groupname ∧ PlainNumber gidString ∧ GidRoom beyond files.group ∧
        getGroupFromGroupname (0 :: beyond) files.passwd files.group groupname = some none
  | .usermod _ _ words =>
    ∀ newUsername uidString realname homedir m groups a username,
      parseCommandLineArguments Usermod.getPositionInArguments 8 words =
        some (some [newUsername, uidString, realname, homedir, m, groups, a, username]) →
      PlainName newUsername ∧ PlainNumber uidString ∧ Word realname ∧ Word homedir
  | .passwd _ procUid _ stdin =>
    ∀ user newPassword, dialogue procUid user stdin = some (.ok newPassword) → colon ∉ newPassword

section Steps

variable {beyond : List Byte} {files files' : Files} {users : List User}
  {keys : List (List Byte × ℤ)}

/-- A run of `useradd` that writes a file writes both. -/
theorem useradd_cases (hrun : (Command.useradd beyond kernel freed words).run files = some files') :
    files' = files ∨ ∃ homedir uidString realname username newUser newGroup,
        parseCommandLineArguments Useradd.getPositionInArguments 4 words =
          some (some [homedir, uidString, realname, username]) ∧
        createUser (0 :: beyond) files kernel homedir uidString realname
          username = some (some newUser) ∧
        addNewUser (0 :: beyond) files.passwd newUser = some files'.passwd ∧
        createGroup (0 :: beyond) ⟨files'.passwd, files.group⟩ username []
          (some freed) = some (some newGroup) ∧
        addNewGroup (0 :: beyond) files'.passwd files.group newGroup = some files'.group := by
  rw [Command.run, map_eq_some_iff] at hrun
  obtain ⟨run, hrun, rfl⟩ := hrun
  simp only [Useradd.main, bind_eq_bind, bind_eq_some_iff]
    at hrun
  obtain ⟨arguments, hparse, hrun⟩ := hrun
  split at hrun
  next homedir uidString realname username =>
    obtain ⟨created, hcreate, hrun⟩ := bind_eq_some_iff.1 hrun
    cases created with
    | none =>
      cases hrun
      exact .inl rfl
    | some newUser =>
      simp only [bind_eq_some_iff] at hrun
      obtain ⟨passwd, hpasswd, _, hnewGroup, newGroup, rfl, group, hadd, hrun⟩ := hrun
      cases hrun
      rw [(createUser_eq_some hcreate).2.2.1] at hnewGroup
      exact .inr ⟨homedir, uidString, realname, username, newUser, newGroup,
        hparse, hcreate, hpasswd, hnewGroup, hadd⟩
  next =>
    cases hrun
    exact .inl rfl

/-- A run of `groupadd` that writes a file adds a group. -/
theorem groupadd_cases (hrun : (Command.groupadd beyond words).run files = some files') :
    files' = files ∨ ∃ gidString groupname newGroup,
        parseCommandLineArguments Groupadd.getPositionInArguments 2 words =
          some (some [gidString, groupname]) ∧
        createGroup (0 :: beyond) files groupname gidString none = some (some newGroup) ∧
        files'.passwd = files.passwd ∧
        addNewGroup (0 :: beyond) files.passwd files.group newGroup = some files'.group := by
  rw [Command.run, map_eq_some_iff] at hrun
  obtain ⟨run, hrun, rfl⟩ := hrun
  simp only [Groupadd.main, bind_eq_bind, bind_eq_some_iff]
    at hrun
  obtain ⟨arguments, hparse, hrun⟩ := hrun
  split at hrun
  next gidString groupname =>
    obtain ⟨created, hcreate, hrun⟩ := bind_eq_some_iff.1 hrun
    cases created with
    | none =>
      cases hrun
      exact .inl rfl
    | some newGroup =>
      obtain ⟨group, hadd, hrun⟩ := bind_eq_some_iff.1 hrun
      cases hrun
      exact .inr ⟨gidString, groupname, newGroup, hparse, hcreate, rfl, hadd⟩
  next =>
    cases hrun
    exact .inl rfl

/-- A run of `usermod` for a user leaves the group file of `modifyUser` and, if
that succeeds, writes the modified record. -/
theorem usermod_cases {run : Run}
    (hrun : Usermod.main (0 :: beyond) kernel words files = some run) :
    run = ⟨files, str "Error while modifying user!\n"⟩ ∨
      ∃ newUsername uidString realname homedir m groups a username currUser modified,
        parseCommandLineArguments Usermod.getPositionInArguments 8 words =
          some (some [newUsername, uidString, realname, homedir, m, groups, a, username]) ∧
        getUserFromUsername (0 :: beyond) files.passwd username = some (some currUser) ∧
        modifyUser (0 :: beyond) files kernel currUser newUsername uidString
          realname homedir groups a = some (run.files.group, modified) ∧
        match modified with
        | none => run = ⟨⟨files.passwd, run.files.group⟩,
            str "Error while modifying user!\n"⟩
        | some modUser =>
          updateUserInfo (0 :: beyond) files.passwd currUser modUser = some run.files.passwd := by
  simp only [Usermod.main, bind_eq_bind, bind_eq_some_iff]
    at hrun
  obtain ⟨arguments, hparse, hrun⟩ := hrun
  split at hrun
  next newUsername uidString realname homedir m groups a username =>
    obtain ⟨found, hfound, hrun⟩ := bind_eq_some_iff.1 hrun
    cases found with
    | none =>
      cases hrun
      exact .inl rfl
    | some currUser =>
      obtain ⟨⟨group, modified⟩, hmodify, hrun⟩ := bind_eq_some_iff.1 hrun
      right
      refine ⟨newUsername, uidString, realname, homedir, m, groups, a, username,
        currUser, modified, hparse, hfound, ?_⟩
      cases modified with
      | none =>
        cases hrun
        exact ⟨hmodify, rfl⟩
      | some modUser =>
        obtain ⟨passwd, hupdate, hrun⟩ := bind_eq_some_iff.1 hrun
        cases hrun
        exact ⟨hmodify, hupdate⟩
  next =>
    cases hrun
    exact .inl rfl

theorem holds_useradd (hholds : Holds files users keys)
    (hcareful : Careful files (.useradd beyond kernel freed words))
    (hrun : (Command.useradd beyond kernel freed words).run files = some files') :
    ∃ newUsers newKeys, Holds files' newUsers newKeys := by
  rcases useradd_cases hrun with rfl | ⟨homedir, uidString, realname, username,
    newUser, newGroup, hparse, hcreate, hpasswd, hnewGroup, hadd⟩
  · exact ⟨users, keys, hholds⟩
  · obtain ⟨hhome, hreal, hplain, hnumber, huids, hgids, hname, hgroup⟩ :=
      hcareful homedir uidString realname username hparse
    obtain ⟨newUsers, hmiddle, -⟩ := hholds.create_user ⟨hhome, hreal⟩ hplain
      hnumber ⟨huids, hgids⟩
      (unknown_username (hholds.users_load beyond) hname) hcreate hpasswd
    exact ⟨newUsers, hmiddle.create_group hplain (.inl rfl) hgids
      (hholds.unknown_groupname hgroup) hnewGroup hadd⟩

theorem holds_groupadd (hholds : Holds files users keys)
    (hcareful : Careful files (.groupadd beyond words))
    (hrun : (Command.groupadd beyond words).run files = some files') :
    ∃ newUsers newKeys, Holds files' newUsers newKeys := by
  rcases groupadd_cases hrun with rfl | ⟨gidString, groupname, newGroup, hparse,
    hcreate, hpasswd, hadd⟩
  · exact ⟨users, keys, hholds⟩
  · obtain ⟨hplain, hnumber, hgids, hgroup⟩ := hcareful gidString groupname hparse
    obtain ⟨newKeys, hnew⟩ := hholds.create_group hplain hnumber hgids
      (hholds.unknown_groupname hgroup) hcreate hadd
    rw [← hpasswd] at hnew
    exact ⟨users, newKeys, hnew⟩

theorem holds_usermod (hholds : Holds files users keys)
    (hcareful : Careful files (.usermod beyond kernel words))
    (hrun : (Command.usermod beyond kernel words).run files = some files') :
    ∃ newUsers newKeys, Holds files' newUsers newKeys := by
  rw [Command.run, map_eq_some_iff] at hrun
  obtain ⟨run, hrun, rfl⟩ := hrun
  rcases usermod_cases hrun with rfl | ⟨newUsername, uidString, realname, homedir, m,
    groups, a, username, currUser, modified, hparse, hfound, hmodify, hwrite⟩
  · exact ⟨users, keys, hholds⟩
  · obtain ⟨hplain, hnumber, hreal, hhome⟩ :=
      hcareful newUsername uidString realname homedir m groups a username hparse
    have hcurr := (known_username (hholds.users_load beyond) hfound).1
    cases modified with
    | none =>
      rw [hwrite]
      exact ⟨users, keys, hholds.modify_failed hcurr hmodify⟩
    | some modUser =>
      obtain ⟨newUsers, hnew, -⟩ := hholds.modify_user hcurr hplain hnumber
        ⟨hreal, hhome⟩ hmodify hwrite
      exact ⟨newUsers, keys, hnew⟩

theorem selectTarget_mem {user : User}
    (hload : selectAllUsersFromPasswdFile (0 :: beyond) files.passwd = some users)
    (htarget : selectTarget (0 :: beyond) files.passwd procUid argv = some (.ok (some user))) :
    user ∈ users := by
  simp only [selectTarget, getUserFromUid, hload, bind_eq_bind, bind_some] at htarget
  cases argv with
  | nil =>
    simp only [some_inj, Except.ok.injEq] at htarget
    exact List.mem_of_find?_eq_some htarget
  | cons username rest =>
    split_ifs at htarget
    · simp at htarget
    · obtain ⟨found, hfound, htarget⟩ := bind_eq_some_iff.1 htarget
      cases found with
      | none => simp at htarget
      | some found =>
        cases htarget
        exact (known_username hload hfound).1

/-- The file is only written with an accepted password for a known user. -/
theorem main_changed {content : List Byte}
    (hload : selectAllUsersFromPasswdFile (0 :: beyond) files.passwd = some users)
    (hrun : PasswordChange.main (0 :: beyond) files.passwd procUid argv stdin =
      some (.changed content)) :
    ∃ user ∈ users, ∃ newPassword, dialogue procUid (some user) stdin = some (.ok newPassword) ∧
      updatePasswdFile (replaceUser (withPassword user newPassword)
        (withPassword user newPassword) users) = some content := by
  simp only [PasswordChange.main, bind_eq_bind, bind_eq_some_iff] at hrun
  obtain ⟨target, htarget, hrun⟩ := hrun
  cases target with
  | error outcome =>
    cases hrun
    exact absurd htarget selectTarget_unchanged
  | ok target =>
    obtain ⟨answer, hanswer, hrun⟩ := bind_eq_some_iff.1 hrun
    cases answer with
    | error outcome =>
      cases hrun
      exact absurd hanswer dialogue_unchanged
    | ok newPassword =>
      simp only [bind_eq_some_iff, updateUserInfo, hload, bind_eq_bind, bind_some] at hrun
      obtain ⟨user, rfl, _, hwrite, hrun⟩ := hrun
      cases hrun
      exact ⟨user, selectTarget_mem hload htarget, newPassword, hanswer, hwrite⟩

/-- A careful run of `passwd` that writes the file keeps the names. -/
theorem passwd_cases (hholds : Holds files users keys)
    (hcareful : Careful files (.passwd beyond procUid argv stdin))
    (hrun : (Command.passwd beyond procUid argv stdin).run files = some files') :
    files' = files ∨ files'.group = files.group ∧
      ∃ user ∈ users, ∃ record newUsers, record.username = user.username ∧
        Holds files' newUsers keys ∧
        newUsers.Perm (record :: users.filter fun other => other.uid ≠ user.uid) := by
  rw [Command.run, map_eq_some_iff] at hrun
  obtain ⟨outcome, hrun, rfl⟩ := hrun
  cases outcome with
  | changed content =>
    obtain ⟨user, huser, newPassword, hanswer, hwrite⟩ :=
      main_changed (hholds.users_load beyond) hrun
    have hcolon := hcareful (some user) newPassword hanswer
    obtain ⟨hlength, hnewline, hzero⟩ := dialogue_ok hanswer
    have hold := hholds.users.wellFormed user huser
    have htext : FieldText newPassword := ⟨hlength, fun c hc =>
      ⟨fun h => hcolon (h ▸ hc), fun h => hnewline (h ▸ hc),
        fun h => hzero (h ▸ hc)⟩⟩
    have hrecord : (withPassword user newPassword).WellFormed := { hold with password := htext }
    rw [replaceUser_congr (show (withPassword user newPassword).uid = user.uid from rfl)] at hwrite
    obtain ⟨newUsers, hnew, hperm⟩ := hholds.update_user huser hrecord.loose
      hold.uid_nonneg hold.gid_nonneg (.inl rfl) (.inl rfl) hwrite
    exact .inr ⟨rfl, user, huser, (withPassword user newPassword).reparse, newUsers,
      rfl, hnew, hperm⟩
  | _ => exact .inl rfl

theorem holds_passwd (hholds : Holds files users keys)
    (hcareful : Careful files (.passwd beyond procUid argv stdin))
    (hrun : (Command.passwd beyond procUid argv stdin).run files = some files') :
    ∃ newUsers newKeys, Holds files' newUsers newKeys := by
  rcases passwd_cases hholds hcareful hrun with rfl | ⟨-, user, -, record, newUsers, -, hnew, -⟩
  · exact ⟨users, keys, hholds⟩
  · exact ⟨newUsers, keys, hnew⟩

/-- One careful run keeps the invariant. -/
theorem holds_step {command : Command} (hholds : Holds files users keys)
    (hcareful : Careful files command) (hrun : command.run files = some files') :
    ∃ newUsers newKeys, Holds files' newUsers newKeys := by
  cases command with
  | useradd => exact holds_useradd hholds hcareful hrun
  | groupadd => exact holds_groupadd hholds hcareful hrun
  | usermod => exact holds_usermod hholds hcareful hrun
  | passwd => exact holds_passwd hholds hcareful hrun

end Steps

def shippedRoot : User :=
  ⟨str "root", str "password", 0, 0, str "Superuser", str "/home/root"⟩

def shippedKen : User :=
  ⟨str "ken", str "abcd1234", 1000, 1000, str "Ken_Thompson", str "/home/ken"⟩

def shippedDmr : User :=
  ⟨str "dmr", str "password1", 1001, 1001, str "Dennis_Ritchie",
    str "/home/dmr"⟩

def shippedBwk : User :=
  ⟨str "bwk", str "123456", 1002, 1002, str "Brian_Kernighan", str "/home/bwk"⟩

def shippedGroups : List Group :=
  [⟨str "root", 0, [shippedRoot]⟩, ⟨str "admin", 1, [shippedRoot, shippedKen]⟩,
    ⟨str "users", 2, [shippedKen, shippedDmr, shippedBwk]⟩,
    ⟨str "ken", 1000, [shippedKen]⟩, ⟨str "dmr", 1001, [shippedDmr]⟩]

def shippedLastGroup : List Group :=
  [⟨str "bwk", 1002, [shippedBwk]⟩]

theorem shipped_passwd_lines :
    shippedFiles.passwd = [shippedRoot, shippedKen, shippedDmr].flatMap getStringFromUser ++
        [shippedBwk].flatMap userLine := by
  decide +kernel

theorem shipped_group_lines :
    shippedFiles.group = shippedGroups.flatMap getStringFromGroup ++
        shippedLastGroup.flatMap groupLine := by
  decide +kernel

theorem shipped_wellFormed :
    ∀ user ∈ [shippedRoot, shippedKen, shippedDmr, shippedBwk], user.WellFormed := by
  decide +kernel

theorem shipped_group_text :
    ∀ group ∈ shippedGroups ++ shippedLastGroup,
      FieldText group.groupname ∧ (IsInt group.gid ∧ 0 ≤ group.gid) ∧
        ∀ member ∈ group.userList, FieldText member.username := by
  decide +kernel

theorem shipped_holds :
    Holds shippedFiles [shippedRoot, shippedKen, shippedDmr, shippedBwk]
      ((shippedGroups ++ shippedLastGroup).map groupKey) where
  users_load beyond := by
    rw [shipped_passwd_lines]
    exact (selectAllUsers_lines (by decide)
      (fun user huser => (shipped_wellFormed user huser).loose) beyond).trans
      (by decide +kernel)
  users := ⟨shipped_wellFormed, by decide +kernel, by decide +kernel⟩
  groups_load := by
    intro beyond passwd users hload
    have htext := shipped_group_text
    rw [shipped_group_lines]
    refine ⟨_, selectAllGroups_lines hload (by decide) fun group hgroup =>
      ⟨(htext group hgroup).1, (htext group hgroup).2.1.1, (htext group hgroup).2.2⟩, ?_⟩
    exact reread_keys (fun group hgroup => (htext group hgroup).2.1)
      (by unfold SortedBy; decide +kernel) users
  keys := ⟨by decide +kernel, by decide +kernel, by decide +kernel⟩

theorem holds_of_reachable {files : Files} (hfiles : Reachable Careful files) :
    ∃ users keys, Holds files users keys := by
  induction hfiles with
  | shipped => exact ⟨_, _, shipped_holds⟩
  | step hfiles hcareful hrun ih =>
    obtain ⟨users, keys, hholds⟩ := ih
    exact holds_step hholds hcareful hrun

/-- `usermod -l kt ken` on the shipped files. -/
def renameKen : Command :=
  .usermod [] willing [str "-l", str "kt", str "ken"]

end Xv6Users.UniqueKeys