import Xv6Users.Userland.LoadedFiles

/-!
# The lines of the group file

What a group line says before its names are looked up in the password file.
Loading the file is reading its lines and resolving their names; names that are
not found are dropped.
-/

namespace Xv6Users.GroupLines

open ScannedText SortedInsert Ulib UserRecords GroupRecords LoadedFiles List Option

abbrev GroupLine := GroupOf (List (List Byte))

/-- The part of `getGroupFromString` that reads the line. -/
def getGroupLine (groupString : List Byte) : Option GroupLine := do
  let fields ← readFields colon 2 groupString
  match fields.1 with
  | [groupname, gid] =>
    let names ← readNames (fields.2.length + 1) fields.2
    some ⟨groupname, atoi gid, names⟩
  | _ => none

def groupLines (after group : List Byte) : Option (List GroupLine) := do
  let tokens ← tokensOf [newline] (group ++ after)
  tokens.mapM getGroupLine

/-- The names of the members.  A line without members is read as one empty
name. -/
def memberNamesOf (line : GroupLine) : List (List Byte) :=
  if line.userList = [[]] then [] else line.userList

def resolve (users : List User) (line : GroupLine) : Group :=
  line.withMembers (insertAll compareUsers (line.userList.filterMap (findUser users)))

section Reading

variable {after passwd group : List Byte} {users : List User}

theorem getGroupFromString_eq (hload : selectAllUsersFromPasswdFile after passwd = some users)
    (groupString : List Byte) :
    getGroupFromString after passwd groupString =
      (getGroupLine groupString).map (resolve users) := by
  unfold getGroupFromString getGroupLine
  cases hfields : readFields colon 2 groupString with
  | none => rfl
  | some fields =>
    simp only [bind_eq_bind, bind_some]
    rcases fields with ⟨_ | ⟨groupname, _ | ⟨gid, _ | _⟩⟩, rest⟩
    · rfl
    · rfl
    · cases readNames (rest.length + 1) rest with
      | none => simp
      | some names =>
        simp only [bind_some, mapM_getUserFromUsername hload,
          foldl_addUserToListSorted, filterMap_map, map_some]
        rfl
    · rfl

/-- Loading resolves the names of every line and sorts the groups by gid. -/
theorem selectAllGroups_eq (hload : selectAllUsersFromPasswdFile after passwd = some users) :
    selectAllGroupsFromGroupFile after passwd group = (groupLines after group).map fun lines =>
        insertAll compareGroups (lines.map (resolve users)) := by
  unfold selectAllGroupsFromGroupFile groupLines
  cases tokensOf [newline] (group ++ after) with
  | none => rfl
  | some tokens =>
    simp only [bind_eq_bind, bind_some, funext (getGroupFromString_eq hload), mapM_map]
    cases tokens.mapM getGroupLine <;> rfl

end Reading

theorem readNames_ne_nil {fuel : ℕ} {memory : List Byte} {names : List (List Byte)}
    (hread : readNames fuel memory = some names) : names ≠ [] := by
  cases fuel with
  | zero => cases hread
  | succ fuel =>
    simp only [readNames, bind_eq_bind, bind_eq_some_iff] at hread
    obtain ⟨found, -, hrest⟩ := hread
    split at hrest
    · cases hrest
      simp
    · obtain ⟨rest, -, hcons⟩ := bind_eq_some_iff.1 hrest
      cases hcons
      simp

/-- A line always lists a name, possibly an empty one. -/
theorem groupLines_ne_nil {after group : List Byte} {lines : List GroupLine}
    (hlines : groupLines after group = some lines) : ∀ line ∈ lines, line.userList ≠ [] := by
  intro line hline
  simp only [groupLines, bind_eq_bind, bind_eq_some_iff] at hlines
  obtain ⟨tokens, -, hlines⟩ := hlines
  obtain ⟨token, -, htoken⟩ := exists_of_mem_mapM hlines hline
  simp only [getGroupLine, bind_eq_bind, bind_eq_some_iff] at htoken
  obtain ⟨fields, -, htoken⟩ := htoken
  split at htoken
  case h_1 =>
    obtain ⟨names, hnames, hline⟩ := bind_eq_some_iff.1 htoken
    cases hline
    exact readNames_ne_nil hnames
  case h_2 => cases htoken

/-- The groups of a file are its lines in gid order, resolved. -/
theorem resolve_sorted (users : List User) (lines : List GroupLine) :
    insertAll compareGroups (lines.map (resolve users)) =
      (insertAll compareGroups lines).map (resolve users) := insertAll_map (fun _ _ => rfl) lines

def lineOf (group : Group) : GroupLine :=
  ⟨group.groupname, atoi (itoa group.gid [] 10), memberNames group.userList⟩

theorem getGroupLine_groupLine {group : Group} (hgroup : group.Printable) (beyond : List Byte) :
    getGroupLine (groupLine group ++ 0 :: beyond) = some (lineOf group) := by
  obtain ⟨hfields, hnames⟩ := read_groupLine hgroup beyond
  simp only [getGroupLine, hfields, bind_eq_bind, bind_some, hnames]
  rfl

/-- A file of printable lines holds these lines.  The newline of the last one may
be missing. -/
theorem groupLines_lines {groups last : List Group} (hlast : last.length ≤ 1)
    (hgroups : ∀ group ∈ groups ++ last, group.Printable) (beyond : List Byte) :
    groupLines (0 :: beyond) (groups.flatMap getStringFromGroup ++ last.flatMap groupLine) =
      some ((groups ++ last).map lineOf) := by
  have hlines : ∀ group ∈ groups ++ last,
      groupLine group ≠ [] ∧ Plain [newline] (groupLine group) :=
    fun group hgroup => ⟨by simp [groupLine], groupLine_plain (hgroups group hgroup)⟩
  obtain ⟨tokens, htokens, hparsed⟩ :=
    parse_lines (show newline ≠ 0 by decide) hlast hlines
      (fun group hgroup => getGroupLine_groupLine (hgroups group hgroup)) beyond
  have hcontent : groups.flatMap getStringFromGroup =
      groups.flatMap (fun group => groupLine group ++ [newline]) :=
    congrArg groups.flatMap (funext getStringFromGroup_eq)
  rw [groupLines, hcontent, append_assoc, htokens]
  exact hparsed

section Resolving

variable {users : List User} {line : GroupLine}

def Intact (users : List User) (line : GroupLine) : Prop :=
  ∀ name ∈ memberNamesOf line, ∃ user ∈ users, user.username = name
  deriving Decidable

theorem Intact.mono {more : List User} (hintact : Intact users line)
    (hmore : users ⊆ more) : Intact more line := by
  intro name hname
  obtain ⟨user, huser, hsame⟩ := hintact name hname
  exact ⟨user, hmore huser, hsame⟩

theorem findUser_isSome {name : List Byte} {user : User} (huser : user ∈ users)
    (hname : user.username = name) : (findUser users name).isSome := by
  rw [findUser, find?_isSome]
  exact ⟨user, huser, by simpa using hname⟩

/-- A member of a resolved group is what its own name stands for. -/
theorem resolve_member {member : User} (hmember : member ∈ (resolve users line).userList) :
    member.username ∈ line.userList ∧ findUser users member.username = some member := by
  obtain ⟨name, hname, hfind⟩ := mem_filterMap.1
    ((perm_insertAll _).mem_iff.1 hmember)
  obtain ⟨-, rfl⟩ := findUser_eq_some hfind
  exact ⟨hname, hfind⟩

/-- Members that are what their names stand for are read back as they were
written. -/
theorem resolve_written {members : List User} (hmembers : ∀ member ∈ members,
      findUser users member.username = some member ∧ comma ∉ member.username)
    (hnone : members = [] → findUser users [] = none) (hsorted : SortedBy User.uid members) :
    insertAll compareUsers ((memberNames members).filterMap (findUser users)) = members := by
  have hnames : (memberNames members).filterMap (findUser users) = members := by
    unfold memberNames
    split
    case isTrue hempty => simp [hempty, hnone hempty]
    case isFalse => exact filterMap_usernames hmembers
  rw [hnames, insertAll_of_sorted compareUsers_pos hsorted]

/-- An intact line resolves to an empty list only if it lists nobody. -/
theorem resolve_eq_nil (hintact : Intact users line)
    (hempty : (resolve users line).userList = []) (hnames : line.userList ≠ []) :
    line.userList = [[]] ∧ findUser users [] = none := by
  have hnone : ∀ name ∈ line.userList, findUser users name = none := by
    intro name hname
    by_contra hsome
    obtain ⟨user, hfind⟩ := ne_none_iff_exists'.1 hsome
    have hmem : user ∈ (resolve users line).userList :=
      (perm_insertAll _).mem_iff.2 (mem_filterMap.2 ⟨name, hname, hfind⟩)
    rw [hempty] at hmem
    cases hmem
  by_cases hline : line.userList = [[]]
  · exact ⟨hline, hnone [] (by simp [hline])⟩
  · obtain ⟨name, hname⟩ := exists_mem_of_ne_nil _ hnames
    have hmember : name ∈ memberNamesOf line := by
      rw [memberNamesOf, if_neg hline]
      exact hname
    obtain ⟨user, huser, hsame⟩ := hintact name hmember
    have hsome := findUser_isSome huser hsame
    rw [hnone name hname] at hsome
    cases hsome

end Resolving

end Xv6Users.GroupLines
