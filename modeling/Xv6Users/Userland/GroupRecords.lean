import Xv6Users.Userland.UserRecords

/-!
# Group records and /etc/group

The group half of the library, `user/grouphandler.c`.  A line names the members
of a group by username; loading resolves each name by a scan of /etc/passwd and
drops the names it does not find.  The lists here own their nodes; sharing of
member nodes is the subject of `MemberLists`.
-/

namespace Xv6Users.GroupRecords

open ScannedText SortedInsert Ulib UserRecords List Option

/-- `struct group`, without the list pointer.  `Members` says how the member
list is held. -/
structure GroupOf (Members : Type) where
  groupname : List Byte
  gid : ℤ
  userList : Members
  deriving DecidableEq

def GroupOf.withMembers {Members Others : Type} (group : GroupOf Members)
    (userList : Others) : GroupOf Others where
  groupname := group.groupname
  gid := group.gid
  userList := userList

abbrev Group := GroupOf (List User)

/-- The loop that cuts a list of names at commas, up to the terminator. -/
def readNames : ℕ → List Byte → Option (List (List Byte))
  | 0, _ => none
  | fuel + 1, memory => do
    let found ← readField comma memory
    if found.2.head? = some 0 then some [found.1]
    else
      let rest ← readNames fuel (found.2.drop 1)
      some (found.1 :: rest)

/-- The member names of a line.  The first one has no comma before it. -/
def memberText : Bool → List User → List Byte
  | _, [] => []
  | isFirstUser, tmpUser :: rest =>
    (if isFirstUser then [] else [comma]) ++
      (tmpUser.username ++ memberText false rest)

def getStringFromGroup (currGroup : Group) : List Byte :=
  currGroup.groupname ++ colon :: (itoa currGroup.gid [] 10 ++ colon ::
    (memberText true currGroup.userList ++ [newline]))

def compareGroups {Members Others : Type} (group1 : GroupOf Members)
    (group2 : GroupOf Others) : ℤ :=
  if group1.gid > group2.gid then 1 else if group1.gid < group2.gid then -1 else 0

def addGroupToListSorted (groupList : List Group) (currGroup : Group) : List Group :=
  insertSorted compareGroups groupList currGroup

/-- The new content of the file.  Each line is built in a buffer of
`STRING_SIZE*16` bytes. -/
def updateGroupFile (groupList : List Group) : Option (List Byte) := do
  let lines ← groupList.mapM fun group =>
    strcpy (stringSize * 16) (getStringFromGroup group)
  some lines.flatten

section Database

variable (after passwd : List Byte)

def getGroupFromString (groupString : List Byte) : Option Group := do
  let fields ← readFields colon 2 groupString
  match fields.1 with
  | [groupname, gid] =>
    let names ← readNames (fields.2.length + 1) fields.2
    let users ← names.mapM (getUserFromUsername after passwd)
    some { groupname, gid := atoi gid,
           userList := users.foldl addUserToListSorted [] }
  | _ => none

def selectAllGroupsFromGroupFile (group : List Byte) :
    Option (List Group) := do
  let tokens ← tokensOf [newline] (group ++ after)
  let groups ← tokens.mapM (getGroupFromString after passwd)
  some (groups.foldl addGroupToListSorted [])

def isGidAvailable (group : List Byte) (gid : ℤ) : Option Bool := do
  let groupList ← selectAllGroupsFromGroupFile after passwd group
  some (groupList.all fun tmpGroup => tmpGroup.gid ≠ gid)

def getNextAvailableGid (group : List Byte) : Option ℤ := do
  let groupList ← selectAllGroupsFromGroupFile after passwd group
  some (groupList.foldl
    (fun gid tmpGroup => if tmpGroup.gid = gid then int32 (gid + 1) else gid)
    1000)

def getGroupFromGroupname (group groupname : List Byte) :
    Option (Option Group) := do
  let groupList ← selectAllGroupsFromGroupFile after passwd group
  some (groupList.find? fun tmpGroup => tmpGroup.groupname = groupname)

/-- The groups named in a comma-separated argument, in gid order.  Unknown
names are skipped; a name given twice yields two entries. -/
def getMultipleGroupsFromString (group groupsString : List Byte) :
    Option (List Group) := do
  let names ← readNames (groupsString.length + 1) (groupsString ++ [0])
  let groups ← names.mapM (getGroupFromGroupname after passwd group)
  some ((groups.filterMap id).foldl addGroupToListSorted [])

def addNewGroup (group : List Byte) (newGroup : Group) :
    Option (List Byte) := do
  let groupList ← selectAllGroupsFromGroupFile after passwd group
  updateGroupFile (addGroupToListSorted groupList newGroup)

end Database

variable {fuel : ℕ}

theorem readNames_intercalate {names : List (List Byte)} (hne : names ≠ [])
    (hnames : ∀ name ∈ names, name.length < stringSize ∧ ∀ c ∈ name, c ≠ comma ∧ c ≠ 0)
    (beyond : List Byte) (hfuel : names.length ≤ fuel) :
    readNames fuel ([comma].intercalate names ++ 0 :: beyond) = some names := by
  induction names generalizing fuel with
  | nil => exact absurd rfl hne
  | cons name rest ih =>
    obtain ⟨fuel, rfl⟩ : ∃ k, fuel = k + 1 := ⟨fuel - 1, by simp at hfuel; omega⟩
    have hname := hnames name (by simp)
    cases rest with
    | nil =>
      have hread := readField_text hname.1 hname.2 (.inr rfl) beyond
      simp [readNames, hread]
    | cons next rest =>
      have hrest := ih (by simp)
        (fun other hother => hnames other (.tail name hother))
        (by simpa using hfuel : (next :: rest).length ≤ fuel)
      have hread := readField_text hname.1 hname.2 (.inl rfl)
        ([comma].intercalate (next :: rest) ++ 0 :: beyond)
      have hcomma : comma ≠ 0 := by decide
      simp [readNames, intercalate_cons_cons, hread, hcomma, hrest]

/-- Any text whose pieces fit the scratch buffer is cut at its commas. -/
theorem readNames_splitOn {text : List Byte} (hzero : 0 ∉ text)
    (hfits : ∀ chunk ∈ text.splitOn comma, chunk.length < stringSize)
    (beyond : List Byte) (hfuel : (text.splitOn comma).length ≤ fuel) :
    readNames fuel (text ++ 0 :: beyond) = some (text.splitOn comma) := by
  have hread := readNames_intercalate (splitOn_ne_nil comma text)
    (fun chunk hchunk => ⟨hfits chunk hchunk, fun c hc =>
      ⟨fun h => (mem_splitOn hchunk).1 (h ▸ hc),
        fun h => hzero ((mem_splitOn hchunk).2.subset (h ▸ hc))⟩⟩)
    beyond hfuel
  rwa [intercalate_splitOn] at hread

/-- The names a line of members is read back as.  An empty line still holds one
name, the empty one. -/
def memberNames (users : List User) : List (List Byte) :=
  if users = [] then [[]]
  else users.flatMap fun user => user.username.splitOn comma

theorem splitOn_memberText (users : List User) :
    (memberText true users).splitOn comma = memberNames users := by
  have hrest : ∀ (text : List Byte) (users : List User),
      (text ++ memberText false users).splitOn comma = text.splitOn comma ++
          users.flatMap fun user => user.username.splitOn comma := by
    intro text users
    induction users generalizing text with
    | nil => simp [memberText]
    | cons user users ih => simp [memberText, splitOn_append_cons_self, ih]
  cases users with
  | nil => simp [memberText, memberNames]
  | cons user users => simp [memberText, memberNames, hrest]

variable {users : List User} {passwd : List Byte}

theorem mem_memberText {c : Byte} {isFirstUser : Bool}
    (hc : c ∈ memberText isFirstUser users) : c = comma ∨ ∃ user ∈ users, c ∈ user.username := by
  induction users generalizing isFirstUser with
  | nil => simp [memberText] at hc
  | cons user users ih =>
    simp only [memberText, mem_append] at hc
    rcases hc with hc | hc | hc
    · cases isFirstUser <;> simp at hc
      exact .inl hc
    · exact .inr ⟨user, by simp, hc⟩
    · rcases ih hc with hcomma | ⟨other, hother, hmem⟩
      · exact .inl hcomma
      · exact .inr ⟨other, by simp [hother], hmem⟩

theorem length_of_mem_memberNames
    (husers : ∀ user ∈ users, FieldText user.username) {name : List Byte}
    (hname : name ∈ memberNames users) : name.length < stringSize := by
  unfold memberNames at hname
  split at hname
  · have hnil : name = [] := by simpa using hname
    simp [hnil, stringSize]
  · obtain ⟨user, huser, hmem⟩ := mem_flatMap.1 hname
    exact (mem_splitOn hmem).2.length_le.trans_lt (husers user huser).fits

/-- Groups whose line can be read back. -/
structure Group.Printable (group : Group) : Prop where
  groupname : FieldText group.groupname
  gid : IsInt group.gid
  members : ∀ user ∈ group.userList, FieldText user.username

def findUser (users : List User) (name : List Byte) : Option User :=
  users.find? fun user => user.username = name

def Group.reread (users : List User) (group : Group) : Group :=
  { group with
    gid := atoi (itoa group.gid [] 10)
    userList := insertAll compareUsers
      ((memberNames group.userList).filterMap (findUser users)) }

def groupLine (group : Group) : List Byte :=
  group.groupname ++ colon :: (itoa group.gid [] 10 ++ colon :: memberText true group.userList)

theorem getStringFromGroup_eq (group : Group) :
    getStringFromGroup group = groupLine group ++ [newline] := by
  simp [getStringFromGroup, groupLine]

variable {group : Group} {after : List Byte}

theorem groupLine_plain (hgroup : group.Printable) : Plain [newline] (groupLine group) := by
  have hgid := (fieldText_itoa hgroup.gid).bytes
  intro c hc
  simp only [groupLine, mem_append, mem_cons] at hc
  rcases hc with hc | rfl | hc | rfl | hc
  · simpa using (hgroup.groupname.bytes c hc).2
  · decide
  · simpa using (hgid c hc).2
  · decide
  · rcases mem_memberText hc with rfl | ⟨user, huser, hmem⟩
    · decide
    · simpa using ((hgroup.members user huser).bytes c hmem).2

theorem foldl_addUserToListSorted (found : List (Option User)) (userList : List User) :
    found.foldl addUserToListSorted userList =
      (found.filterMap id).foldl (insertSorted compareUsers) userList := by
  induction found generalizing userList with
  | nil => rfl
  | cons head rest ih =>
    cases head with
    | none => simpa [addUserToListSorted] using ih userList
    | some user => simpa [addUserToListSorted] using ih _

theorem mapM_getUserFromUsername
    (hload : selectAllUsersFromPasswdFile after passwd = some users) (names : List (List Byte)) :
    names.mapM (getUserFromUsername after passwd) = some (names.map (findUser users)) := by
  have hfind : getUserFromUsername after passwd =
      fun name => some (findUser users name) := by
    funext name
    simp [getUserFromUsername, hload, findUser]
  rw [hfind, mapM_total]

/-- The two fields and the names of a line. -/
theorem read_groupLine (hgroup : group.Printable) (beyond : List Byte) :
    readFields colon 2 (groupLine group ++ 0 :: beyond) =
        some ([group.groupname, itoa group.gid [] 10],
          memberText true group.userList ++ 0 :: beyond) ∧
      readNames ((memberText true group.userList ++ 0 :: beyond).length + 1)
        (memberText true group.userList ++ 0 :: beyond) = some (memberNames group.userList) := by
  have hgid := fieldText_itoa hgroup.gid
  have hzero : 0 ∉ memberText true group.userList := by
    intro hmem
    rcases mem_memberText hmem with h | ⟨user, huser, h⟩
    · exact absurd h (by decide)
    · exact ((hgroup.members user huser).bytes 0 h).2.2 rfl
  have hfuel : ((memberText true group.userList).splitOn comma).length ≤
      (memberText true group.userList ++ 0 :: beyond).length + 1 :=
    (length_splitOn_le comma _).trans (by simp)
  have hnames := readNames_splitOn hzero
    (fun name hname => length_of_mem_memberNames hgroup.members
      (splitOn_memberText group.userList ▸ hname)) beyond hfuel
  rw [splitOn_memberText] at hnames
  refine ⟨?_, hnames⟩
  simp [groupLine, readFields, hgroup.groupname.read, hgid.read]

theorem getGroupFromString_groupLine
    (hload : selectAllUsersFromPasswdFile after passwd = some users)
    (hgroup : group.Printable) (beyond : List Byte) :
    getGroupFromString after passwd (groupLine group ++ 0 :: beyond) =
      some (group.reread users) := by
  obtain ⟨hfields, hnames⟩ := read_groupLine hgroup beyond
  simp only [getGroupFromString, hfields, bind_eq_bind,
    bind_some, hnames, mapM_getUserFromUsername hload,
    foldl_addUserToListSorted, filterMap_map]
  rfl

variable {groups : List Group} {content beyond : List Byte}

/-- Loading a file made of printable lines rereads every group once and sorts
the groups by gid.  The newline of the last line may be missing. -/
theorem selectAllGroups_lines
    (hload : selectAllUsersFromPasswdFile (0 :: beyond) passwd = some users)
    {last : List Group} (hlast : last.length ≤ 1)
    (hgroups : ∀ group ∈ groups ++ last, group.Printable) :
    selectAllGroupsFromGroupFile (0 :: beyond) passwd
        (groups.flatMap getStringFromGroup ++ last.flatMap groupLine) =
      some (insertAll compareGroups ((groups ++ last).map (Group.reread users))) := by
  have hlines : ∀ group ∈ groups ++ last,
      groupLine group ≠ [] ∧ Plain [newline] (groupLine group) :=
    fun group hgroup => ⟨by simp [groupLine], groupLine_plain (hgroups group hgroup)⟩
  obtain ⟨tokens, htokens, hparsed⟩ :=
    parse_lines (show newline ≠ 0 by decide) hlast hlines
      (fun group hgroup =>
        getGroupFromString_groupLine hload (hgroups group hgroup)) beyond
  have hcontent : groups.flatMap getStringFromGroup =
      groups.flatMap (fun group => groupLine group ++ [newline]) :=
    congrArg groups.flatMap (funext getStringFromGroup_eq)
  rw [selectAllGroupsFromGroupFile, hcontent, append_assoc, htokens]
  simp only [bind_eq_bind, bind_some, hparsed]
  rfl

theorem compareGroups_pos {Members Others : Type} (left : GroupOf Members)
    (right : GroupOf Others) : 0 < compareGroups left right ↔ right.gid < left.gid := by
  unfold compareGroups
  split_ifs <;> simp <;> omega

theorem compareGroups_eq_zero {Members Others : Type}
    (left : GroupOf Members) (right : GroupOf Others) :
    compareGroups left right = 0 ↔ left.gid = right.gid := by
  unfold compareGroups
  split_ifs <;> simp <;> omega

@[simp]
theorem compareGroups_withMembers {Members Others Kept : Type}
    (left : GroupOf Kept) (right : GroupOf Members) (userList : Others) :
    compareGroups left (right.withMembers userList) = compareGroups left right := rfl

@[simp]
theorem userList_withMembers {Members Others : Type} (group : GroupOf Members)
    (userList : Others) : (group.withMembers userList).userList = userList := rfl

@[simp]
theorem withMembers_withMembers {Members Others Last : Type}
    (group : GroupOf Members) (userList : Others) (last : Last) :
    (group.withMembers userList).withMembers last = group.withMembers last := rfl

def GroupFits (group : Group) : Prop :=
  (getStringFromGroup group).length < stringSize * 16
  deriving Decidable

theorem updateGroupFile_eq_some :
    updateGroupFile groups = some content ↔ (∀ group ∈ groups, GroupFits group) ∧
        content = groups.flatMap getStringFromGroup := flatten_mapM_strcpy

theorem reload_updateGroupFile
    (hload : selectAllUsersFromPasswdFile (0 :: beyond) passwd = some users)
    (hgroups : ∀ group ∈ groups, group.Printable) (hwrite : updateGroupFile groups = some content) :
    selectAllGroupsFromGroupFile (0 :: beyond) passwd content =
      some (insertAll compareGroups (groups.map (Group.reread users))) := by
  rw [(updateGroupFile_eq_some.1 hwrite).2]
  simpa using selectAllGroups_lines hload
    (show ([] : List Group).length ≤ 1 by simp) (by simpa using hgroups)

end Xv6Users.GroupRecords
