import Xv6Users.Userland.MemberLists
import Xv6Users.Userland.PasswordChange

/-!
# The account programs

`useradd`, `groupadd` and `usermod`: the parsing of their arguments and the
library routines behind them.  What the kernel answers to `mkdir` and `chown`
is a parameter.  Argument buffers and the first record that `malloc` returns
start out as zeros, so an option that is not given is the empty string and a
new user has an empty password.
-/

namespace Xv6Users.Accounts

open SortedInsert Ulib UserRecords GroupRecords MemberLists

/-- The two database files. -/
structure Files where
  passwd : List Byte
  group : List Byte
  deriving DecidableEq

/-- What the kernel answers: whether `mkdir` and `chown` succeed on a path. -/
structure Kernel where
  mkdir : List Byte → Bool
  chown : List Byte → Bool

section Routines

variable (after : List Byte)

/-- The check of a `-u` value, the same in `createUser` and `modifyUser`. -/
def requestedUid (passwd uidString : List Byte) : Option (Option ℤ) := do
  let uid := atoi uidString
  if uid = 0 then some none
  else do
    let available ← isUidAvailable after passwd uid
    some (if available then some uid else none)

/-- The uid of a new user: the `-u` value or the next free one. -/
def chooseUid (passwd uidString : List Byte) : Option (Option ℤ) :=
  if isEmptyString uidString then (getNextAvailableUid after passwd).map some
  else requestedUid after passwd uidString

/-- `"/home/"` followed by a name, in a `STRING_SIZE` array. -/
def homePath (name : List Byte) : Option (List Byte) := do
  let path ← strcpy stringSize (str "/home/")
  strcat stringSize path name

/-- `none` inside is the `NULL` that reports an error. -/
def createUser (files : Files) (kernel : Kernel)
    (homedir uidString realname username : List Byte) :
    Option (Option User) := do
  match ← chooseUid after files.passwd uidString with
  | none => some none
  | some uid => do
    let gid ← getNextAvailableGid after files.passwd files.group
    let path ← homePath (if isEmptyString homedir then username else homedir)
    if kernel.mkdir path then do
      let realname ← strcpy stringSize realname
      let username ← strcpy stringSize username
      some (some { username, password := [], uid, gid, realname,
                   homedir := path })
    else some none

/-- The check of a `-g` value. -/
def requestedGid (files : Files) (gidString : List Byte) :
    Option (Option ℤ) := do
  let gid := atoi gidString
  if gid = 0 then some none
  else do
    let available ← isGidAvailable after files.passwd files.group gid
    some (if available then some gid else none)

/-- The gid of a new group: the `-g` value or the next free one. -/
def chooseGid (files : Files) (gidString : List Byte) : Option (Option ℤ) :=
  if isEmptyString gidString then
    (getNextAvailableGid after files.passwd files.group).map some
  else requestedGid after files gidString

/-- `lookup` is the name to look a member up by, for `ADD_USER`. -/
def createGroup (files : Files) (groupname gidString : List Byte)
    (lookup : Option (List Byte)) : Option (Option Group) := do
  let groupname ← strcpy stringSize groupname
  match ← chooseGid after files gidString with
  | none => some none
  | some gid => do
    let member ← match lookup with
      | none => some none
      | some name => getUserFromUsername after files.passwd name
    some (some { groupname, gid, userList := member.toList })

/-- The `-l` part of `modifyUser`. -/
def renameUser (passwd : List Byte) (modUser : User) (username : List Byte) :
    Option (Option User) :=
  if isEmptyString username then some (some modUser)
  else do
    let found ← getUserFromUsername after passwd username
    match found with
    | some _ => some none
    | none => do
      let username ← strcpy stringSize username
      some (some { modUser with username })

/-- The `-u` part of `modifyUser`. -/
def changeUid (passwd : List Byte) (modUser : User) (uidString : List Byte) :
    Option (Option User) :=
  if isEmptyString uidString then some (some modUser)
  else do
    let uid ← requestedUid after passwd uidString
    some (uid.map fun uid => { modUser with uid })

/-- The `-c` part of `modifyUser`. -/
def changeRealname (modUser : User) (realname : List Byte) : Option User :=
  if isEmptyString realname then some modUser
  else (strcpy stringSize realname).map fun realname => { modUser with realname }

/-- Without `-a` the user first leaves all groups. -/
def leaveGroups (files : Files) (currUser : User) (a : List Byte) : Option (List Byte) :=
  if isEmptyString a then
    removeUserFromAllGroups after files.passwd files.group currUser
  else some files.group

/-- The `-G` part of `modifyUser`, which rewrites the group file. -/
def changeGroups (files : Files) (currUser : User) (groups a : List Byte) : Option (List Byte) :=
  if isEmptyString groups then some files.group
  else do
    let group ← leaveGroups after files currUser a
    let groupsToAddUser ←
      getMultipleGroupsFromString after files.passwd group groups
    addUserToGroups after files.passwd group groupsToAddUser currUser

/-- The `-d` part of `modifyUser`. -/
def changeHome (kernel : Kernel) (modUser : User) (homedir : List Byte) : Option (Option User) :=
  if isEmptyString homedir then some (some modUser)
  else do
    let path ← homePath homedir
    some (if kernel.mkdir path && kernel.chown path then
      some { modUser with homedir := path } else none)

/-- The group file that is left and the modified record, or `none` inside for
`NULL`.  The options are handled in the order of the source, so an option that
fails late leaves the effects of the earlier ones. -/
def modifyUser (files : Files) (kernel : Kernel) (currUser : User)
    (username uidString realname homedir groups a : List Byte) :
    Option (List Byte × Option User) := do
  match ← renameUser after files.passwd currUser username with
  | none => some (files.group, none)
  | some modUser =>
    match ← changeUid after files.passwd modUser uidString with
    | none => some (files.group, none)
    | some modUser => do
      let modUser ← changeRealname modUser realname
      let group ← changeGroups after files currUser groups a
      let modUser ← changeHome kernel modUser homedir
      some (group, modUser)

end Routines

/-- A finished run: the files it leaves and what it printed. -/
structure Run where
  files : Files
  output : List Byte
  deriving DecidableEq

/-- An option: its position among the argument buffers, and whether it is only
a flag. -/
structure Switch where
  position : ℕ
  flag : Bool
  deriving DecidableEq

/-- The loop of `parseCommandLineArguments` over the words before the name.
An unknown option is the inner `none`. -/
def parseLoop (getPositionInArguments : List Byte → Option Switch) :
    List (List Byte) → List (List Byte) → Option (Option (List (List Byte)))
  | [], arguments => some (some arguments)
  | [_], arguments => some (some arguments)
  | command :: value :: rest, arguments =>
    match getPositionInArguments command with
    | none => some none
    | some switch =>
      if switch.flag then
        parseLoop getPositionInArguments (value :: rest)
          (arguments.set switch.position (str "1"))
      else do
        let value ← strcpy stringSize value
        parseLoop getPositionInArguments rest (arguments.set switch.position value)
  termination_by words => words.length

/-- The last word is the name; it is stored in the last of `count` buffers. -/
def parseCommandLineArguments (getPositionInArguments : List Byte → Option Switch) (count : ℕ)
    (words : List (List Byte)) : Option (Option (List (List Byte))) :=
  match words.getLast? with
  | none => some none
  | some name => do
    let name ← strcpy stringSize name
    parseLoop getPositionInArguments words ((List.replicate count []).set (count - 1) name)

namespace Useradd

def getPositionInArguments (command : List Byte) : Option Switch :=
  if command = str "-d" then some ⟨0, false⟩
  else if command = str "-u" then some ⟨1, false⟩
  else if command = str "-c" then some ⟨2, false⟩
  else none

/-- `newUser` has been freed when its name is looked up for the new group;
`freed` is what is then found in its place. -/
def main (after : List Byte) (kernel : Kernel) (freed : List Byte)
    (words : List (List Byte)) (files : Files) : Option Run := do
  let failed : Run := ⟨files, str "Error while creating user!\n"⟩
  match ← parseCommandLineArguments getPositionInArguments 4 words with
  | some [homedir, uidString, realname, username] =>
    match ← createUser after files kernel homedir uidString realname username with
    | none => some failed
    | some newUser => do
      let passwd ← addNewUser after files.passwd newUser
      let newGroup ← createGroup after ⟨passwd, files.group⟩
        newUser.username [] (some freed)
      let newGroup ← newGroup
      let group ← addNewGroup after passwd files.group newGroup
      some ⟨⟨passwd, group⟩, []⟩
  | _ => some failed

end Useradd

namespace Groupadd

def getPositionInArguments (command : List Byte) : Option Switch :=
  if command = str "-g" then some ⟨0, false⟩ else none

def main (after : List Byte) (words : List (List Byte)) (files : Files) :
    Option Run := do
  let failed : Run := ⟨files, str "Error while creating group!\n"⟩
  match ← parseCommandLineArguments getPositionInArguments 2 words with
  | some [gidString, groupname] =>
    match ← createGroup after files groupname gidString none with
    | none => some failed
    | some newGroup => do
      let group ← addNewGroup after files.passwd files.group newGroup
      some ⟨⟨files.passwd, group⟩, []⟩
  | _ => some failed

end Groupadd

namespace Usermod

def getPositionInArguments (command : List Byte) : Option Switch :=
  if command = str "-l" then some ⟨0, false⟩
  else if command = str "-u" then some ⟨1, false⟩
  else if command = str "-c" then some ⟨2, false⟩
  else if command = str "-d" then some ⟨3, false⟩
  else if command = str "-m" then some ⟨4, true⟩
  else if command = str "-G" then some ⟨5, false⟩
  else if command = str "-a" then some ⟨6, true⟩
  else none

def main (after : List Byte) (kernel : Kernel) (words : List (List Byte))
    (files : Files) : Option Run := do
  let message := str "Error while modifying user!\n"
  match ← parseCommandLineArguments getPositionInArguments 8 words with
  | some [newUsername, uidString, realname, homedir, _, groups, a, username] =>
    match ← getUserFromUsername after files.passwd username with
    | none => some ⟨files, message⟩
    | some currUser => do
      let result ← modifyUser after files kernel currUser newUsername
        uidString realname homedir groups a
      match result.2 with
      | none => some ⟨⟨files.passwd, result.1⟩, message⟩
      | some modUser => do
        let passwd ← updateUserInfo after files.passwd currUser modUser
        some ⟨⟨passwd, result.1⟩, []⟩
  | _ => some ⟨files, message⟩

end Usermod

end Xv6Users.Accounts
