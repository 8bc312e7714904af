import Xv6Users.Userland.GroupRecords

/-!
# The buffers of the written lines

`updatePasswdFile` builds each line in `STRING_SIZE*4` bytes and `updateGroupFile`
in `STRING_SIZE*16`.  Neither checks what a record needs: its fields, the printed
numbers, the separators, the newline and the terminator.
-/

namespace Xv6Users.LineBuffers

open GroupRecords Ulib UserRecords List

/-- The bytes a user's line takes: four fields, two numbers, five colons, the
newline and the terminator. -/
def userBytes (user : User) : ℕ :=
  user.username.length + user.password.length + decimalWidth user.uid +
    decimalWidth user.gid + user.realname.length + user.homedir.length + 7

/-- The bytes a group's line takes: the name, the number, the members with a comma
between each two of them, two colons, the newline and the terminator. -/
def groupBytes (group : Group) : ℕ :=
  group.groupname.length + decimalWidth group.gid +
    (group.userList.map fun member => member.username.length).sum +
      (group.userList.length - 1) + 4

theorem lineFits_iff {user : User} (huid : IsInt user.uid) (hgid : IsInt user.gid) :
    LineFits user ↔ userBytes user ≤ stringSize * 4 := by
  simp only [LineFits, getStringFromUser, userBytes, length_append,
    length_cons, length_nil, length_itoa huid.1 huid.2,
    length_itoa hgid.1 hgid.2]
  omega

theorem length_memberText_false (members : List User) :
    (memberText false members).length =
      (members.map fun member => member.username.length).sum + members.length := by
  induction members with
  | nil => rfl
  | cons head tail ih =>
    simp only [memberText, Bool.false_eq_true, if_false, length_append, ih,
      map_cons, sum_cons, length_cons, length_nil]
    omega

theorem length_memberText (members : List User) :
    (memberText true members).length =
      (members.map fun member => member.username.length).sum + (members.length - 1) := by
  cases members with
  | nil => rfl
  | cons head tail =>
    simp only [memberText, if_true, length_append, length_memberText_false,
      map_cons, sum_cons, length_cons, length_nil]
    omega

theorem groupFits_iff {group : Group} (hgid : IsInt group.gid) :
    GroupFits group ↔ groupBytes group ≤ stringSize * 16 := by
  simp only [GroupFits, getStringFromGroup, groupBytes, length_append,
    length_cons, length_nil, length_memberText, length_itoa hgid.1 hgid.2]
  omega

/-- Records as `struct user` and `struct group` can hold them: strings that end within
their arrays and any two `int`s. -/
structure Held (users : List User) (groups : List Group) : Prop where
  numbers : ∀ user ∈ users, IsInt user.uid ∧ IsInt user.gid
  fields : ∀ user ∈ users, ∀ field ∈ [user.username, user.password, user.realname,
    user.homedir], field.length < stringSize ∧ 0 ∉ field
  gids : ∀ group ∈ groups, IsInt group.gid
  names : ∀ group ∈ groups, ∀ name ∈ group.groupname :: group.userList.map User.username,
    name.length < stringSize ∧ 0 ∉ name

/-- The writers stay inside their buffers exactly if no record needs more bytes than
they have. -/
theorem writers_fit_iff {users : List User} {groups : List Group} (hheld : Held users groups) :
    ((∃ content, updatePasswdFile users = some content) ↔ ∀ user ∈ users, userBytes user ≤ 128) ∧
    ((∃ content, updateGroupFile groups = some content) ↔
      ∀ group ∈ groups, groupBytes group ≤ 512) := by
  simp only [updatePasswdFile_eq_some, updateGroupFile_eq_some, exists_and_left,
    exists_eq, and_true]
  constructor
  · refine forall₂_congr fun user huser => ?_
    exact lineFits_iff (hheld.numbers user huser).1 (hheld.numbers user huser).2
  · exact forall₂_congr fun group hgroup => groupFits_iff (hheld.gids group hgroup)

/-- A user whose four strings fill their arrays. -/
def wideUser : User where
  username := replicate 31 97
  password := replicate 31 98
  uid := 1000
  gid := 1000
  realname := replicate 31 99
  homedir := replicate 31 47

/-- A group with sixteen members of the longest name. -/
def wideGroup : Group where
  groupname := str "staff"
  gid := 1000
  userList := replicate 16 wideUser

theorem wide_held : Held [wideUser] [wideGroup] where
  numbers := by decide +kernel
  fields := by decide +kernel
  gids := by decide +kernel
  names := by decide +kernel

/-- Records that fit their arrays and overrun both buffers. -/
theorem writers_overrun :
    Held [wideUser] [wideGroup] ∧ updatePasswdFile [wideUser] = none ∧
      updateGroupFile [wideGroup] = none := ⟨wide_held, by decide +kernel, by decide +kernel⟩

theorem writers_fit_iff_wide :
    Held [wideUser] [wideGroup] ∧ ((∃ content, updatePasswdFile [wideUser] = some content) ↔
        ∀ user ∈ [wideUser], userBytes user ≤ 128) := ⟨wide_held, (writers_fit_iff wide_held).1⟩

end Xv6Users.LineBuffers
