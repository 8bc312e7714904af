import Xv6Users.Userland.UserRecords

/-!
# Authentication

`authenticateUser` of `user/userhandler.c`, stated about the bytes of the file: the
lines are cut at newlines and colons, the numbers converted, the records sorted by
uid, and the first record with both strings is the answer.
-/

namespace Xv6Users.Authentication

open SortedInsert Ulib UserRecords List

def checkUsernamePasswordForCurrUser (username password : List Byte) (currUser : User) : Bool :=
  strcmp username currUser.username = 0 && strcmp password currUser.password = 0

def authenticateUser (after passwd username password : List Byte) :
    Option (Option User) := do
  let userList ← selectAllUsersFromPasswdFile after passwd
  some (userList.find? (checkUsernamePasswordForCurrUser username password))

/-- The six fields of a line as they stand in the file. -/
structure Line where
  username : List Byte
  password : List Byte
  uid : List Byte
  gid : List Byte
  realname : List Byte
  homedir : List Byte
  deriving DecidableEq

def Line.bytes (line : Line) : List Byte :=
  line.username ++ colon :: (line.password ++ colon :: (line.uid ++ colon ::
    (line.gid ++ colon :: (line.realname ++ colon :: line.homedir))))

/-- A decimal number below 2 ^ 31 in a field. -/
structure IsNumber (text : List Byte) : Prop where
  field : FieldText text
  nonempty : text ≠ []
  digits : ∀ c ∈ text, isDigit c = true
  bound : decimalPrefix text < 2 ^ 31

/-- Six fields of at most 31 bytes, the third and the fourth decimal numbers. -/
structure Line.WellFormed (line : Line) : Prop where
  username : FieldText line.username
  password : FieldText line.password
  uid : IsNumber line.uid
  gid : IsNumber line.gid
  realname : FieldText line.realname
  homedir : FieldText line.homedir

def Line.user (line : Line) : User where
  username := line.username
  password := line.password
  uid := decimalPrefix line.uid
  gid := decimalPrefix line.gid
  realname := line.realname
  homedir := line.homedir

/-- A file of lines.  The newline behind the last one may be missing. -/
def fileOf (lines last : List Line) : List Byte :=
  lines.flatMap (fun line => line.bytes ++ [newline]) ++ last.flatMap Line.bytes

theorem IsNumber.atoi_eq {text : List Byte} (hnumber : IsNumber text) :
    atoi text = decimalPrefix text := by
  rw [Ulib.atoi_eq, int32_eq_self (by positivity) (by exact_mod_cast hnumber.bound)]

section Lines

variable {line : Line} (hline : line.WellFormed)

include hline

theorem Line.WellFormed.parse (beyond : List Byte) :
    getUserFromString (line.bytes ++ 0 :: beyond) = some line.user := by
  simp [getUserFromString, Line.bytes, readFields, hline.username.read,
    hline.password.read, hline.uid.field.read, hline.gid.field.read,
    hline.realname.read, hline.homedir.read, hline.uid.atoi_eq, hline.gid.atoi_eq,
    Line.user]

theorem Line.WellFormed.plain : line.bytes ≠ [] ∧ Plain [newline] line.bytes := by
  have hfields : ∀ field ∈ [line.username, line.password, line.uid, line.gid,
      line.realname, line.homedir], FieldText field := by
    simp [hline.username, hline.password, hline.uid.field, hline.gid.field,
      hline.realname, hline.homedir]
  refine ⟨by simp [Line.bytes], fun c hc => ?_⟩
  have hcases : c = colon ∨ ∃ field ∈ [line.username, line.password, line.uid, line.gid,
      line.realname, line.homedir], c ∈ field := by
    simp only [Line.bytes, mem_append, mem_cons] at hc
    simp only [mem_cons, not_mem_nil, or_false, exists_eq_or_imp, exists_eq_left]
    tauto
  rcases hcases with rfl | ⟨field, hfield, hmem⟩
  · decide
  · simpa using ((hfields field hfield).bytes c hmem).2

omit hline in
/-- Loading a file of lines gives their records in uid order. -/
theorem selectAllUsers_fileOf {lines last : List Line} (hlast : last.length ≤ 1)
    (hlines : ∀ line ∈ lines ++ last, line.WellFormed) (beyond : List Byte) :
    selectAllUsersFromPasswdFile (0 :: beyond) (fileOf lines last) =
      some (insertAll compareUsers ((lines ++ last).map Line.user)) := by
  obtain ⟨tokens, htokens, hparsed⟩ := parse_lines (show newline ≠ 0 by decide) hlast
    (fun line hline => (hlines line hline).plain)
    (fun line hline => (hlines line hline).parse) beyond
  rw [selectAllUsersFromPasswdFile, fileOf, append_assoc, htokens]
  simp only [Option.bind_eq_bind, Option.bind_some, hparsed]
  rfl

variable {username password : List Byte} (hstrings : 0 ∉ username ∧ 0 ∉ password)

include hstrings

theorem Line.WellFormed.check_iff :
    checkUsernamePasswordForCurrUser username password line.user = true ↔
      line.username = username ∧ line.password = password := by
  have hfree : ∀ {field}, FieldText field → 0 ∉ field := fun hfield hmem =>
    (hfield.bytes 0 hmem).2.2 rfl
  have husername := strcmp_eq_zero hstrings.1 (hfree hline.username)
  have hpassword := strcmp_eq_zero hstrings.2 (hfree hline.password)
  rw [checkUsernamePasswordForCurrUser, Bool.and_eq_true, decide_eq_true_iff, decide_eq_true_iff]
  exact and_congr (husername.trans eq_comm) (hpassword.trans eq_comm)

end Lines

def Matches (lines : List Line) (username password : List Byte) (line : Line) : Prop :=
  line ∈ lines ∧ line.username = username ∧ line.password = password

/-- For a file of well-formed lines in any order, `authenticateUser` returns a record
exactly if a line has both strings, and then that of such a line with the least uid. -/
theorem authenticateUser_iff {lines last : List Line} (hlast : last.length ≤ 1)
    (hlines : ∀ line ∈ lines ++ last, line.WellFormed) (beyond : List Byte)
    {username password : List Byte} (hstrings : 0 ∉ username ∧ 0 ∉ password) :
    ∃ result, authenticateUser (0 :: beyond) (fileOf lines last) username password = some result ∧
      (result.isSome ↔ ∃ line, Matches (lines ++ last) username password line) ∧
      ∀ user, result = some user → ∃ line, Matches (lines ++ last) username password line ∧
          user.uid = decimalPrefix line.uid ∧ user.gid = decimalPrefix line.gid ∧
          user.homedir = line.homedir ∧
          ∀ other, Matches (lines ++ last) username password other →
            decimalPrefix line.uid ≤ decimalPrefix other.uid := by
  let records := (lines ++ last).map Line.user
  have hperm : (insertAll compareUsers records).Perm records := perm_insertAll records
  have hsorted := insertAll_sorted compareUsers_pos records
  have hcheck : ∀ line ∈ lines ++ last,
      (checkUsernamePasswordForCurrUser username password line.user = true ↔
        line.username = username ∧ line.password = password) :=
    fun line hline => (hlines line hline).check_iff hstrings
  refine ⟨(insertAll compareUsers records).find?
    (checkUsernamePasswordForCurrUser username password), ?_, ?_, ?_⟩
  · rw [authenticateUser, selectAllUsers_fileOf hlast hlines beyond]
    rfl
  · rw [find?_isSome]
    constructor
    · rintro ⟨user, huser, hsame⟩
      obtain ⟨line, hline, rfl⟩ := mem_map.1 (hperm.mem_iff.1 huser)
      exact ⟨line, hline, (hcheck line hline).1 hsame⟩
    · rintro ⟨line, hline, hsame⟩
      exact ⟨line.user, hperm.mem_iff.2 (mem_map_of_mem hline), (hcheck line hline).2 hsame⟩
  · intro user hfind
    have hmem := hperm.mem_iff.1 (mem_of_find?_eq_some hfind)
    obtain ⟨line, hline, rfl⟩ := mem_map.1 hmem
    refine ⟨line, ⟨hline, (hcheck line hline).1 (find?_some hfind)⟩, rfl, rfl, rfl, ?_⟩
    rintro other ⟨hother, hsame⟩
    have hleast := find?_least hsorted hfind
      (hperm.mem_iff.2 (mem_map_of_mem hother)) ((hcheck other hother).2 hsame)
    exact Int.ofNat_le.1 hleast

/-- Two lines of one name and password, the greater uid first. -/
def twoLines : List Line :=
  [⟨str "ann", str "secret", str "1001", str "7", [], str "/home/b"⟩,
    ⟨str "ann", str "secret", str "0100", str "7", [], str "/home/a"⟩]

theorem twoLines_wellFormed : ∀ line ∈ twoLines ++ [], line.WellFormed := by
  have hnumber : ∀ text ∈ [str "1001", str "0100", str "7"], IsNumber text := by
    intro text htext
    simp only [mem_cons, not_mem_nil, or_false] at htext
    rcases htext with rfl | rfl | rfl <;>
      exact ⟨by decide +kernel, by decide, by decide +kernel, by decide +kernel⟩
  intro line hline
  simp only [twoLines, append_nil, mem_cons, not_mem_nil, or_false] at hline
  rcases hline with rfl | rfl <;>
    exact ⟨by decide +kernel, by decide +kernel, hnumber _ (by simp), hnumber _ (by simp),
      by decide +kernel, by decide +kernel⟩

theorem authenticateUser_iff_twoLines :
    ∃ result, authenticateUser [0] (fileOf twoLines []) (str "ann") (str "secret") =
        some result ∧
      (result.isSome ↔ ∃ line, Matches (twoLines ++ []) (str "ann") (str "secret") line) := by
  obtain ⟨result, hresult, hiff, -⟩ := authenticateUser_iff (by simp) twoLines_wellFormed []
    (show 0 ∉ str "ann" ∧ 0 ∉ str "secret" by decide +kernel)
  exact ⟨result, hresult, hiff⟩

end Xv6Users.Authentication
