import Xv6Users.Core.SortedInsert
import Xv6Users.Userland.Ulib

/-!
# User records and /etc/passwd

The record type, the parser and serialiser of one line, and the routines of
`user/userhandler.c` that load, search and rewrite the file.  A file is the
list of its bytes.  `after` is the memory that follows the read buffer
`char fileContent[size]`, which the tokeniser reaches when the file ends.
-/

namespace Xv6Users.UserRecords

open ScannedText SortedInsert Ulib List Option

/-- `struct user`, without the list pointer. -/
structure User where
  username : List Byte
  password : List Byte
  uid : ℤ
  gid : ℤ
  realname : List Byte
  homedir : List Byte
  deriving DecidableEq

variable {stop symbol : Byte} {content memory passwd text after : List Byte} {users : List User}
  {user : User}

def root : ℤ := 0

/-- Copy one field into `buf`, up to `stop` or the terminator. -/
def readField (stop : Byte) (memory : List Byte) :
    Option (List Byte × List Byte) := do
  let found ← scanUntil (fun c => c == stop || c == 0) memory
  let field ← strcpy stringSize found.1
  some (field, found.2)

/-- `count` fields in a row, each followed by one skipped byte.  A line with
too few fields is read on past its terminator. -/
def readFields (stop : Byte) :
    ℕ → List Byte → Option (List (List Byte) × List Byte)
  | 0, memory => some ([], memory)
  | count + 1, memory => do
    let found ← readField stop memory
    let rest ← readFields stop count (found.2.drop 1)
    some (found.1 :: rest.1, rest.2)

def getUserFromString (userString : List Byte) : Option User := do
  let fields ← readFields colon 6 userString
  match fields.1 with
  | [username, password, uid, gid, realname, homedir] =>
    some { username, password, uid := atoi uid, gid := atoi gid, realname,
           homedir }
  | _ => none

def getStringFromUser (currUser : User) : List Byte :=
  currUser.username ++ colon :: (currUser.password ++ colon ::
    (itoa currUser.uid [] 10 ++ colon :: (itoa currUser.gid [] 10 ++ colon ::
      (currUser.realname ++ colon :: (currUser.homedir ++ [newline])))))

def compareUsers (user1 user2 : User) : ℤ :=
  if user1.uid > user2.uid then 1 else if user1.uid < user2.uid then -1 else 0

/-- The list level of `addUserToListSorted`, for a list that owns its nodes. -/
def addUserToListSorted (userList : List User) (currUser : Option User) : List User :=
  match currUser with
  | none => userList
  | some currUser => insertSorted compareUsers userList currUser

section Database

variable (after : List Byte)

def selectAllUsersFromPasswdFile (passwd : List Byte) :
    Option (List User) := do
  let tokens ← tokensOf [newline] (passwd ++ after)
  let users ← tokens.mapM getUserFromString
  some (users.foldl (fun userList user => addUserToListSorted userList (some user)) [])

def isUidAvailable (passwd : List Byte) (uid : ℤ) : Option Bool := do
  let userList ← selectAllUsersFromPasswdFile after passwd
  some (userList.all fun user => user.uid ≠ uid)

def getNextAvailableUid (passwd : List Byte) : Option ℤ := do
  let userList ← selectAllUsersFromPasswdFile after passwd
  some (userList.foldl (fun uid user => if user.uid = uid then int32 (uid + 1) else uid) 1000)

def getUserFromUid (passwd : List Byte) (uid : ℤ) : Option (Option User) := do
  let userList ← selectAllUsersFromPasswdFile after passwd
  some (userList.find? fun user => uid = user.uid)

def getUserFromUsername (passwd username : List Byte) :
    Option (Option User) := do
  let userList ← selectAllUsersFromPasswdFile after passwd
  some (userList.find? fun user => user.username = username)

def authenticateOldPassword (currUser : User) (oldPassword : List Byte) : Bool :=
  currUser.password = oldPassword

/-- The new content of the file.  Each line is built in a buffer of
`STRING_SIZE*4` bytes. -/
def updatePasswdFile (userList : List User) : Option (List Byte) := do
  let lines ← userList.mapM fun user =>
    strcpy (stringSize * 4) (getStringFromUser user)
  some lines.flatten

def addNewUser (passwd : List Byte) (newUser : User) :
    Option (List Byte) := do
  let userList ← selectAllUsersFromPasswdFile after passwd
  updatePasswdFile (addUserToListSorted userList (some newUser))

/-- The replacement loop of `updateUserInfo`: the first record with the uid of
`currUser` takes over every field of `modUser`. -/
def replaceUser (currUser modUser : User) : List User → List User
  | [] => []
  | tmpUser :: rest =>
    if compareUsers tmpUser currUser = 0 then modUser :: rest
    else tmpUser :: replaceUser currUser modUser rest

def updateUserInfo (passwd : List Byte) (currUser modUser : User) :
    Option (List Byte) := do
  let userList ← selectAllUsersFromPasswdFile after passwd
  updatePasswdFile (replaceUser currUser modUser userList)

end Database

/-- Text that fits a string field and holds no separator. -/
structure FieldText (text : List Byte) : Prop where
  fits : text.length < stringSize
  bytes : ∀ c ∈ text, c ≠ colon ∧ c ≠ newline ∧ c ≠ 0

instance (text : List Byte) : Decidable (FieldText text) :=
  decidable_of_iff (text.length < stringSize ∧ ∀ c ∈ text, c ≠ colon ∧ c ≠ newline ∧ c ≠ 0)
    ⟨fun h => ⟨h.1, h.2⟩, fun h => ⟨h.fits, h.bytes⟩⟩

/-- An `int`. -/
def IsInt (value : ℤ) : Prop :=
  -2 ^ 31 ≤ value ∧ value < 2 ^ 31
  deriving Decidable

theorem fieldText_itoa {value : ℤ} (hint : IsInt value) : FieldText (itoa value [] 10) where
  fits := (length_itoa_le hint.1 hint.2).trans_lt (by decide)
  bytes := by
    intro c hc
    have hbytes := itoa_bytes value c hc
    refine ⟨?_, ?_, ?_⟩ <;> rintro rfl <;> simp [colon, newline] at hbytes

theorem readField_text (hfits : text.length < stringSize) (hbytes : ∀ c ∈ text, c ≠ stop ∧ c ≠ 0)
    (hsymbol : symbol = stop ∨ symbol = 0) (rest : List Byte) :
    readField stop (text ++ symbol :: rest) = some (text, symbol :: rest) := by
  have hscan := scanUntil_append (fun c hc => by
      simpa using hbytes c hc : ∀ c ∈ text, (c == stop || c == 0) = false)
    (by simpa using hsymbol : (symbol == stop || symbol == 0) = true) rest
  simp [readField, hscan, strcpy, hfits]

theorem FieldText.read (htext : FieldText text) (hsymbol : symbol = colon ∨ symbol = 0)
    (rest : List Byte) : readField colon (text ++ symbol :: rest) = some (text, symbol :: rest) :=
  readField_text htext.fits
    (fun c hc => ⟨(htext.bytes c hc).1, (htext.bytes c hc).2.2⟩) hsymbol rest

/-- Records whose fields can be told apart in a line. -/
structure User.Printable (user : User) : Prop where
  username : FieldText user.username
  password : FieldText user.password
  uid : IsInt user.uid
  gid : IsInt user.gid
  realname : FieldText user.realname
  homedir : FieldText user.homedir

/-- Printable records with non-negative numbers. -/
structure User.WellFormed (user : User) : Prop extends user.Printable where
  uid_nonneg : 0 ≤ user.uid
  gid_nonneg : 0 ≤ user.gid

instance (user : User) : Decidable user.Printable :=
  decidable_of_iff (FieldText user.username ∧ FieldText user.password ∧ IsInt user.uid ∧
      IsInt user.gid ∧ FieldText user.realname ∧ FieldText user.homedir)
    ⟨fun ⟨h1, h2, h3, h4, h5, h6⟩ => ⟨h1, h2, h3, h4, h5, h6⟩,
      fun ⟨h1, h2, h3, h4, h5, h6⟩ => ⟨h1, h2, h3, h4, h5, h6⟩⟩

instance (user : User) : Decidable user.WellFormed :=
  decidable_of_iff (user.Printable ∧ 0 ≤ user.uid ∧ 0 ≤ user.gid)
    ⟨fun ⟨h, huid, hgid⟩ => ⟨h, huid, hgid⟩,
      fun h => ⟨h.toPrintable, h.uid_nonneg, h.gid_nonneg⟩⟩

/-- A record after its numbers went through `itoa` and `atoi`. -/
def User.reread (user : User) : User :=
  { user with
    uid := atoi (itoa user.uid [] 10)
    gid := atoi (itoa user.gid [] 10) }

theorem User.WellFormed.reread_eq (huser : user.WellFormed) : user.reread = user := by
  rw [User.reread, atoi_itoa huser.uid_nonneg huser.uid.2, atoi_itoa huser.gid_nonneg huser.gid.2]

def userLine (user : User) : List Byte :=
  user.username ++ colon :: (user.password ++ colon ::
    (itoa user.uid [] 10 ++ colon :: (itoa user.gid [] 10 ++ colon ::
      (user.realname ++ colon :: user.homedir))))

theorem getStringFromUser_eq (user : User) :
    getStringFromUser user = userLine user ++ [newline] := by
  simp [getStringFromUser, userLine]

theorem readField_piece (hfits : text.length < stringSize) (hzero : 0 ∉ text)
    (hsymbol : symbol = stop ∨ symbol = 0) (rest : List Byte) :
    readField stop (text ++ symbol :: rest) =
      some (text.takeWhile (· != stop), text.dropWhile (· != stop) ++ symbol :: rest) := by
  have hlower : (text.takeWhile (· != stop)).length < stringSize :=
    (takeWhile_sublist _).length_le.trans_lt hfits
  have hbytes : ∀ c ∈ text.takeWhile (· != stop), c ≠ stop ∧ c ≠ 0 := by
    intro c hc
    refine ⟨by simpa using mem_takeWhile_imp hc, ?_⟩
    rintro rfl
    exact hzero ((takeWhile_sublist _).subset hc)
  have hsplit : text.takeWhile (· != stop) ++ text.dropWhile (· != stop) = text :=
    takeWhile_append_dropWhile
  cases hrest : text.dropWhile (· != stop) with
  | nil =>
    have hread := readField_text hlower hbytes hsymbol rest
    rw [hrest, append_nil] at hsplit
    rw [hsplit] at hread ⊢
    exact hread
  | cons c tail =>
    have hc : c = stop := by
      have hne : text.dropWhile (· != stop) ≠ [] := by simp [hrest]
      have hhead := head_dropWhile_not (· != stop) hne
      simpa [hrest] using hhead
    have hread := readField_text hlower hbytes (.inl hc)
      (tail ++ symbol :: rest)
    rw [hrest] at hsplit
    rw [← cons_append, ← append_assoc, hsplit] at hread
    exact hread

/-- Text that fits a string field and does not end a line.  It may hold
colons. -/
structure LineText (text : List Byte) : Prop where
  fits : text.length < stringSize
  bytes : ∀ c ∈ text, c ≠ newline ∧ c ≠ 0

theorem FieldText.lineText (htext : FieldText text) : LineText text where
  fits := htext.fits
  bytes c hc := (htext.bytes c hc).2

theorem LineText.fieldText (htext : LineText text) (hcolon : colon ∉ text) : FieldText text where
  fits := htext.fits
  bytes c hc := ⟨fun h => hcolon (h ▸ hc), htext.bytes c hc⟩

theorem LineText.sublist {piece : List Byte} (htext : LineText text)
    (hsublist : piece.Sublist text) : LineText piece where
  fits := hsublist.length_le.trans_lt htext.fits
  bytes c hc := htext.bytes c (hsublist.subset hc)

theorem LineText.readField (htext : LineText text) (hsymbol : symbol = colon ∨ symbol = 0)
    (rest : List Byte) :
    UserRecords.readField colon (text ++ symbol :: rest) =
      some (text.takeWhile (· != colon), text.dropWhile (· != colon) ++ symbol :: rest) :=
  readField_piece htext.fits (fun hmem => (htext.bytes 0 hmem).2 rfl) hsymbol
    rest

/-- Records that are still read as one record: only the first four fields have
to be free of colons. -/
structure User.Loose (user : User) : Prop where
  username : FieldText user.username
  password : FieldText user.password
  uid : IsInt user.uid
  gid : IsInt user.gid
  realname : LineText user.realname
  homedir : LineText user.homedir

theorem User.Printable.loose (huser : user.Printable) : user.Loose where
  username := huser.username
  password := huser.password
  uid := huser.uid
  gid := huser.gid
  realname := huser.realname.lineText
  homedir := huser.homedir.lineText

def User.lastFields (user : User) : List Byte × List Byte :=
  (user.realname.takeWhile (· != colon),
    match user.realname.dropWhile (· != colon) with
    | [] => user.homedir.takeWhile (· != colon)
    | _ :: rest => rest.takeWhile (· != colon))

/-- A record after its line was read back. -/
def User.reparse (user : User) : User :=
  { user.reread with
    realname := user.lastFields.1
    homedir := user.lastFields.2 }

theorem getUserFromString_loose (huser : user.Loose) (beyond : List Byte) :
    getUserFromString (userLine user ++ 0 :: beyond) = some user.reparse := by
  have huid := fieldText_itoa huser.uid
  have hgid := fieldText_itoa huser.gid
  have hreal := huser.realname.readField (.inl rfl)
    (user.homedir ++ 0 :: beyond)
  cases hrest : user.realname.dropWhile (· != colon) with
  | nil =>
    have hhome := huser.homedir.readField (.inr rfl) beyond
    simp [getUserFromString, userLine, readFields, huser.username.read,
      huser.password.read, huid.read, hgid.read, hreal, hhome, User.reparse,
      User.reread, User.lastFields, hrest]
  | cons c tail =>
    have htail : LineText tail := huser.realname.sublist
      ((sublist_cons_self c tail).trans (hrest ▸ dropWhile_sublist _))
    have hhome := htail.readField (.inl rfl) (user.homedir ++ 0 :: beyond)
    simp [getUserFromString, userLine, readFields, huser.username.read,
      huser.password.read, huid.read, hgid.read, hreal, hhome, User.reparse,
      User.reread, User.lastFields, hrest]

theorem User.WellFormed.reparse_eq (huser : user.WellFormed) : user.reparse = user := by
  have hall : ∀ {text : List Byte}, FieldText text →
      text.takeWhile (· != colon) = text ∧ text.dropWhile (· != colon) = [] := by
    intro text htext
    have hne : ∀ c ∈ text, (c != colon) = true := fun c hc => by
      simpa using (htext.bytes c hc).1
    exact ⟨takeWhile_eq_self_iff.2 hne, dropWhile_eq_nil_iff.2 hne⟩
  rw [User.reparse, User.lastFields, (hall huser.realname).1,
    (hall huser.realname).2, (hall huser.homedir).1, huser.reread_eq]

/-- A record that was read back is well formed, provided its numbers are not
negative. -/
theorem User.Loose.reparse_wellFormed (huser : user.Loose) (huid : 0 ≤ user.uid)
    (hgid : 0 ≤ user.gid) : user.reparse.WellFormed := by
  have hpiece : ∀ {text : List Byte}, LineText text →
      FieldText (text.takeWhile (· != colon)) := fun htext =>
    (htext.sublist (takeWhile_sublist _)).fieldText fun hmem => by
      simpa using mem_takeWhile_imp hmem
  have huid' : user.reparse.uid = user.uid := atoi_itoa huid huser.uid.2 []
  have hgid' : user.reparse.gid = user.gid := atoi_itoa hgid huser.gid.2 []
  refine ⟨⟨huser.username, huser.password, huid' ▸ huser.uid,
    hgid' ▸ huser.gid, hpiece huser.realname, ?_⟩, huid' ▸ huid, hgid' ▸ hgid⟩
  change FieldText user.lastFields.2
  rw [User.lastFields]
  split
  · exact hpiece huser.homedir
  · rename_i c rest hrest
    exact hpiece (huser.realname.sublist ((sublist_cons_self c rest).trans
      (hrest ▸ dropWhile_sublist _)))

theorem map_reparse (husers : ∀ user ∈ users, user.WellFormed) : users.map User.reparse = users :=
  (map_congr_left fun user hu => (husers user hu).reparse_eq).trans
    users.map_id'

theorem userLine_plain (huser : user.Loose) : Plain [newline] (userLine user) := by
  have huid := (fieldText_itoa huser.uid).bytes
  have hgid := (fieldText_itoa huser.gid).bytes
  intro c hc
  simp only [userLine, mem_append, mem_cons] at hc
  rcases hc with hc | rfl | hc | rfl | hc | rfl | hc | rfl | hc | rfl | hc
  · simpa using (huser.username.bytes c hc).2
  · decide
  · simpa using (huser.password.bytes c hc).2
  · decide
  · simpa using (huid c hc).2
  · decide
  · simpa using (hgid c hc).2
  · decide
  · simpa using huser.realname.bytes c hc
  · decide
  · simpa using huser.homedir.bytes c hc

theorem userLine_ne_nil (user : User) : userLine user ≠ [] := by
  simp [userLine]

/-- Loading a file made of lines reads every record once and sorts the records
by uid.  The newline of the last line may be missing. -/
theorem selectAllUsers_lines {last : List User} (hlast : last.length ≤ 1)
    (husers : ∀ user ∈ users ++ last, user.Loose) (beyond : List Byte) :
    selectAllUsersFromPasswdFile (0 :: beyond)
        (users.flatMap getStringFromUser ++ last.flatMap userLine) =
      some (insertAll compareUsers ((users ++ last).map User.reparse)) := by
  have hlines : ∀ user ∈ users ++ last, userLine user ≠ [] ∧ Plain [newline] (userLine user) :=
    fun user huser => ⟨userLine_ne_nil user, userLine_plain (husers user huser)⟩
  obtain ⟨tokens, htokens, hparsed⟩ :=
    parse_lines (show newline ≠ 0 by decide) hlast hlines
      (fun user huser => getUserFromString_loose (husers user huser)) beyond
  have hcontent : users.flatMap getStringFromUser =
      users.flatMap (fun user => userLine user ++ [newline]) :=
    congrArg users.flatMap (funext getStringFromUser_eq)
  rw [selectAllUsersFromPasswdFile, hcontent, append_assoc, htokens]
  simp only [bind_eq_bind, bind_some, hparsed]
  rfl

theorem compareUsers_pos (left right : User) :
    0 < compareUsers left right ↔ right.uid < left.uid := by
  unfold compareUsers
  split_ifs <;> simp <;> omega

theorem compareUsers_eq_zero (left right : User) :
    compareUsers left right = 0 ↔ left.uid = right.uid := by
  unfold compareUsers
  split_ifs <;> simp <;> omega

theorem selectAllUsers_eq_some (hload : selectAllUsersFromPasswdFile after passwd = some users) :
    ∃ tokens parsed, tokensOf [newline] (passwd ++ after) = some tokens ∧
      tokens.mapM getUserFromString = some parsed ∧
      users = insertAll compareUsers parsed := by
  simp only [selectAllUsersFromPasswdFile, bind_eq_bind, bind_eq_some_iff] at hload
  obtain ⟨tokens, htokens, parsed, hparsed, husers⟩ := hload
  exact ⟨tokens, parsed, htokens, hparsed, (some.inj husers).symm⟩

/-- Every loaded list is in uid order. -/
theorem selectAllUsers_sorted
    (hload : selectAllUsersFromPasswdFile after passwd = some users) : SortedBy User.uid users := by
  obtain ⟨_, parsed, _, _, rfl⟩ := selectAllUsers_eq_some hload
  exact insertAll_sorted compareUsers_pos parsed

theorem readField_stop_free {found : List Byte × List Byte}
    (hread : readField stop memory = some found) : stop ∉ found.1 := by
  simp only [readField, bind_eq_bind, bind_eq_some_iff, strcpy_eq_some] at hread
  obtain ⟨⟨field, rest⟩, hscan, _, ⟨-, rfl⟩, hfound⟩ := hread
  cases hfound
  intro hmem
  simpa using (scanUntil_eq_some hscan).2.1 stop hmem

/-- A parsed field never holds the separator it was cut at. -/
theorem readFields_colon_free {count : ℕ} {fields : List (List Byte) × List Byte}
    (hread : readFields colon count memory = some fields) : ∀ field ∈ fields.1, colon ∉ field := by
  induction count generalizing memory fields with
  | zero =>
    cases hread
    simp
  | succ count ih =>
    simp only [readFields, bind_eq_bind, bind_eq_some_iff] at hread
    obtain ⟨found, hfound, rest, hrest, hfields⟩ := hread
    cases hfields
    intro field hfield
    rcases mem_cons.1 hfield with rfl | hfield
    · exact readField_stop_free hfound
    · exact ih hrest field hfield

theorem getUserFromString_colon_free (hparse : getUserFromString memory = some user) :
    colon ∉ user.username ∧ colon ∉ user.password := by
  simp only [getUserFromString, bind_eq_bind, bind_eq_some_iff] at hparse
  obtain ⟨fields, hfields, hrecord⟩ := hparse
  have hfree := readFields_colon_free hfields
  split at hrecord
  · rename_i hlist
    cases hrecord
    exact ⟨hfree _ (by simp [hlist]), hfree _ (by simp [hlist])⟩
  · exact absurd hrecord (by simp)

theorem selectAllUsers_colon_free (hload : selectAllUsersFromPasswdFile after passwd = some users) :
    ∀ user ∈ users, colon ∉ user.username ∧ colon ∉ user.password := by
  obtain ⟨tokens, parsed, _, hparsed, rfl⟩ := selectAllUsers_eq_some hload
  intro user huser
  have hmem := (perm_insertAll parsed).mem_iff.1 huser
  obtain ⟨token, _, htoken⟩ := exists_of_mem_mapM hparsed hmem
  exact getUserFromString_colon_free htoken

def LineFits (user : User) : Prop :=
  (getStringFromUser user).length < stringSize * 4
  deriving Decidable

theorem updatePasswdFile_eq_some :
    updatePasswdFile users = some content ↔ (∀ user ∈ users, LineFits user) ∧
        content = users.flatMap getStringFromUser := flatten_mapM_strcpy

theorem reload_updatePasswdFile (husers : ∀ user ∈ users, user.Loose)
    (hwrite : updatePasswdFile users = some content) (beyond : List Byte) :
    selectAllUsersFromPasswdFile (0 :: beyond) content =
      some (insertAll compareUsers (users.map User.reparse)) := by
  rw [(updatePasswdFile_eq_some.1 hwrite).2]
  simpa using selectAllUsers_lines (show ([] : List User).length ≤ 1 by simp)
    (by simpa using husers) beyond

/-- Writing a well-formed list in uid order and loading it again gives the same
list. -/
theorem reload_of_wellFormed (husers : ∀ user ∈ users, user.WellFormed)
    (hsorted : SortedBy User.uid users) (hwrite : updatePasswdFile users = some content)
    (beyond : List Byte) : selectAllUsersFromPasswdFile (0 :: beyond) content = some users := by
  rw [reload_updatePasswdFile (fun user hu => (husers user hu).loose)
    hwrite, map_reparse husers, insertAll_of_sorted compareUsers_pos hsorted]

/-- The record to replace is found by its uid. -/
theorem replaceUser_congr {left right : User} (huid : left.uid = right.uid)
    (modUser : User) (users : List User) :
    replaceUser left modUser users = replaceUser right modUser users := by
  induction users with
  | nil => rfl
  | cons head rest ih =>
    have hcompare : compareUsers head left = compareUsers head right := by
      rw [compareUsers, compareUsers, huid]
    rw [replaceUser, replaceUser, hcompare, ih]

variable {currUser : User}

/-- With distinct uids `updateUserInfo` replaces exactly one record. -/
theorem replaceUser_eq_map (hnodup : (users.map User.uid).Nodup) (modUser : User) :
    replaceUser currUser modUser users = users.map fun user =>
        if user.uid = currUser.uid then modUser else user := by
  induction users with
  | nil => rfl
  | cons head rest ih =>
    obtain ⟨hhead, hrest⟩ := nodup_cons.1 hnodup
    rw [replaceUser]
    by_cases heq : head.uid = currUser.uid
    · rw [if_pos ((compareUsers_eq_zero _ _).2 heq), map_cons, if_pos heq]
      congr 1
      refine (map_id' rest).symm.trans (map_congr_left ?_)
      intro other hother
      refine (if_neg fun hsame => hhead ?_).symm
      rw [heq, ← hsame]
      exact mem_map_of_mem hother
    · rw [if_neg (fun h => heq ((compareUsers_eq_zero _ _).1 h)), ih hrest,
        map_cons, if_neg heq]

/-- The replaced record and all others. -/
theorem replaceUser_perm (hnodup : (users.map User.uid).Nodup)
    (hcurr : currUser ∈ users) (modUser : User) :
    (replaceUser currUser modUser users).Perm
      (modUser :: users.filter fun user => user.uid ≠ currUser.uid) := by
  induction users with
  | nil => simp at hcurr
  | cons head rest ih =>
    obtain ⟨hhead, hrest⟩ := nodup_cons.1 hnodup
    by_cases hsame : head.uid = currUser.uid
    · have hothers : rest.filter (fun user => user.uid ≠ currUser.uid) =
          rest := by
        rw [filter_eq_self]
        intro other hother
        have hne : other.uid ≠ currUser.uid := fun h =>
          hhead (hsame.trans h.symm ▸ mem_map_of_mem hother)
        simpa using hne
      rw [replaceUser, if_pos ((compareUsers_eq_zero _ _).2 hsame),
        filter_cons_of_neg (by simpa using hsame), hothers]
    · have hmem : currUser ∈ rest := by
        rcases mem_cons.1 hcurr with rfl | hmem
        · exact absurd rfl hsame
        · exact hmem
      rw [replaceUser, if_neg (fun h => hsame ((compareUsers_eq_zero _ _).1 h)),
        filter_cons_of_pos (by simpa using hsame)]
      exact ((ih hrest hmem).cons head).trans (List.Perm.swap _ _ _)

end Xv6Users.UserRecords
