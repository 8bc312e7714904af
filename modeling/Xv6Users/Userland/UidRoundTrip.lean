import Xv6Users.Userland.Accounts

/-!
# The uid of a new or modified record

`createUser` and `modifyUser` check the number `atoi` makes of the argument.
The record then goes through `itoa` and `atoi` again.  A negative number does
not survive: it is written with a minus sign, at which `atoi` stops and returns
the uid of root.
-/

namespace Xv6Users.UidRoundTrip

open SortedInsert Ulib UserRecords GroupRecords MemberLists PasswordChange Accounts List Option

variable {kernel : Kernel}
  {group homedir realname uidString username after passwd groups path name a : List Byte}
  {currUser newUser modUser : User} {uid : ℤ} {users : List User} {files : Files}

theorem isInt_int32 (value : ℤ) : IsInt (int32 value) := by
  have hlow := Int.le_bmod (x := value) (m := 2 ^ 32) (by norm_num)
  have hhigh := Int.bmod_lt (x := value) (m := 2 ^ 32) (by norm_num)
  constructor <;> rw [int32] <;> omega

theorem isInt_atoi (text : List Byte) : IsInt (atoi text) := by
  rw [atoi_eq]
  exact isInt_int32 _

/-- `atoi` is not negative exactly when the digits denote a number below 2^31
modulo 2^32. -/
theorem atoi_nonneg_iff (text : List Byte) :
    0 ≤ atoi text ↔ decimalPrefix text % 2 ^ 32 < 2 ^ 31 := by
  rw [atoi_eq, int32, Int.bmod_def]
  split_ifs <;> omega

def Word (text : List Byte) : Prop :=
  ∀ c ∈ text, c ≠ newline ∧ c ≠ 0
  deriving Decidable

theorem Word.lineText {text : List Byte} (hword : Word text)
    (hfits : text.length < stringSize) : LineText text := ⟨hfits, hword⟩

theorem homePath_eq_some (hpath : homePath name = some path) :
    path = str "/home/" ++ name ∧ path.length < stringSize := by
  simp only [homePath, strcat, bind_eq_bind, bind_eq_some_iff, strcpy_eq_some] at hpath
  obtain ⟨_, ⟨-, rfl⟩, hfits, rfl⟩ := hpath
  exact ⟨rfl, hfits⟩

theorem word_homePath (hname : Word name) (hpath : homePath name = some path) : LineText path := by
  obtain ⟨rfl, hfits⟩ := homePath_eq_some hpath
  refine ⟨hfits, fun c hc => ?_⟩
  rcases mem_append.1 hc with hc | hc
  · have hhome : Word (str "/home/") := by decide +kernel
    exact hhome c hc
  · exact hname c hc

theorem requestedUid_eq_some (hload : selectAllUsersFromPasswdFile after passwd = some users)
    (huid : requestedUid after passwd uidString = some (some uid)) :
    uid = atoi uidString ∧ uid ≠ root ∧ ∀ user ∈ users, user.uid ≠ uid := by
  by_cases hzero : atoi uidString = 0
  · simp [requestedUid, hzero] at huid
  · simp only [requestedUid, hzero, if_false, isUidAvailable, hload,
      bind_eq_bind, bind_some, some_inj,
      ite_none_right_eq_some] at huid
    obtain ⟨havailable, rfl⟩ := huid
    refine ⟨rfl, hzero, fun user huser => ?_⟩
    simpa using all_eq_true.1 havailable user huser

/-- What a successful `createUser` returns. -/
theorem createUser_eq_some (hcreate : createUser after files kernel homedir uidString realname
      username = some (some newUser)) :
    chooseUid after files.passwd uidString = some (some newUser.uid) ∧
      getNextAvailableGid after files.passwd files.group = some newUser.gid ∧
      newUser.username = username ∧ username.length < stringSize ∧
      newUser.password = [] ∧
      newUser.realname = realname ∧ realname.length < stringSize ∧
      homePath (if isEmptyString homedir then username else homedir) =
        some newUser.homedir := by
  simp only [createUser, bind_eq_bind, bind_eq_some_iff]
    at hcreate
  obtain ⟨chosen, hchosen, hcreate⟩ := hcreate
  cases chosen with
  | none => simp at hcreate
  | some uid =>
    simp only [bind_eq_some_iff] at hcreate
    obtain ⟨gid, hgid, path, hpath, hcreate⟩ := hcreate
    split_ifs at hcreate
    · simp only [bind_eq_some_iff, strcpy_eq_some] at hcreate
      obtain ⟨_, ⟨hrealname, rfl⟩, _, ⟨husername, rfl⟩, hnew⟩ := hcreate
      cases hnew
      exact ⟨hchosen, hgid, rfl, husername, rfl, rfl, hrealname, hpath⟩
    · simp at hcreate

section Modify

variable {after passwd : List Byte} {modUser result : User}

theorem renameUser_eq_some
    (hrename : renameUser after passwd modUser username = some (some result)) :
    ∃ name, result = { modUser with username := name } ∧
      (if isEmptyString username then name = modUser.username
        else name = username ∧ username.length < stringSize ∧
          getUserFromUsername after passwd username = some none) := by
  rw [renameUser] at hrename
  split_ifs at hrename ⊢ with hempty
  · cases hrename
    exact ⟨_, rfl, rfl⟩
  · simp only [bind_eq_bind, bind_eq_some_iff] at hrename
    obtain ⟨found, hfound, hrename⟩ := hrename
    cases found with
    | some other => simp at hrename
    | none =>
      simp only [bind_eq_some_iff, strcpy_eq_some] at hrename
      obtain ⟨_, ⟨hfits, rfl⟩, hresult⟩ := hrename
      cases hresult
      exact ⟨_, rfl, rfl, hfits, hfound⟩

theorem changeUid_eq_some
    (hchange : changeUid after passwd modUser uidString = some (some result)) :
    ∃ uid, result = { modUser with uid } ∧ (if isEmptyString uidString then uid = modUser.uid
        else requestedUid after passwd uidString = some (some uid)) := by
  rw [changeUid] at hchange
  split_ifs at hchange ⊢ with hempty
  · cases hchange
    exact ⟨_, rfl, rfl⟩
  · simp only [bind_eq_bind, bind_eq_some_iff, some_inj, map_eq_some_iff] at hchange
    obtain ⟨_, hrequest, uid, rfl, rfl⟩ := hchange
    exact ⟨uid, rfl, hrequest⟩

theorem changeRealname_eq_some (hchange : changeRealname modUser realname = some result) :
    ∃ name, result = { modUser with realname := name } ∧
      (name = modUser.realname ∨ name = realname ∧ realname.length < stringSize) := by
  rw [changeRealname] at hchange
  split_ifs at hchange with hempty
  · cases hchange
    exact ⟨_, rfl, .inl rfl⟩
  · simp only [map_eq_some_iff, strcpy_eq_some] at hchange
    obtain ⟨_, ⟨hfits, rfl⟩, rfl⟩ := hchange
    exact ⟨_, rfl, .inr ⟨rfl, hfits⟩⟩

theorem changeHome_eq_some (hchange : changeHome kernel modUser homedir = some (some result)) :
    ∃ path, result = { modUser with homedir := path } ∧
      (path = modUser.homedir ∨ homePath homedir = some path) := by
  rw [changeHome] at hchange
  split_ifs at hchange with hempty
  · cases hchange
    exact ⟨_, rfl, .inl rfl⟩
  · simp only [bind_eq_bind, bind_eq_some_iff, some_inj, ite_none_right_eq_some] at hchange
    obtain ⟨path, hpath, -, rfl⟩ := hchange
    exact ⟨path, rfl, .inr hpath⟩

end Modify

/-- What a successful `modifyUser` returns: each field is the old one or the
one of its option. -/
theorem modifyUser_eq_some (hmodify : modifyUser after files kernel currUser username uidString
      realname homedir groups a = some (group, some modUser)) :
    changeGroups after files currUser groups a = some group ∧
      (if isEmptyString username then modUser.username = currUser.username
        else modUser.username = username ∧ username.length < stringSize ∧
          getUserFromUsername after files.passwd username = some none) ∧
      modUser.password = currUser.password ∧
      (if isEmptyString uidString then modUser.uid = currUser.uid
        else requestedUid after files.passwd uidString = some (some modUser.uid)) ∧
      modUser.gid = currUser.gid ∧
      (modUser.realname = currUser.realname ∨ modUser.realname = realname ∧
        realname.length < stringSize) ∧
      (modUser.homedir = currUser.homedir ∨ homePath homedir = some modUser.homedir) := by
  simp only [modifyUser, bind_eq_bind, bind_eq_some_iff] at hmodify
  obtain ⟨renamed, hrename, hmodify⟩ := hmodify
  cases renamed with
  | none => simp at hmodify
  | some renamed =>
    simp only [bind_eq_some_iff] at hmodify
    obtain ⟨changed, huid, hmodify⟩ := hmodify
    cases changed with
    | none => simp at hmodify
    | some changed =>
      simp only [bind_eq_some_iff] at hmodify
      obtain ⟨titled, htitle, groups', hgroups, housed, hhome, hresult⟩ := hmodify
      cases hresult
      obtain ⟨name, rfl, hname⟩ := renameUser_eq_some hrename
      obtain ⟨uid, rfl, hchosen⟩ := changeUid_eq_some huid
      obtain ⟨title, rfl, htext⟩ := changeRealname_eq_some htitle
      obtain ⟨path, rfl, hpath⟩ := changeHome_eq_some hhome
      exact ⟨hgroups, hname, rfl, hchosen, rfl, htext, hpath⟩

/-- Records that a new one is written with: separators are only possible in
its name and in the last two fields. -/
structure NewRecord (user : User) : Prop where
  username : LineText user.username
  password : FieldText user.password
  uid : IsInt user.uid
  gid : IsInt user.gid
  realname : LineText user.realname
  homedir : LineText user.homedir

theorem NewRecord.loose {user : User} (hnew : NewRecord user)
    (hcolon : colon ∉ user.username) : user.Loose where
  username := hnew.username.fieldText hcolon
  password := hnew.password
  uid := hnew.uid
  gid := hnew.gid
  realname := hnew.realname
  homedir := hnew.homedir

/-- The loaded records are the others and one more, which has the given name
and uid; that uid is neither root's nor taken. -/
def UidKept (others reloaded : List User) (username : List Byte) (uid : ℤ) : Prop :=
  ∃ record, reloaded.Perm (record :: others) ∧ record.username = username ∧
    record.uid = uid ∧ uid ≠ root ∧ ∀ other ∈ others, other.uid ≠ uid

section Written

variable {others written : List User} {newUser : User} {content : List Byte}

theorem reload_new (hothers : ∀ other ∈ others, other.WellFormed)
    (hperm : written.Perm (newUser :: others)) (hnew : newUser.Loose)
    (hwrite : updatePasswdFile written = some content) :
    ∃ reloaded, (∀ beyond, selectAllUsersFromPasswdFile (0 :: beyond) content = some reloaded) ∧
        reloaded.Perm (newUser.reparse :: others) := by
  have hloose : ∀ user ∈ written, user.Loose := by
    intro user huser
    rcases mem_cons.1 (hperm.mem_iff.1 huser) with rfl | hother
    · exact hnew
    · exact (hothers user hother).loose
  refine ⟨_, reload_updatePasswdFile hloose hwrite, ?_⟩
  refine (perm_insertAll _).trans ?_
  have hmap := hperm.map User.reparse
  rwa [map_cons, map_reparse hothers] at hmap

/-- The uid of the new record survives exactly when the name holds no colon and
the uid is not negative. -/
theorem uidKept_written_iff (hothers : ∀ other ∈ others, other.WellFormed)
    (hperm : written.Perm (newUser :: others)) (hnew : NewRecord newUser)
    (hwrite : updatePasswdFile written = some content) (hroot : newUser.uid ≠ root)
    (hfresh : ∀ other ∈ others, other.uid ≠ newUser.uid) (beyond : List Byte) :
    (∃ reloaded, selectAllUsersFromPasswdFile (0 :: beyond) content = some reloaded ∧
          UidKept others reloaded newUser.username newUser.uid) ↔
      colon ∉ newUser.username ∧ 0 ≤ newUser.uid := by
  constructor
  · rintro ⟨reloaded, hload, record, hrecord, hname, huid, -⟩
    have hcolon : colon ∉ newUser.username := by
      have hmem : record ∈ reloaded := hrecord.mem_iff.2 (by simp)
      rw [← hname]
      exact (selectAllUsers_colon_free hload record hmem).1
    obtain ⟨again, hagain, hreparse⟩ := reload_new hothers hperm (hnew.loose hcolon) hwrite
    cases (hagain beyond).symm.trans hload
    -- Both descriptions of the loaded list name the same extra record.
    have hsame : record = newUser.reparse := by
      have hboth : ([record] ++ others).Perm ([newUser.reparse] ++ others) :=
        hrecord.symm.trans hreparse
      exact singleton_perm_singleton.1 ((perm_append_right_iff others).1 hboth)
    refine ⟨hcolon, ?_⟩
    by_contra hneg
    have hzero : newUser.reparse.uid = 0 := atoi_itoa_of_neg (not_le.1 hneg) []
    rw [hsame, hzero] at huid
    exact hroot huid.symm
  · rintro ⟨hcolon, hnonneg⟩
    obtain ⟨reloaded, hload, hreparse⟩ := reload_new hothers hperm (hnew.loose hcolon) hwrite
    refine ⟨reloaded, hload beyond, newUser.reparse, hreparse, rfl, ?_, hroot, hfresh⟩
    exact atoi_itoa hnonneg hnew.uid.2 []

end Written

theorem isInt_next {α : Type} {key : α → ℤ} (list : List α) {start : ℤ} (hstart : IsInt start) :
    IsInt (list.foldl
      (fun value item => if key item = value then int32 (value + 1) else value) start) := by
  induction list generalizing start with
  | nil => exact hstart
  | cons item rest ih =>
    rw [foldl_cons]
    apply ih
    split_ifs
    · exact isInt_int32 _
    · exact hstart

theorem isInt_getNextAvailableGid {gid : ℤ}
    (hgid : getNextAvailableGid after passwd group = some gid) : IsInt gid := by
  simp only [getNextAvailableGid, bind_eq_bind, bind_eq_some_iff, some_inj] at hgid
  obtain ⟨groupList, -, rfl⟩ := hgid
  exact isInt_next groupList (by decide)

theorem requestedUid_isInt (hload : selectAllUsersFromPasswdFile after passwd = some users)
    (huid : requestedUid after passwd uidString = some (some uid)) : IsInt uid := by
  rw [(requestedUid_eq_some hload huid).1]
  exact isInt_atoi uidString

/-- A run that asked for a uid, succeeded and wrote the file: the records
besides the new or modified one, the name of that one, the string that was
given and the new content. -/
inductive UidChange (after : List Byte) (files : Files) (users : List User) :
    List User → List Byte → List Byte → List Byte → Prop where
  | create {kernel : Kernel}
      {homedir uidString realname username content : List Byte}
      {newUser : User}
      (hwords : Word homedir ∧ Word realname ∧ Word username)
      (hgiven : isEmptyString uidString = false)
      (hcreate : createUser after files kernel homedir uidString realname
        username = some (some newUser))
      (hwrite : addNewUser after files.passwd newUser = some content) :
      UidChange after files users users username uidString content
  | modify {kernel : Kernel} {currUser modUser : User}
      {username uidString realname homedir groups a group content : List Byte}
      (hwords : Word homedir ∧ Word realname ∧ Word username)
      (hcurr : currUser ∈ users)
      (hgiven : isEmptyString uidString = false)
      (hmodify : modifyUser after files kernel currUser username uidString
        realname homedir groups a = some (group, some modUser))
      (hwrite : updateUserInfo after files.passwd currUser modUser = some content) :
      UidChange after files users (users.filter fun user => user.uid ≠ currUser.uid)
        (if isEmptyString username then currUser.username else username)
        uidString content

section Change

variable {beyond : List Byte} {files : Files} {users : List User}

theorem createUser_newRecord
    (hload : selectAllUsersFromPasswdFile (0 :: beyond) files.passwd = some users)
    (hwords : Word homedir ∧ Word realname ∧ Word username)
    (hcreate : createUser (0 :: beyond) files kernel homedir uidString realname
      username = some (some newUser)) : NewRecord newUser := by
  obtain ⟨hchosen, hgid, hname, hfits, hpassword, htitle, hreal, hhome⟩ :=
    createUser_eq_some hcreate
  refine ⟨hname ▸ ⟨hfits, hwords.2.2⟩, ?_, ?_, isInt_getNextAvailableGid hgid,
    htitle ▸ ⟨hreal, hwords.2.1⟩, word_homePath ?_ hhome⟩
  · rw [hpassword]
    exact ⟨by decide, by simp⟩
  · rw [chooseUid] at hchosen
    split_ifs at hchosen
    · simp only [getNextAvailableUid, hload, bind_eq_bind, bind_some, map_some, some_inj] at hchosen
      rw [← hchosen]
      exact isInt_next users (by decide)
    · exact requestedUid_isInt hload hchosen
  · split_ifs
    · exact hwords.2.2
    · exact hwords.1

theorem modifyUser_newRecord
    (hload : selectAllUsersFromPasswdFile (0 :: beyond) files.passwd = some users)
    (hcurr : currUser.WellFormed) (hwords : Word homedir ∧ Word realname ∧ Word username)
    (hmodify : modifyUser (0 :: beyond) files kernel currUser username uidString
      realname homedir groups a = some (group, some modUser)) : NewRecord modUser := by
  obtain ⟨-, hname, hpassword, huid, hgid, htitle, hhome⟩ := modifyUser_eq_some hmodify
  refine ⟨?_, hpassword ▸ hcurr.password, ?_, hgid ▸ hcurr.gid, ?_, ?_⟩
  · split_ifs at hname
    · exact hname ▸ hcurr.username.lineText
    · exact hname.1 ▸ ⟨hname.2.1, hwords.2.2⟩
  · split_ifs at huid
    · exact huid ▸ hcurr.uid
    · exact requestedUid_isInt hload huid
  · rcases htitle with htitle | ⟨htitle, hfits⟩
    · exact htitle ▸ hcurr.realname.lineText
    · exact htitle ▸ ⟨hfits, hwords.2.1⟩
  · rcases hhome with hhome | hhome
    · exact hhome ▸ hcurr.homedir.lineText
    · exact word_homePath hwords.1 hhome

end Change

def rootUser : User where
  username := str "root"
  password := []
  uid := root
  gid := 0
  realname := []
  homedir := []

def rootFiles : Files where
  passwd := getStringFromUser rootUser
  group := str "root:0:\n"

def willing : Kernel where
  mkdir _ := true
  chown _ := true

/-- The record that `useradd -u` makes of `ken`. -/
def newKen (uid : ℤ) : User where
  username := str "ken"
  password := []
  uid := uid
  gid := 1000
  realname := []
  homedir := str "/home/ken"

theorem uidChange_newKen {content : List Byte} (hgiven : isEmptyString uidString = false)
    (hcreate : createUser [0] rootFiles willing [] uidString [] (str "ken") =
      some (some (newKen uid)))
    (hwrite : addNewUser [0] rootFiles.passwd (newKen uid) = some content) :
    UidChange [0] rootFiles [rootUser] [rootUser] (str "ken") uidString
      content :=
  .create ⟨by simp [Word], by simp [Word], by decide +kernel⟩ hgiven hcreate
    hwrite

end Xv6Users.UidRoundTrip
