import Xv6Users.Userland.UserRecords

/-!
# The passwd program

`user/passwd.c`: the caller's record is looked up by uid, the old password is
checked unless the caller is root, the new one is typed twice and spliced into
the caller's line.  The typed text is not checked for separators, and its line
is built in a fixed buffer; these are the two ways the rest of the record can
be lost.
-/

namespace Xv6Users.PasswordChange

open SortedInsert Ulib UserRecords List Option

variable {stdin : List (Option Byte)} {newPassword passwd after content : List Byte}
  {users : List User} {caller : User} {procUid : ℤ} {user : Option User}

/-- How a run of `passwd` ends. -/
inductive Outcome where
  | permissionDenied
  | unknownUser (username : List Byte)
  | wrongPassword
  | tooShort
  | mismatch
  | changed (passwd : List Byte)
  deriving DecidableEq

/-- What is printed before `exit`. -/
def Outcome.message : Outcome → List Byte
  | permissionDenied => str "Permision denied!\n"
  | unknownUser username => str "User '" ++ username ++ str "' does not exits!\n"
  | wrongPassword => str "Wrong password!\n"
  | tooShort => str "Password needs to be longer than 6 characters!\n"
  | mismatch => str "Passwords do not match!\n"
  | changed _ => []

/-- One prompt: `gets` into a `STRING_SIZE` buffer and removal of the last
byte. -/
def promptLine (stdin : List (Option Byte)) :
    Option (List Byte × List (Option Byte)) := do
  let input := gets stdin stringSize
  let line ← removeNewline input.1
  some (line, input.2)

def checkOldPassword (procUid : ℤ) (user : Option User) (stdin : List (Option Byte)) :
    Option (Except Outcome (List (Option Byte))) :=
  if procUid = root then some (.ok stdin)
  else do
    let oldPassword ← promptLine stdin
    let user ← user
    if authenticateOldPassword user oldPassword.1 then some (.ok oldPassword.2)
    else some (.error .wrongPassword)

def readNewPassword (stdin : List (Option Byte)) :
    Option (Except Outcome (List Byte)) := do
  let newPassword ← promptLine stdin
  if newPassword.1.length ≤ 6 then some (.error .tooShort)
  else do
    let retypePassword ← promptLine newPassword.2
    if newPassword.1 = retypePassword.1 then some (.ok newPassword.1)
    else some (.error .mismatch)

def dialogue (procUid : ℤ) (user : Option User)
    (stdin : List (Option Byte)) : Option (Except Outcome (List Byte)) := do
  match ← checkOldPassword procUid user stdin with
  | .error outcome => some (.error outcome)
  | .ok stdin => readNewPassword stdin

section Main

variable (after : List Byte)

/-- The record to change: the caller's own, or for root the one named by the
argument. -/
def selectTarget (passwd : List Byte) (procUid : ℤ) (argv : List (List Byte)) :
    Option (Except Outcome (Option User)) := do
  let user ← getUserFromUid after passwd procUid
  match argv with
  | [] => some (.ok user)
  | username :: _ =>
    if procUid ≠ root then some (.error .permissionDenied)
    else
      match ← getUserFromUsername after passwd username with
      | none => some (.error (.unknownUser username))
      | some user => some (.ok (some user))

def main (passwd : List Byte) (procUid : ℤ) (argv : List (List Byte))
    (stdin : List (Option Byte)) : Option Outcome := do
  match ← selectTarget after passwd procUid argv with
  | .error outcome => some outcome
  | .ok user =>
    match ← dialogue procUid user stdin with
    | .error outcome => some outcome
    | .ok newPassword =>
      let user ← user
      let user := { user with password := newPassword }
      let passwd' ← updateUserInfo after passwd user user
      some (.changed passwd')

end Main

theorem getsLoop_dropLast (room : ℕ) (stdin : List (Option Byte)) :
    (∀ c, c = newline ∨ c = carriageReturn → c ∉ (getsLoop room stdin).1.dropLast) ∧
      (getsLoop room stdin).1.length ≤ room := by
  induction room generalizing stdin with
  | zero => simp [getsLoop]
  | succ room ih =>
    match stdin with
    | [] => simp [getsLoop]
    | none :: stdin => simp [getsLoop]
    | some c :: stdin =>
      rw [getsLoop]
      split
      case isTrue => simp
      case isFalse hc =>
        have hrest := ih stdin
        refine ⟨?_, by simpa using hrest.2⟩
        intro d hd hmem
        cases hline : (getsLoop room stdin).1 with
        | nil => simp [hline] at hmem
        | cons e tail =>
          simp only [hline, dropLast_cons_cons, mem_cons] at hmem
          rcases hmem with rfl | hmem
          · exact hc hd
          · exact hrest.1 d hd (by simpa [hline] using hmem)

/-- A prompt passes on at most 30 bytes, none of them a newline or a
terminator. -/
theorem promptLine_text {rest : List (Option Byte)} {line : List Byte}
    (hprompt : promptLine stdin = some (line, rest)) :
    line.length < stringSize ∧ newline ∉ line ∧ 0 ∉ line := by
  simp only [promptLine, gets, removeNewline, bind_eq_bind, bind_eq_some_iff] at hprompt
  obtain ⟨text, htext, hline⟩ := hprompt
  obtain ⟨-, htext⟩ := ite_none_left_eq_some.1 htext
  cases htext
  cases hline
  set bytes := (getsLoop (stringSize - 1) stdin).1 with hbytes
  have hloop := getsLoop_dropLast (stringSize - 1) stdin
  have hstart : cstr bytes <+: bytes := takeWhile_prefix _
  refine ⟨?_, ?_, ?_⟩
  · have hlength : (cstr bytes).length ≤ stringSize - 1 := hstart.length_le.trans hloop.2
    rw [length_dropLast]
    simp only [stringSize] at hlength ⊢
    omega
  · -- Only the last byte read can be a newline, and it is the one removed.
    intro hmem
    obtain ⟨tail, htail⟩ := hstart
    apply hloop.1 newline (.inl rfl)
    rw [← hbytes, ← htail]
    cases tail with
    | nil => simpa using hmem
    | cons d tail =>
      rw [dropLast_append_cons]
      exact mem_append_left _ (dropLast_subset _ hmem)
  · intro hmem
    simpa using mem_takeWhile_imp (dropLast_subset _ hmem)

theorem dialogue_ok (haccepted : dialogue procUid user stdin = some (.ok newPassword)) :
    newPassword.length < stringSize ∧ newline ∉ newPassword ∧ 0 ∉ newPassword := by
  simp only [dialogue, bind_eq_bind, bind_eq_some_iff]
    at haccepted
  obtain ⟨checked, _, haccepted⟩ := haccepted
  cases checked with
  | error outcome => simp at haccepted
  | ok stdin' =>
    simp only [readNewPassword, bind_eq_bind, bind_eq_some_iff] at haccepted
    obtain ⟨⟨line, rest⟩, hline, haccepted⟩ := haccepted
    split at haccepted
    · simp at haccepted
    · simp only [bind_eq_some_iff] at haccepted
      obtain ⟨retyped, _, haccepted⟩ := haccepted
      split at haccepted
      · cases haccepted
        exact promptLine_text hline
      · simp at haccepted

/-- A run that stops before the new password is accepted writes nothing. -/
theorem selectTarget_unchanged {argv : List (List Byte)} :
    selectTarget after passwd procUid argv ≠ some (.error (.changed content)) := by
  intro hstop
  simp only [selectTarget, bind_eq_bind, bind_eq_some_iff]
    at hstop
  obtain ⟨user, -, hstop⟩ := hstop
  cases argv with
  | nil => simp at hstop
  | cons username rest =>
    split_ifs at hstop
    · simp at hstop
    · obtain ⟨found, -, hstop⟩ := bind_eq_some_iff.1 hstop
      cases found <;> simp at hstop

theorem dialogue_unchanged : dialogue procUid user stdin ≠ some (.error (.changed content)) := by
  intro hstop
  simp only [dialogue, bind_eq_bind, bind_eq_some_iff] at hstop
  obtain ⟨checked, hchecked, hstop⟩ := hstop
  cases checked with
  | error outcome =>
    cases hstop
    simp only [checkOldPassword] at hchecked
    split_ifs at hchecked
    · simp at hchecked
    · simp only [bind_eq_bind, bind_eq_some_iff] at hchecked
      obtain ⟨_, -, _, -, hchecked⟩ := hchecked
      split_ifs at hchecked <;> simp at hchecked
  | ok stdin' =>
    simp only [readNewPassword, bind_eq_bind, bind_eq_some_iff] at hstop
    obtain ⟨_, -, hstop⟩ := hstop
    split_ifs at hstop
    · simp at hstop
    · simp only [bind_eq_some_iff] at hstop
      obtain ⟨_, -, hstop⟩ := hstop
      split_ifs at hstop <;> simp at hstop

/-- A database the library can load and rewrite: well-formed records with
distinct uids, every line within its buffer. -/
structure WellFormedUsers (users : List User) : Prop where
  records : ∀ user ∈ users, user.WellFormed
  lines : ∀ user ∈ users, LineFits user
  uids : (users.map User.uid).Nodup

def withPassword (user : User) (password : List Byte) : User :=
  { user with password }

def passwordChanged (users : List User) (caller : User) (newPassword : List Byte) : List User :=
  users.map fun user =>
    if user.uid = caller.uid then withPassword user newPassword else user

/-- The run succeeds, and loading the file again (with any memory `after'`
behind that read buffer) gives the old records with only the caller's password
replaced, by the typed string. -/
def ChangesOnlyPassword (after after' passwd : List Byte) (users : List User)
    (caller : User) (stdin : List (Option Byte)) (newPassword : List Byte) : Prop :=
  ∃ passwd', main after passwd caller.uid [] stdin = some (.changed passwd') ∧
    selectAllUsersFromPasswdFile after' passwd' = some (passwordChanged users caller newPassword)

theorem eq_of_uid_eq (hnodup : (users.map User.uid).Nodup) {left right : User}
    (hleft : left ∈ users) (hright : right ∈ users) (huid : left.uid = right.uid) : left = right :=
  inj_on_of_nodup_map hnodup hleft hright huid

theorem find_uid (hnodup : (users.map User.uid).Nodup) (hcaller : caller ∈ users) :
    (users.find? fun user => caller.uid = user.uid) = some caller := by
  cases hfind : users.find? fun user => caller.uid = user.uid with
  | none =>
    have hnot := find?_eq_none.1 hfind caller hcaller
    simp at hnot
  | some found =>
    have huid : caller.uid = found.uid := by
      simpa using find?_some hfind
    rw [eq_of_uid_eq hnodup hcaller (mem_of_find?_eq_some hfind) huid]

theorem main_of_accepted (hload : selectAllUsersFromPasswdFile after passwd = some users)
    (hnodup : (users.map User.uid).Nodup) (hcaller : caller ∈ users)
    (haccepted : dialogue caller.uid (some caller) stdin = some (.ok newPassword)) :
    main after passwd caller.uid [] stdin =
      (updatePasswdFile (passwordChanged users caller newPassword)).map Outcome.changed := by
  have htarget : selectTarget after passwd caller.uid [] = some (.ok (some caller)) := by
    simp [selectTarget, getUserFromUid, hload, find_uid hnodup hcaller]
  have hreplace : replaceUser (withPassword caller newPassword)
      (withPassword caller newPassword) users = passwordChanged users caller newPassword := by
    rw [replaceUser_eq_map hnodup]
    refine map_congr_left fun user huser => ?_
    by_cases huid : user.uid = caller.uid
    · rw [eq_of_uid_eq hnodup huser hcaller huid]
      rfl
    · simp only [withPassword, huid, if_false]
  simp only [main, htarget, haccepted, bind_eq_bind, bind_some, updateUserInfo, hload]
  rw [show { caller with password := newPassword } =
    withPassword caller newPassword from rfl, hreplace]
  exact map_eq_bind.symm

theorem passwordChanged_wellFormed (husers : WellFormedUsers users) (hcaller : caller ∈ users)
    (htext : FieldText newPassword) (hfits : LineFits (withPassword caller newPassword)) :
    ∀ user ∈ passwordChanged users caller newPassword, user.WellFormed ∧ LineFits user := by
  intro user huser
  obtain ⟨old, hold, rfl⟩ := mem_map.1 huser
  by_cases huid : old.uid = caller.uid
  · rw [if_pos huid, eq_of_uid_eq husers.uids hold hcaller huid]
    exact ⟨{ husers.records caller hcaller with password := htext }, hfits⟩
  · rw [if_neg huid]
    exact ⟨husers.records old hold, husers.lines old hold⟩

theorem passwordChanged_sorted (caller : User) (newPassword : List Byte)
    (hsorted : SortedBy User.uid users) :
    SortedBy User.uid (passwordChanged users caller newPassword) := by
  refine pairwise_map.2 (hsorted.imp fun hle => ?_)
  split <;> split <;> exact hle

/-- No reloaded record can hold a colon, so a typed colon is lost. -/
theorem colon_free_of_changes {after' : List Byte} (hcaller : caller ∈ users)
    (hchanges : ChangesOnlyPassword after after' passwd users caller stdin newPassword) :
    colon ∉ newPassword := by
  obtain ⟨passwd', -, hreload⟩ := hchanges
  have hchanged : withPassword caller newPassword ∈
      passwordChanged users caller newPassword := mem_map.2 ⟨caller, hcaller, if_pos rfl⟩
  exact (selectAllUsers_colon_free hreload _ hchanged).2

def ken : User :=
  { username := str "ken", password := str "abc", uid := 1000, gid := 1000,
    realname := str "K", homedir := str "/k" }

def twoUsers : List User :=
  [{ username := str "root", password := str "pw", uid := 0, gid := 0,
     realname := str "S", homedir := str "/r" }, ken]

def twoUsersFile : List Byte :=
  twoUsers.flatMap getStringFromUser

/-- Lines typed at the console. -/
def typed (lines : List (List Byte)) : List (Option Byte) :=
  lines.flatMap fun line => (line ++ [newline]).map some

end Xv6Users.PasswordChange
