import Xv6Users.Userland.Authentication
import Xv6Users.Userland.PasswordChange

/-!
# The prompts of login and passwd

Each prompt is `gets` into 32 bytes and the removal of the last byte.  `login` of
`user/getty.c` and the dialogue of `user/passwd.c` are programs that ask; every prompt
takes one typed line exactly if each line that is asked for ends in a newline and has at
most 30 bytes, none of them a carriage return or a NUL.
-/

namespace Xv6Users.Prompts

open Authentication PasswordChange Ulib UserRecords List Option Function

variable {α : Type}

/-- A program that asks for lines.  It may stop without a result. -/
inductive Dialogue (α : Type) where
  | done (result : Option α)
  | ask (next : List Byte → Dialogue α)

def Dialogue.run : Dialogue α → List (Option Byte) → Option (α × List (Option Byte))
  | done result, stdin => result.map fun value => (value, stdin)
  | ask next, stdin => do
    let typed ← promptLine stdin
    (next typed.1).run typed.2

/-- At most `rounds` rounds of `login`. -/
def login (after passwd : List Byte) : ℕ → Dialogue User
  | 0 => .done none
  | rounds + 1 => .ask fun username => .ask fun password =>
    match authenticateUser after passwd username password with
    | none => .done none
    | some none => login after passwd rounds
    | some (some currUser) => .done (some currUser)

def askNewPassword : Dialogue (Except Outcome (List Byte)) :=
  .ask fun newPassword =>
    if newPassword.length ≤ 6 then .done (some (.error .tooShort))
    else .ask fun retypePassword =>
      if newPassword = retypePassword then .done (some (.ok newPassword))
      else .done (some (.error .mismatch))

/-- The prompts of `passwd`. -/
def changePassword (procUid : ℤ) (user : Option User) : Dialogue (Except Outcome (List Byte)) :=
  if procUid = root then askNewPassword
  else .ask fun oldPassword =>
    match user with
    | none => .done none
    | some user =>
      if authenticateOldPassword user oldPassword then askNewPassword
      else .done (some (.error .wrongPassword))

/-- These are the prompts of the model of `passwd`. -/
theorem run_changePassword (procUid : ℤ) (user : Option User) (stdin : List (Option Byte)) :
    ((changePassword procUid user).run stdin).map Prod.fst = dialogue procUid user stdin := by
  have hnew : ∀ stdin, (askNewPassword.run stdin).map Prod.fst = readNewPassword stdin := by
    intro stdin
    simp only [askNewPassword, Dialogue.run, readNewPassword, bind_eq_bind, map_bind]
    congr 1
    funext typed
    dsimp only [comp_apply]
    split_ifs
    · rfl
    · simp only [Dialogue.run, bind_eq_bind, map_bind]
      congr 1
      funext retyped
      dsimp only [comp_apply]
      split_ifs <;> rfl
  by_cases hroot : procUid = root
  · simp [changePassword, dialogue, checkOldPassword, hroot, hnew]
  · simp only [changePassword, dialogue, checkOldPassword, hroot, if_false, Dialogue.run,
      bind_eq_bind, map_bind, bind_assoc]
    congr 1
    funext typed
    dsimp only [comp_apply]
    cases user with
    | none => rfl
    | some user =>
      dsimp only [bind_some]
      split_ifs
      · exact hnew typed.2
      · rfl

/-- Every prompt takes one line and passes it on without its newline. -/
def Served : Dialogue α → List (Option Byte) → Prop
  | .done _, _ => True
  | .ask next, stdin => ∃ line rest, stdin = line.map some ++ some newline :: rest ∧
      newline ∉ line ∧ promptLine stdin = some (line, rest) ∧ Served (next line) rest

def Typed : Dialogue α → List (Option Byte) → Prop
  | .done _, _ => True
  | .ask next, stdin => ∃ line rest, stdin = line.map some ++ some newline :: rest ∧
      newline ∉ line ∧ (line.length ≤ 30 ∧ carriageReturn ∉ line ∧ 0 ∉ line) ∧
      Typed (next line) rest

variable {line : List Byte} {stdin rest : List (Option Byte)}

/-- `gets` takes bytes, and at most one failed read behind them. -/
theorem getsLoop_taken (room : ℕ) (stdin : List (Option Byte)) :
    stdin = (getsLoop room stdin).1.map some ++ (getsLoop room stdin).2 ∨
      stdin = (getsLoop room stdin).1.map some ++ none :: (getsLoop room stdin).2 := by
  fun_induction getsLoop room stdin with
  | case1 => exact .inl rfl
  | case2 => exact .inl rfl
  | case3 => exact .inr rfl
  | case4 => exact .inl rfl
  | case5 room c stdin hc next ih => simpa using ih

theorem getsLoop_line {room : ℕ} (hroom : line.length < room) (hnewline : newline ∉ line)
    (hreturn : carriageReturn ∉ line) :
    getsLoop room (line.map some ++ some newline :: rest) = (line ++ [newline], rest) := by
  induction line generalizing room with
  | nil =>
    obtain ⟨room, rfl⟩ := Nat.exists_eq_add_one.2 hroom
    simp [getsLoop]
  | cons c line ih =>
    obtain ⟨room, rfl⟩ := Nat.exists_eq_add_one.2 ((Nat.zero_le _).trans_lt hroom)
    obtain ⟨hc, hnewline⟩ := not_or.1 (mem_cons.not.1 hnewline)
    obtain ⟨hc', hreturn⟩ := not_or.1 (mem_cons.not.1 hreturn)
    have hrest := ih (Nat.lt_of_succ_lt_succ hroom) hnewline hreturn
    simp [getsLoop, hrest, Ne.symm hc, Ne.symm hc']

/-- A prompt that takes a whole line has read nothing else. -/
theorem getsLoop_eq_line (room : ℕ)
    (hrest : (getsLoop room (line.map some ++ some newline :: rest)).2 = rest) :
    (getsLoop room (line.map some ++ some newline :: rest)).1 = line ++ [newline] := by
  have htaken := getsLoop_taken room (line.map some ++ some newline :: rest)
  rw [hrest] at htaken
  rcases htaken with htaken | htaken
  · have hsplit : (line ++ [newline]).map some ++ rest =
        (getsLoop room (line.map some ++ some newline :: rest)).1.map some ++ rest := by
      simpa using htaken
    have hbytes := append_cancel_right hsplit
    exact ((map_injective_iff.2 (some_injective _)) hbytes).symm
  · have hends := (append_inj' htaken rfl).2
    cases hends

theorem promptLine_iff (hnewline : newline ∉ line) :
    promptLine (line.map some ++ some newline :: rest) = some (line, rest) ↔
      line.length ≤ 30 ∧ carriageReturn ∉ line ∧ 0 ∉ line := by
  constructor
  · intro hprompt
    have hrest : (getsLoop 31 (line.map some ++ some newline :: rest)).2 = rest := by
      obtain ⟨text, -, htext⟩ := bind_eq_some_iff.1 hprompt
      exact (Prod.mk.inj (some.inj htext)).2
    have hloop := getsLoop_dropLast 31 (line.map some ++ some newline :: rest)
    rw [getsLoop_eq_line 31 hrest, dropLast_concat, length_append] at hloop
    exact ⟨Nat.le_of_succ_le_succ hloop.2, hloop.1 carriageReturn (.inr rfl),
      (promptLine_text hprompt).2.2⟩
  · rintro ⟨hlength, hreturn, hzero⟩
    have hcstr : cstr (line ++ [newline]) = line ++ [newline] := by
      refine takeWhile_eq_self_iff.2 fun c hc => ?_
      rcases mem_append.1 hc with hc | hc
      · exact decide_eq_true fun hsame => hzero (hsame ▸ hc)
      · rw [mem_singleton.1 hc]
        decide
    have hloop : getsLoop 31 (line.map some ++ some newline :: rest) =
        (line ++ [newline], rest) := getsLoop_line (Nat.lt_succ_of_le hlength) hnewline hreturn
    simp [promptLine, gets, stringSize, hloop, hcstr, removeNewline]

theorem served_iff (program : Dialogue α) (stdin : List (Option Byte)) :
    Served program stdin ↔ Typed program stdin := by
  induction program generalizing stdin with
  | done result => exact Iff.rfl
  | ask next ih =>
    constructor
    · rintro ⟨line, rest, rfl, hnewline, hprompt, hserved⟩
      exact ⟨line, rest, rfl, hnewline, (promptLine_iff hnewline).1 hprompt,
        (ih line rest).1 hserved⟩
    · rintro ⟨line, rest, rfl, hnewline, hshort, htyped⟩
      exact ⟨line, rest, rfl, hnewline, (promptLine_iff hnewline).2 hshort,
        (ih line rest).2 htyped⟩

/-- Every prompt of `login`, for any number of rounds, and of `passwd` takes exactly one
line if and only if lines that fit are typed for all of them. -/
theorem prompts_served_iff (after passwd : List Byte) (rounds : ℕ) (procUid : ℤ)
    (user : Option User) (stdin : List (Option Byte)) :
    (Served (login after passwd rounds) stdin ↔ Typed (login after passwd rounds) stdin) ∧
      (Served (changePassword procUid user) stdin ↔
        Typed (changePassword procUid user) stdin) := ⟨served_iff _ stdin, served_iff _ stdin⟩

def longLine : List (Option Byte) :=
  (replicate 31 97).map some ++ [some newline]

/-- The line is cut, and its newline is left for the next prompt, which reads it as an
empty line.  At the end of the input the byte before the buffer is written. -/
theorem long_line_is_split :
    promptLine longLine = some (replicate 30 97, [some newline]) ∧
      promptLine [some newline] = some ([], []) ∧ promptLine [] = none ∧
      ∀ after passwd, ¬ Served (login after passwd 1) longLine := by
  have hcut : promptLine longLine = some (replicate 30 97, [some newline]) := by
    decide +kernel
  refine ⟨hcut, by decide +kernel, by decide +kernel, ?_⟩
  rintro after passwd ⟨line, rest, htyped, -, hprompt, -⟩
  cases hcut.symm.trans hprompt
  exact absurd htyped (by decide +kernel)

end Xv6Users.Prompts
