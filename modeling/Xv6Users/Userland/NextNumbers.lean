import Xv6Users.Userland.GroupRecords

/-!
# The next free number

`getNextAvailableUid` and `getNextAvailableGid` load their file into a list that
the loader keeps in the order of the numbers, and count up from 1000 in one pass
over it.  The pass ends at the least number that no record has.  The records are
those the tokeniser cuts out of the buffer, in the order of the file.
-/

namespace Xv6Users.NextNumbers

open GroupRecords ScannedText SortedInsert Ulib UserRecords List Option

/-- The numbers from `start` on that no item of a list has. -/
def Free {α : Type} (key : α → ℤ) (list : List α) (start : ℤ) : Set ℤ :=
  {number | start ≤ number ∧ ∀ item ∈ list, key item ≠ number}

/-- The single pass over a sorted list ends at the least free number. -/
theorem next_isLeast {α : Type} {key : α → ℤ} {list : List α}
    (hsorted : SortedBy key list) {start : ℤ} (hstart : 0 ≤ start)
    (hroom : start + list.length < 2 ^ 31) :
    IsLeast (Free key list start) (list.foldl
      (fun value item => if key item = value then int32 (value + 1) else value) start) := by
  induction list generalizing start with
  | nil => exact ⟨⟨le_rfl, by simp⟩, fun number hnumber => hnumber.1⟩
  | cons item rest ih =>
    obtain ⟨hle, hrest⟩ := pairwise_cons.1 hsorted
    rw [length_cons] at hroom
    rw [foldl_cons]
    split_ifs with htaken
    · rw [int32_eq_self (by omega) (by omega)]
      have hsame : Free key (item :: rest) start = Free key rest (start + 1) := by
        ext number
        simp only [Free, Set.mem_ofPred_eq, forall_mem_cons]
        constructor <;> rintro ⟨hlow, hfree⟩ <;> grind
      rw [hsame]
      exact ih hrest (by omega) (by omega)
    · have hnext := ih hrest hstart (by omega)
      rcases lt_or_gt_of_ne htaken with hbelow | habove
      · have hsame : Free key (item :: rest) start = Free key rest start := by
          ext number
          simp only [Free, Set.mem_ofPred_eq, forall_mem_cons]
          constructor <;> rintro ⟨hlow, hfree⟩ <;> grind
        rwa [hsame]
      · -- Everything that follows is above the start, which is free itself.
        have hfree : ∀ other ∈ item :: rest, key other ≠ start := by
          intro other hother
          rcases mem_cons.1 hother with rfl | hother
          · exact htaken
          · exact (habove.trans_le (hle other hother)).ne'
        have hstay : start ∈ Free key rest start :=
          ⟨le_rfl, fun other hother => hfree other (by simp [hother])⟩
        rw [le_antisymm (hnext.2 hstay) hnext.1.1]
        exact ⟨⟨le_rfl, hfree⟩, fun number hnumber => hnumber.1⟩

theorem next_insertAll {α : Type} {key : α → ℤ} {compare : α → α → ℤ}
    (hcompare : ∀ left right, 0 < compare left right ↔ key right < key left)
    {records : List α} (hroom : 1000 + records.length < 2 ^ 31) :
    IsLeast (Free key records 1000) ((insertAll compare records).foldl
      (fun value item => if key item = value then int32 (value + 1) else value) 1000) := by
  have hperm : (insertAll compare records).Perm records := perm_insertAll records
  have hsame : Free key records 1000 = Free key (insertAll compare records) 1000 := by
    ext number
    simp only [Free, hperm.mem_iff]
  rw [hsame]
  refine next_isLeast (insertAll_sorted hcompare records) (by norm_num) ?_
  rw [hperm.length_eq]
  exact_mod_cast hroom

/-- Every token takes at least one byte of the buffer. -/
theorem length_scanTokens {delimiters : List Byte} {fuel : ℕ}
    {sp string : Option (List Byte)} {tokens : List (List Byte)}
    (hscan : scanTokens delimiters fuel sp string = some tokens) : tokens.length < fuel := by
  induction fuel generalizing sp string tokens with
  | zero => cases hscan
  | succ fuel ih =>
    simp only [scanTokens, bind_eq_bind, bind_eq_some_iff] at hscan
    obtain ⟨⟨token, next⟩, -, hscan⟩ := hscan
    cases token with
    | none =>
      cases hscan
      exact Nat.succ_pos fuel
    | some token =>
      obtain ⟨rest, hrest, hscan⟩ := bind_eq_some_iff.1 hscan
      cases hscan
      exact Nat.succ_lt_succ (ih hrest)

def recordsOf {α : Type} (parse : List Byte → Option α) (after file : List Byte) :
    Option (List α) := do
  let tokens ← tokensOf [newline] (file ++ after)
  tokens.mapM parse

theorem length_recordsOf {α : Type} {parse : List Byte → Option α}
    {after file : List Byte} {records : List α}
    (hrecords : recordsOf parse after file = some records) :
    records.length ≤ (file ++ after).length := by
  obtain ⟨tokens, htokens, hparse⟩ := bind_eq_some_iff.1 hrecords
  have hlength := (mapM_eq_some_iff.1 hparse).length_eq
  have hscan := length_scanTokens htokens
  omega

/-- For files in any order, with numbers that may repeat, each of the two routines
returns the least number from 1000 on that no record has.  User memory ends below
`KERNBASE` and starts with the program, so that the buffer and what follows it stay
1000 bytes short of 2 ^ 31. -/
theorem nextNumbers_least (after passwd group : List Byte)
    (hmemory : (passwd ++ after).length + 1000 < 2 ^ 31 ∧ (group ++ after).length + 1000 < 2 ^ 31) :
    (∀ users, recordsOf getUserFromString after passwd = some users →
      ∃ uid, getNextAvailableUid after passwd = some uid ∧ IsLeast (Free User.uid users 1000) uid) ∧
    ∀ groups, recordsOf (getGroupFromString after passwd) after group = some groups →
      ∃ gid, getNextAvailableGid after passwd group = some gid ∧
        IsLeast (Free GroupOf.gid groups 1000) gid := by
  constructor
  · intro users husers
    have hlength := length_recordsOf husers
    obtain ⟨tokens, htokens, hparse⟩ := bind_eq_some_iff.1 husers
    refine ⟨_, ?_, next_insertAll compareUsers_pos (by omega)⟩
    simp only [getNextAvailableUid, selectAllUsersFromPasswdFile, htokens, hparse,
      bind_eq_bind, bind_some]
    rfl
  · intro groups hgroups
    have hlength := length_recordsOf hgroups
    obtain ⟨tokens, htokens, hparse⟩ := bind_eq_some_iff.1 hgroups
    refine ⟨_, ?_, next_insertAll compareGroups_pos (by omega)⟩
    simp only [getNextAvailableGid, selectAllGroupsFromGroupFile, htokens, hparse,
      bind_eq_bind, bind_some]
    rfl

/-- A file with a repeated uid and a gap, its lines out of order. -/
def gapFile : List Byte :=
  str "b:x:1001:0::/\na:x:1000:0::/\nc:x:1000:0::/\nd:x:1003:0::/\n"

theorem nextNumbers_least_gap :
    ∃ users uid, recordsOf getUserFromString [0] gapFile = some users ∧
      getNextAvailableUid [0] gapFile = some uid ∧ IsLeast (Free User.uid users 1000) uid := by
  have hsome : (recordsOf getUserFromString [0] gapFile).isSome := by decide +kernel
  obtain ⟨users, husers⟩ := isSome_iff_exists.1 hsome
  obtain ⟨uid, huid⟩ := (nextNumbers_least [0] gapFile [] (by decide +kernel)).1 users husers
  exact ⟨users, uid, husers, huid⟩

end Xv6Users.NextNumbers
