import Xv6Users.Userland.GroupRecords

/-!
# Where the loads stop

The files are read into buffers of exactly their size, without a terminator,
and a line with too few fields is read on past its end.  A load depends on the
file alone exactly when the file brings its own terminator and every line
before it holds all its fields.
-/

namespace Xv6Users.BufferEnds

open ScannedText SortedInsert Ulib List Option
open UserRecords GroupRecords

variable {content passwd : List Byte} {count fuel : ℕ} {found : List (List Byte) × List Byte}
  {tokens : List (List Byte)} {users : List User}

def fileLines (content : List Byte) : List (List Byte) :=
  ((content.takeWhile (· ≠ 0)).splitOn newline).filter (· ≠ [])

/-- A load that depends on the files alone: it returns one list whatever
follows the buffers, and one record for each line whatever follows the line. -/
structure SelfContained (passwd group : List Byte) : Prop where
  users : ∃ users, ∀ after, selectAllUsersFromPasswdFile after passwd = some users
  groups : ∃ groups, ∀ after, selectAllGroupsFromGroupFile after passwd group = some groups
  userLines : ∀ line ∈ fileLines passwd, ∃ user, ∀ beyond,
    getUserFromString (line ++ 0 :: beyond) = some user
  groupLines : ∀ line ∈ fileLines group, ∃ record, ∀ after beyond,
    getGroupFromString after passwd (line ++ 0 :: beyond) = some record

def fieldsOf (line : List Byte) : List (List Byte) :=
  line.splitOn colon

/-- A line has at least six fields, and the six that are read fit. -/
def CompleteUser (line : List Byte) : Prop :=
  6 ≤ (fieldsOf line).length ∧ ∀ field ∈ (fieldsOf line).take 6, field.length < stringSize

def namesText (line : List Byte) : List Byte :=
  [colon].intercalate ((fieldsOf line).drop 2)

/-- A line has at least three fields, and the first two and the names fit. -/
def CompleteGroup (line : List Byte) : Prop :=
  3 ≤ (fieldsOf line).length ∧ (∀ field ∈ (fieldsOf line).take 2, field.length < stringSize) ∧
    ∀ name ∈ (namesText line).splitOn comma, name.length < stringSize

/-- Pieces of a text that was cut at `stop`. -/
def Cut (stop : Byte) (pieces : List (List Byte)) : Prop :=
  ∀ piece ∈ pieces, stop ∉ piece ∧ 0 ∉ piece

theorem cut_splitOn {stop : Byte} {text : List Byte} (htext : 0 ∉ text) :
    Cut stop (text.splitOn stop) := fun _ hpiece =>
  ⟨(mem_splitOn hpiece).1, fun hmem => htext ((mem_splitOn hpiece).2.subset hmem)⟩

section Fields

variable {stop : Byte} {piece memory : List Byte} {pieces : List (List Byte)}

theorem readField_cut (hpiece : stop ∉ piece ∧ 0 ∉ piece) {symbol : Byte}
    (hsymbol : symbol = stop ∨ symbol = 0) (rest : List Byte) :
    readField stop (piece ++ symbol :: rest) =
      if piece.length < stringSize then some (piece, symbol :: rest)
      else none := by
  have hscan := scanUntil_append
    (fun c hc => by
      have hstop : c ≠ stop := fun h => hpiece.1 (h ▸ hc)
      have hzero : c ≠ 0 := fun h => hpiece.2 (h ▸ hc)
      simp [hstop, hzero] : ∀ c ∈ piece, (c == stop || c == 0) = false)
    (by simpa using hsymbol : (symbol == stop || symbol == 0) = true) rest
  simp only [readField, hscan, strcpy, bind_eq_bind, bind_some]
  split <;> rfl

theorem readField_nil : readField stop [] = none := rfl

/-- The fields of a line are its pieces, and reading stops inside the line as
long as a piece is left. -/
theorem readFields_cut (hne : pieces ≠ []) (hcut : Cut colon pieces)
    (hcount : count ≤ pieces.length)
    (hfits : ∀ field ∈ pieces.take count, field.length < stringSize) (beyond : List Byte) :
    readFields colon count ([colon].intercalate pieces ++ 0 :: beyond) = some (pieces.take count,
        if count < pieces.length then
          [colon].intercalate (pieces.drop count) ++ 0 :: beyond else beyond) := by
  induction pieces generalizing count with
  | nil => exact absurd rfl hne
  | cons first rest ih =>
    cases count with
    | zero => simp [readFields]
    | succ count =>
      have hfirst := hfits first (by simp)
      have hcolon := hcut first (by simp)
      cases rest with
      | nil =>
        obtain rfl : count = 0 := by simpa using hcount
        simp [readFields, readField_cut hcolon (.inr rfl), hfirst]
      | cons next rest =>
        have hrest := ih (by simp)
          (fun other hother => hcut other (.tail first hother))
          (by simpa using hcount) (fun field hfield =>
            hfits field (.tail first hfield))
        have hread := readField_cut hcolon (.inl rfl)
          ([colon].intercalate (next :: rest) ++ 0 :: beyond)
        rw [if_pos hfirst] at hread
        simp [readFields, intercalate_cons_cons, hread, hrest]

/-- Reading that stays inside a line finds as many pieces as it asks for. -/
theorem complete_of_readFields (hne : pieces ≠ []) (hcut : Cut colon pieces)
    (hread : readFields colon count ([colon].intercalate pieces ++ [0]) = some found) :
    count ≤ pieces.length ∧ ∀ field ∈ pieces.take count, field.length < stringSize := by
  induction pieces generalizing count found with
  | nil => exact absurd rfl hne
  | cons first rest ih =>
    cases count with
    | zero => simp
    | succ count =>
      have hcolon := hcut first (by simp)
      simp only [readFields, bind_eq_bind, bind_eq_some_iff] at hread
      obtain ⟨head, hhead, tail, htail, -⟩ := hread
      cases rest with
      | nil =>
        rw [intercalate_singleton, readField_cut hcolon (.inr rfl), ite_none_right_eq_some] at hhead
        obtain ⟨hfirst, hhead⟩ := hhead
        cases hhead
        have hzero : count = 0 := by
          cases count with
          | zero => rfl
          | succ count => simp [readFields, readField_nil] at htail
        simpa [hzero] using hfirst
      | cons next rest =>
        rw [intercalate_cons_cons, append_assoc, append_assoc, singleton_append,
          readField_cut hcolon (.inl rfl),
          ite_none_right_eq_some] at hhead
        obtain ⟨hfirst, hhead⟩ := hhead
        cases hhead
        obtain ⟨hcount, hfits⟩ := ih (by simp)
          (fun other hother => hcut other (.tail first hother))
          (by simpa using htail)
        refine ⟨by simpa using hcount, fun field hfield => ?_⟩
        rcases mem_cons.1 hfield with rfl | hfield
        · exact hfirst
        · exact hfits field hfield

/-- Names are only read up to the terminator when all of them fit. -/
theorem fits_of_readNames (hne : pieces ≠ []) (hcut : Cut comma pieces)
    {names : List (List Byte)} {beyond : List Byte}
    (hread : readNames fuel ([comma].intercalate pieces ++ 0 :: beyond) = some names) :
    ∀ name ∈ pieces, name.length < stringSize := by
  induction pieces generalizing fuel names with
  | nil => exact absurd rfl hne
  | cons first rest ih =>
    have hcomma := hcut first (by simp)
    cases fuel with
    | zero => simp [readNames] at hread
    | succ fuel =>
      simp only [readNames, bind_eq_bind, bind_eq_some_iff] at hread
      obtain ⟨head, hhead, htail⟩ := hread
      cases rest with
      | nil =>
        rw [intercalate_singleton, readField_cut hcomma (.inr rfl), ite_none_right_eq_some] at hhead
        simpa using hhead.1
      | cons next rest =>
        rw [intercalate_cons_cons, append_assoc, append_assoc, singleton_append,
          readField_cut hcomma (.inl rfl),
          ite_none_right_eq_some] at hhead
        obtain ⟨hfirst, hhead⟩ := hhead
        cases hhead
        obtain ⟨others, hothers, -⟩ := bind_eq_some_iff.1 htail
        have hrest := ih (by simp) (fun other hother =>
          hcut other (.tail first hother)) hothers
        intro name hname
        rcases mem_cons.1 hname with rfl | hname
        · exact hfirst
        · exact hrest name hname

end Fields

section Lines

variable {line : List Byte}

theorem intercalate_fieldsOf (line : List Byte) : [colon].intercalate (fieldsOf line) = line :=
  intercalate_splitOn colon

theorem not_mem_namesText (hzero : 0 ∉ line) : 0 ∉ namesText line := by
  intro hmem
  have hdrop : ∀ {c : Byte} {pieces : List (List Byte)}, c ∈ [colon].intercalate pieces →
      c = colon ∨ ∃ piece ∈ pieces, c ∈ piece := by
    intro c pieces hc
    induction pieces with
    | nil => simp at hc
    | cons first rest ih =>
      cases rest with
      | nil => exact .inr ⟨first, by simp, by simpa using hc⟩
      | cons next rest =>
        rw [intercalate_cons_cons, mem_append, mem_append] at hc
        rcases hc with (hc | hc) | hc
        · exact .inr ⟨first, by simp, hc⟩
        · exact .inl (by simpa using hc)
        · rcases ih hc with hcolon | ⟨piece, hpiece, hc⟩
          · exact .inl hcolon
          · exact .inr ⟨piece, mem_cons_of_mem first hpiece, hc⟩
  rcases hdrop hmem with hcolon | ⟨piece, hpiece, hc⟩
  · exact absurd hcolon (by decide)
  · exact (cut_splitOn hzero piece ((drop_sublist 2 _).subset hpiece)).2 hc

theorem readFields_line (hzero : 0 ∉ line) (hcount : count ≤ (fieldsOf line).length)
    (hfits : ∀ field ∈ (fieldsOf line).take count, field.length < stringSize) (beyond : List Byte) :
    readFields colon count (line ++ 0 :: beyond) = some ((fieldsOf line).take count,
        if count < (fieldsOf line).length then
          [colon].intercalate ((fieldsOf line).drop count) ++ 0 :: beyond else beyond) := by
  have hread := readFields_cut (splitOn_ne_nil colon line)
    (cut_splitOn hzero) hcount hfits beyond
  rwa [intercalate_splitOn] at hread

theorem complete_of_readFields_line (hzero : 0 ∉ line)
    (hread : readFields colon count (line ++ [0]) = some found) :
    count ≤ (fieldsOf line).length ∧
      ∀ field ∈ (fieldsOf line).take count, field.length < stringSize := by
  rw [← intercalate_fieldsOf line] at hread
  exact complete_of_readFields (splitOn_ne_nil colon line) (cut_splitOn hzero) hread

theorem six_of_length {fields : List (List Byte)} (hlength : fields.length = 6) :
    ∃ a b c d e f, fields = [a, b, c, d, e, f] := by
  match fields, hlength with
  | [a, b, c, d, e, f], _ => exact ⟨a, b, c, d, e, f, rfl⟩

/-- The record of a line is fixed exactly when the line is complete. -/
theorem userLine_fixed_iff (hzero : 0 ∉ line) :
    (∃ user, ∀ beyond, getUserFromString (line ++ 0 :: beyond) = some user) ↔
      CompleteUser line := by
  constructor
  · rintro ⟨user, huser⟩
    have hread := huser []
    simp only [getUserFromString, bind_eq_bind, bind_eq_some_iff] at hread
    obtain ⟨fields, hfields, -⟩ := hread
    exact complete_of_readFields_line hzero hfields
  · rintro ⟨hcount, hfits⟩
    have hsix : ((fieldsOf line).take 6).length = 6 := by simpa using hcount
    obtain ⟨username, password, uid, gid, realname, homedir, htake⟩ := six_of_length hsix
    refine ⟨⟨username, password, atoi uid, atoi gid, realname, homedir⟩, fun beyond => ?_⟩
    rw [getUserFromString, readFields_line hzero hcount hfits, htake]
    rfl

/-- The same for a group line, over a password file whose load is fixed. -/
theorem groupLine_fixed_iff
    (husers : ∀ after, selectAllUsersFromPasswdFile after passwd = some users) (hzero : 0 ∉ line) :
    (∃ record, ∀ after beyond,
      getGroupFromString after passwd (line ++ 0 :: beyond) = some record) ↔
      CompleteGroup line := by
  constructor
  · rintro ⟨record, hrecord⟩
    have hread := hrecord [] []
    simp only [getGroupFromString, bind_eq_bind, bind_eq_some_iff] at hread
    obtain ⟨fields, hfields, hread⟩ := hread
    obtain ⟨htwo, hfits⟩ := complete_of_readFields_line hzero hfields
    cases (readFields_line hzero htwo hfits []).symm.trans hfields
    have hnames : ∃ fuel names, readNames fuel
        (if 2 < (fieldsOf line).length then namesText line ++ [0] else []) =
          some names := by
      split at hread
      · obtain ⟨names, hnames, -⟩ := bind_eq_some_iff.1 hread
        exact ⟨_, names, hnames⟩
      · exact absurd hread (by simp)
    obtain ⟨fuel, names, hnames⟩ := hnames
    by_cases hthree : 2 < (fieldsOf line).length
    · have hjoin : [comma].intercalate ((namesText line).splitOn comma) =
          namesText line := intercalate_splitOn comma
      rw [if_pos hthree, ← hjoin] at hnames
      exact ⟨hthree, hfits, fits_of_readNames (splitOn_ne_nil _ _)
        (cut_splitOn (not_mem_namesText hzero)) hnames⟩
    · rw [if_neg hthree] at hnames
      cases fuel with
      | zero => simp [readNames] at hnames
      | succ fuel => simp [readNames, readField_nil] at hnames
  · rintro ⟨hthree, hfits, hnames⟩
    have htwo : ((fieldsOf line).take 2).length = 2 := by
      rw [length_take]
      omega
    obtain ⟨groupname, gid, htake⟩ := length_eq_two.1 htwo
    refine ⟨⟨groupname, atoi gid, (((namesText line).splitOn comma).map
      (findUser users)).foldl addUserToListSorted []⟩, fun after beyond => ?_⟩
    have hread := readNames_splitOn (not_mem_namesText hzero) hnames beyond
      (show ((namesText line).splitOn comma).length ≤
        (namesText line ++ 0 :: beyond).length + 1 from
        (length_splitOn_le comma _).trans (by simp))
    rw [getGroupFromString, readFields_line hzero (by omega) hfits,
      if_pos (show 2 < (fieldsOf line).length from hthree), htake]
    simp only [bind_eq_bind, bind_some, namesText] at hread ⊢
    rw [hread]
    simp only [bind_some, mapM_getUserFromUsername (husers after)]

end Lines

/-- A scan that ends has met a terminator. -/
theorem zero_mem_of_scanTokens {delimiters memory : List Byte}
    {sp string : Option (List Byte)} (hmem : sp.or string = some memory)
    (hscan : scanTokens delimiters fuel sp string = some tokens) : 0 ∈ memory := by
  have hskip : ∀ {memory start}, skipDelimiters delimiters memory = some start →
      ∀ c ∈ start, c ∈ memory := by
    intro memory start hstart
    induction memory with
    | nil => simp [skipDelimiters] at hstart
    | cons c rest ih =>
      rw [skipDelimiters] at hstart
      split_ifs at hstart
      · exact fun other hother => .tail c (ih hstart other hother)
      · cases hstart
        exact fun _ => id
  induction fuel generalizing memory sp string tokens with
  | zero => simp [scanTokens] at hscan
  | succ fuel ih =>
    simp only [scanTokens, bind_eq_bind, bind_eq_some_iff]
      at hscan
    obtain ⟨result, hresult, hscan⟩ := hscan
    simp only [strtok, hmem, bind_eq_bind, bind_eq_some_iff]
      at hresult
    obtain ⟨start, hstart, hresult⟩ := hresult
    split_ifs at hresult with hend
    · exact hskip hstart 0 (mem_of_mem_head? hend)
    · obtain ⟨found, hfound, hresult⟩ := bind_eq_some_iff.1 hresult
      obtain ⟨hsplit, -, symbol, rest, hrest, -⟩ := scanUntil_eq_some hfound
      have hsuffix : ∀ c ∈ found.2, c ∈ memory := fun c hc =>
        hskip hstart c (hsplit ▸ mem_append_right found.1 hc)
      rw [hrest] at hresult hsuffix
      simp only at hresult
      split_ifs at hresult with hzero
      · exact hsuffix 0 (by simp [hzero])
      · cases hresult
        obtain ⟨others, hothers, -⟩ := bind_eq_some_iff.1 hscan
        exact hsuffix 0 (.tail symbol (ih rfl hothers))

theorem split_at_zero (hzero : 0 ∈ content) :
    ∃ rest, content = content.takeWhile (· ≠ 0) ++ 0 :: rest := by
  induction content with
  | nil => simp at hzero
  | cons c tail ih =>
    by_cases hc : c = 0
    · exact ⟨tail, by simp [hc]⟩
    · obtain ⟨rest, hrest⟩ := ih ((mem_cons.1 hzero).resolve_left (Ne.symm hc))
      refine ⟨rest, ?_⟩
      rw [takeWhile_cons_of_pos (by simpa using hc), cons_append,
        ← hrest]

theorem zero_not_mem_of_fileLines {line : List Byte} (hline : line ∈ fileLines content) :
    0 ∉ line := by
  intro hmem
  have hpiece := (mem_splitOn (mem_of_mem_filter hline)).2
  simpa using mem_takeWhile_imp (hpiece.subset hmem)

/-- A file with a terminator of its own is cut into its lines. -/
theorem tokensOf_file (hzero : 0 ∈ content) (after : List Byte) :
    ∃ tokens, tokensOf [newline] (content ++ after) = some tokens ∧
      List.Forall₂ AtLine (fileLines content) tokens := by
  obtain ⟨rest, hcontent⟩ := split_at_zero hzero
  have hfree : 0 ∉ content.takeWhile (· ≠ 0) := fun hmem => by
    simpa using mem_takeWhile_imp hmem
  obtain ⟨tokens, htokens, hall⟩ := tokensOf_text (show newline ≠ 0 by decide) hfree (rest ++ after)
  refine ⟨tokens, ?_, hall⟩
  rw [← htokens, hcontent, append_assoc, cons_append]
  congr 2
  rw [← hcontent]

/-- Records that do not depend on what follows their line are read off one by
one. -/
theorem mapM_fixed {γ : Type} {parse : List Byte → Option γ}
    {lines : List (List Byte)} (hlines : List.Forall₂ AtLine lines tokens) {record : List Byte → γ}
    (hrecord : ∀ line ∈ lines, ∀ beyond, parse (line ++ 0 :: beyond) = some (record line)) :
    tokens.mapM parse = some (lines.map record) :=
  @mapM_of_atLine _ _ id _ _ _ _ hrecord (by simpa using hlines)

/-- The users of a file are fixed when it is terminated and complete. -/
theorem users_fixed (hzero : 0 ∈ passwd) (hlines : ∀ line ∈ fileLines passwd, CompleteUser line) :
    ∃ users, ∀ after, selectAllUsersFromPasswdFile after passwd = some users := by
  have hfixed : ∀ line ∈ fileLines passwd, ∃ user, ∀ beyond,
      getUserFromString (line ++ 0 :: beyond) = some user := fun line hline =>
    (userLine_fixed_iff (zero_not_mem_of_fileLines hline)).2 (hlines line hline)
  let record (line : List Byte) : User :=
    (getUserFromString (line ++ [0])).getD ⟨[], [], 0, 0, [], []⟩
  have hrecord : ∀ line ∈ fileLines passwd, ∀ beyond,
      getUserFromString (line ++ 0 :: beyond) = some (record line) := by
    intro line hline beyond
    obtain ⟨user, huser⟩ := hfixed line hline
    simp [record, huser]
  refine ⟨insertAll compareUsers ((fileLines passwd).map record), fun after => ?_⟩
  obtain ⟨tokens, htokens, hall⟩ := tokensOf_file hzero after
  rw [selectAllUsersFromPasswdFile, htokens]
  simp only [bind_eq_bind, bind_some, mapM_fixed hall hrecord]
  rfl

/-- The groups of a file are fixed when it is terminated and complete and the
users are. -/
theorem groups_fixed {group : List Byte}
    (husers : ∀ after, selectAllUsersFromPasswdFile after passwd = some users) (hzero : 0 ∈ group)
    (hlines : ∀ line ∈ fileLines group, CompleteGroup line) :
    ∃ groups, ∀ after, selectAllGroupsFromGroupFile after passwd group = some groups := by
  have hfixed : ∀ line ∈ fileLines group, ∃ record, ∀ after beyond,
      getGroupFromString after passwd (line ++ 0 :: beyond) = some record :=
    fun line hline => (groupLine_fixed_iff husers
      (zero_not_mem_of_fileLines hline)).2 (hlines line hline)
  let record (line : List Byte) : Group :=
    (getGroupFromString [] passwd (line ++ [0])).getD ⟨[], 0, []⟩
  have hrecord : ∀ after, ∀ line ∈ fileLines group, ∀ beyond,
      getGroupFromString after passwd (line ++ 0 :: beyond) = some (record line) := by
    intro after line hline beyond
    obtain ⟨found, hfound⟩ := hfixed line hline
    simp [record, hfound]
  refine ⟨insertAll compareGroups ((fileLines group).map record), fun after => ?_⟩
  obtain ⟨tokens, htokens, hall⟩ := tokensOf_file hzero after
  rw [selectAllGroupsFromGroupFile, htokens]
  simp only [bind_eq_bind, bind_some, mapM_fixed hall (hrecord after)]
  rfl

/-- A load depends on the files alone exactly when both bring their own
terminator and all their lines are complete. -/
theorem selfContained_iff (passwd group : List Byte) :
    SelfContained passwd group ↔ (0 ∈ passwd ∧ ∀ line ∈ fileLines passwd, CompleteUser line) ∧
        (0 ∈ group ∧ ∀ line ∈ fileLines group, CompleteGroup line) := by
  constructor
  · rintro ⟨⟨users, husers⟩, ⟨groups, hgroups⟩, huserLines, hgroupLines⟩
    refine ⟨⟨?_, fun line hline => ?_⟩, ?_, fun line hline => ?_⟩
    · obtain ⟨tokens, -, htokens, -, -⟩ := selectAllUsers_eq_some (husers [])
      rw [append_nil] at htokens
      exact zero_mem_of_scanTokens rfl htokens
    · exact (userLine_fixed_iff (zero_not_mem_of_fileLines hline)).1 (huserLines line hline)
    · have hload := hgroups []
      simp only [selectAllGroupsFromGroupFile, bind_eq_bind, bind_eq_some_iff, append_nil] at hload
      obtain ⟨tokens, htokens, -⟩ := hload
      exact zero_mem_of_scanTokens rfl htokens
    · exact (groupLine_fixed_iff husers (zero_not_mem_of_fileLines hline)).1
        (hgroupLines line hline)
  · rintro ⟨⟨hpasswd, huserLines⟩, hgroup, hgroupLines⟩
    have hfixed := users_fixed hpasswd huserLines
    obtain ⟨users, husers⟩ := hfixed
    exact ⟨⟨users, husers⟩, groups_fixed husers hgroup hgroupLines,
      fun line hline => (userLine_fixed_iff
        (zero_not_mem_of_fileLines hline)).2 (huserLines line hline),
      fun line hline => (groupLine_fixed_iff husers
        (zero_not_mem_of_fileLines hline)).2 (hgroupLines line hline)⟩

/-- The bytes that happen to follow the buffer become a user with the uid of
root. -/
theorem stack_bytes_become_root :
    ¬ SelfContained (str "ken:x:1000:1000:K:/k\n") (str "ken:1000:ken\n") ∧
      (selectAllUsersFromPasswdFile [0] (str "ken:x:1000:1000:K:/k\n")).map
        (map User.uid) = some [1000] ∧
      (selectAllUsersFromPasswdFile (str "eve:x:0:0::" ++ [0])
        (str "ken:x:1000:1000:K:/k\n")).map (map User.uid) =
          some [0, 1000] := by
  have hone : (selectAllUsersFromPasswdFile [0]
      (str "ken:x:1000:1000:K:/k\n")).map (map User.uid) =
        some [1000] := by decide +kernel
  have htwo : (selectAllUsersFromPasswdFile (str "eve:x:0:0::" ++ [0])
      (str "ken:x:1000:1000:K:/k\n")).map (map User.uid) =
        some [0, 1000] := by decide +kernel
  refine ⟨fun hcontained => ?_, hone, htwo⟩
  obtain ⟨users, husers⟩ := hcontained.users
  rw [husers] at hone htwo
  simp_all

end Xv6Users.BufferEnds
