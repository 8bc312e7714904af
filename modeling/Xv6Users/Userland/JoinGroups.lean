import Xv6Users.Userland.LoadedFiles
import Xv6Users.Userland.MemberLists

/-!
# Adding a user to groups

`addUserToGroups` inserts one node into the lists of all the groups it meets.
That node has one `next` pointer, so in the end every one of these lists
continues with the same tail.  The merge also stops advancing once a group was
named twice.
-/

namespace Xv6Users.JoinGroups

open Function

open ScannedText SortedInsert LinkedNodes Ulib UserRecords GroupRecords LoadedFiles MemberLists List

/-- The members that do not come after `user`. -/
def lowerMembers (user : User) (members : List User) : List User :=
  members.takeWhile fun member => compareUsers member user ≤ 0

/-- The members from the first one after `user` on. -/
def upperMembers (user : User) (members : List User) : List User :=
  members.dropWhile fun member => compareUsers member user ≤ 0

def inside (user : User) (group : Group) : Bool :=
  group.userList.any fun member => compareUsers member user = 0

/-- The groups the merge inserts `user` into. -/
def marks (user : User) (toAdd groups : List Group) : List (Group × Bool) :=
  joinMarks (inside user) toAdd groups

/-- What every list that received the node continues with. -/
def finalTail (user : User) (toAdd groups : List Group) : List User :=
  sharedTail (upperMembers user) (marks user toAdd groups) []

def joinedGroups (user : User) (toAdd groups : List Group) : List Group :=
  (marks user toAdd groups).map fun mark =>
    if mark.2 then
      mark.1.withMembers (lowerMembers user mark.1.userList ++ user :: finalTail user toAdd groups)
    else mark.1

theorem joinMarks_map {Members Others : Type}
    {test : GroupOf Members → Bool} {otherTest : GroupOf Others → Bool}
    (f : GroupOf Members → GroupOf Others)
    (hgid : ∀ (target : Group) group, compareGroups target (f group) = compareGroups target group)
    (htest : ∀ group, otherTest (f group) = test group)
    (toAdd : List Group) (groups : List (GroupOf Members)) :
    joinMarks otherTest toAdd (groups.map f) =
      (joinMarks test toAdd groups).map fun mark => (f mark.1, mark.2) := by
  induction groups generalizing toAdd with
  | nil => cases toAdd <;> rfl
  | cons group groups ih =>
    cases toAdd with
    | nil => simp [joinMarks, ih]
    | cons target more =>
      simp only [map_cons, joinMarks, hgid, htest, ih]
      split_ifs <;> simp

theorem marks_contents (user : User) (toAdd : List Group) (layout : List CellGroup) :
    marks user toAdd (contents layout) = (joinMarks (insideCells user) toAdd layout).map fun mark =>
        (mark.1.withMembers (values mark.1.userList), mark.2) := by
  refine joinMarks_map (fun group : CellGroup => group.withMembers (values group.userList))
    (fun _ _ => rfl) (fun group => ?_) toAdd layout
  simp [inside, insideCells, values, comp_def]

theorem values_upperCells (user : User) (cells : List (ℕ × User)) :
    values (upperCells user cells) = upperMembers user (values cells) := by
  simp [values, upperCells, upperMembers, dropWhile_map, comp_def]

theorem values_lowerCells (user : User) (cells : List (ℕ × User)) :
    values (lowerCells user cells) = lowerMembers user (values cells) := by
  simp [values, lowerCells, lowerMembers, takeWhile_map, comp_def]

theorem values_sharedTail (user : User) (cellMarks : List (CellGroup × Bool))
    (tail : List (ℕ × User)) :
    values (sharedTail (upperCells user) cellMarks tail) = sharedTail (upperMembers user)
        (cellMarks.map fun mark => (mark.1.withMembers (values mark.1.userList), mark.2))
        (values tail) := by
  induction cellMarks generalizing tail with
  | nil => rfl
  | cons mark rest ih =>
    obtain ⟨group, joined⟩ := mark
    have hempty : values group.userList = [] ↔ group.userList = [] := map_eq_nil_iff
    simp only [sharedTail, map_cons, ih, userList_withMembers, ne_eq, hempty]
    split_ifs <;> simp [values_upperCells]

variable {user : User}

/-- A traversal of the merged lists finds the outcome on lists. -/
theorem readGroups_merged {heap result : UserHeap}
    {currUser : ℕ} {toAdd : List Group} {layout : List CellGroup}
    (hmerged : Merged heap result user currUser [] (joinMarks (insideCells user) toAdd layout)) :
    readGroups result (mergedPointers user currUser (joinMarks (insideCells user) toAdd layout)) =
      some (joinedGroups user toAdd (contents layout)) := by
  have htail := values_sharedTail user
    (joinMarks (insideCells user) toAdd layout) []
  rw [← marks_contents] at htail
  rw [readGroups, mapM_eq_some_iff, mergedPointers, joinedGroups, marks_contents,
    forall₂_map_left_iff, forall₂_map_right_iff,
    forall₂_map_right_iff, forall₂_same]
  intro mark hmark
  obtain ⟨group, joined⟩ := mark
  have hown := hmerged.own _ hmark
  cases joined with
  | false =>
    have hwalk := Linked.walk hown
    simp [ownCells] at hwalk
    simp [ownCells, hwalk]
  | true =>
    -- The group's own nodes run into the user's node and the shared tail.
    have hall : Linked result (lowerCells user group.userList ++
        (currUser, user) :: sharedTail (upperCells user)
          (joinMarks (insideCells user) toAdd layout) []) none :=
      linked_append.2 ⟨hown, hmerged.shared.curr, hmerged.shared.tail_linked⟩
    have hwalk := hall.walk
    rw [link_append, link_cons] at hwalk
    have hvalues : values (lowerCells user group.userList ++
        (currUser, user) :: sharedTail (upperCells user)
          (joinMarks (insideCells user) toAdd layout) []) =
        lowerMembers user (values group.userList) ++
          user :: finalTail user toAdd (contents layout) := by
      rw [finalTail, ← values_lowerCells]
      simpa [values] using htail
    simp [ownCells, hwalk, hvalues]

/-- The heap routine writes the outcome on lists. -/
theorem addUserToGroups_eq {after passwd group : List Byte} {groups : List Group}
    (hload : selectAllGroupsFromGroupFile after passwd group = some groups)
    (toAdd : List Group) (user : User) :
    addUserToGroups after passwd group toAdd user =
      updateGroupFile (joinedGroups user toAdd groups) := by
  obtain ⟨layout, rfl, hpointers, hlaid, hnew, hframe⟩ :=
    allocGroups_laidOut (Heap.empty.alloc ⟨user, none⟩) groups
  have hjoining : Joining (allocGroups (Heap.empty.alloc ⟨user, none⟩)
      (contents layout)).1 user 0 [] layout := by
    refine ⟨hlaid, ?_, hframe 0 Nat.one_pos, trivial, by simp [addresses]⟩
    intro group hgroup hmem
    exact absurd (hnew group hgroup 0 hmem) (by simp [Heap.alloc, Heap.empty])
  obtain ⟨result, hloop, hmerged⟩ := joinLoop_merged hjoining toAdd
  simp [addUserToGroups, hload, hpointers, hloop, readGroups_merged hmerged]

def gids (groups : List Group) : List ℤ :=
  groups.map GroupOf.gid

/-- The merge meets `group` when it is asked for and every smaller gid asked
for is met, once. -/
def Reached (toAdd groups : List Group) (group : Group) : Prop :=
  group.gid ∈ gids toAdd ∧ ∀ gid ∈ gids toAdd, gid < group.gid →
    (gids toAdd).count gid = 1 ∧ gid ∈ gids groups
  deriving Decidable

theorem gids_cons (group : Group) (groups : List Group) :
    gids (group :: groups) = group.gid :: gids groups := rfl

section Merge

variable {target first group : Group} {more rest : List Group}

/-- Both heads match: the first group is met, and the others as by the rest. -/
theorem reached_match (hlater : ∀ gid ∈ gids rest, first.gid < gid)
    (hmatch : target.gid = first.gid) (hgroup : group ∈ rest) :
    Reached (target :: more) (first :: rest) group ↔ Reached more rest group := by
  have hgid : first.gid < group.gid := hlater _ (mem_map_of_mem hgroup)
  simp only [Reached, gids_cons, mem_cons]
  constructor
  · rintro ⟨hmem, hsmaller⟩
    refine ⟨hmem.resolve_left (by omega), fun gid hin hlt => ?_⟩
    obtain ⟨hcount, hfound⟩ := hsmaller gid (.inr hin) hlt
    have hpos := count_pos_iff.2 hin
    have hne : gid ≠ target.gid := by
      rintro rfl
      rw [count_cons_self] at hcount
      omega
    rw [count_cons_of_ne (Ne.symm hne)] at hcount
    exact ⟨hcount, hfound.resolve_left (by omega)⟩
  · rintro ⟨hmem, hsmaller⟩
    have hfresh : target.gid ∉ gids more := by
      intro hin
      have := hlater _ (hsmaller target.gid hin (by omega)).2
      omega
    refine ⟨.inr hmem, fun gid hin hlt => ?_⟩
    rcases hin with rfl | hin
    · rw [count_cons_self, count_eq_zero.2 hfresh]
      exact ⟨rfl, .inl hmatch⟩
    · obtain ⟨hcount, hfound⟩ := hsmaller gid hin hlt
      have hne : gid ≠ target.gid := by
        rintro rfl
        exact hfresh hin
      rw [count_cons_of_ne (Ne.symm hne)]
      exact ⟨hcount, .inr hfound⟩

/-- The heads differ: only the list of groups advances. -/
theorem reached_skip (hsorted : ∀ gid ∈ gids more, target.gid ≤ gid)
    (hlater : ∀ gid ∈ gids rest, first.gid < gid)
    (hmatch : target.gid ≠ first.gid) (hgroup : group ∈ rest) :
    Reached (target :: more) (first :: rest) group ↔ Reached (target :: more) rest group := by
  have hgid : first.gid < group.gid := hlater _ (mem_map_of_mem hgroup)
  have hhead : ∀ gid ∈ gids (target :: more), target.gid ≤ gid := by
    simpa [gids_cons] using hsorted
  rcases lt_or_gt_of_ne hmatch with hlt | hgt
  · -- The target lies below all groups left, so nothing is met any more.
    have hstuck : ∀ list : List Group, (∀ gid ∈ gids list, first.gid ≤ gid) →
        ¬ Reached (target :: more) list group := by
      intro list hlist hreached
      have hfound := (hreached.2 target.gid (by simp [gids_cons]) (by omega)).2
      have := hlist _ hfound
      omega
    refine iff_of_false (hstuck _ ?_) (hstuck _ fun gid hin => ?_)
    · intro gid hin
      rcases mem_cons.1 hin with rfl | hin
      · exact le_refl _
      · exact (hlater gid hin).le
    · exact (hlater gid hin).le
  · refine and_congr_right fun _ => forall₃_congr fun gid hin _ =>
      and_congr_right fun _ => ?_
    have hne : gid ≠ first.gid := by
      have := hhead gid hin
      omega
    rw [gids_cons, mem_cons, or_iff_right hne]

theorem not_reached_skip (hsorted : ∀ gid ∈ gids more, target.gid ≤ gid)
    (hlater : ∀ gid ∈ gids rest, first.gid < gid) (hmatch : target.gid ≠ first.gid) :
    ¬ Reached (target :: more) (first :: rest) first := by
  rintro ⟨hmem, hsmaller⟩
  rw [gids_cons, mem_cons] at hmem
  have hle := hsorted _ (hmem.resolve_left (Ne.symm hmatch))
  have hfound := (hsmaller target.gid (by simp [gids_cons])
    (lt_of_le_of_ne hle hmatch)).2
  rw [gids_cons, mem_cons] at hfound
  have := hlater _ (hfound.resolve_left hmatch)
  omega

/-- The merge, described group by group. -/
theorem joinMarks_eq_map {test : Group → Bool} {toAdd groups : List Group}
    (hsorted : (gids toAdd).Pairwise (· ≤ ·)) (hgroups : (gids groups).Pairwise (· < ·)) :
    joinMarks test toAdd groups = groups.map fun group =>
      (group, decide (Reached toAdd groups group) && !test group) := by
  induction groups generalizing toAdd with
  | nil => cases toAdd <;> rfl
  | cons first rest ih =>
    obtain ⟨hlater, hrest⟩ := pairwise_cons.1 hgroups
    cases toAdd with
    | nil =>
      have hnone : ∀ list group, ¬ Reached [] list group := fun _ _ h =>
        absurd h.1 (by simp [gids])
      simp [joinMarks, ih hsorted hrest, hnone]
    | cons target more =>
      obtain ⟨hhead, hmore⟩ := pairwise_cons.1 hsorted
      rw [joinMarks, map_cons]
      by_cases hmatch : target.gid = first.gid
      · have hfirst : Reached (target :: more) (first :: rest) first := by
          refine ⟨by simp [gids_cons, hmatch], fun gid hin hlt => ?_⟩
          have : target.gid ≤ gid := by
            rcases mem_cons.1 hin with rfl | hin
            · exact le_refl _
            · exact hhead gid hin
          omega
        rw [if_pos ((compareGroups_eq_zero _ _).2 hmatch), ih hmore hrest]
        simp only [hfirst, decide_true, Bool.true_and, cons.injEq, true_and]
        refine map_congr_left fun group hgroup => ?_
        simp only [reached_match hlater hmatch hgroup]
      · rw [if_neg (fun h => hmatch ((compareGroups_eq_zero _ _).1 h)),
          ih hsorted hrest]
        simp only [not_reached_skip hhead hlater hmatch, decide_false,
          Bool.false_and, cons.injEq, true_and]
        refine map_congr_left fun group hgroup => ?_
        simp only [reached_skip hhead hlater hmatch hgroup]

end Merge

def findGroup (groups : List Group) (name : List Byte) : Option Group :=
  groups.find? fun group => group.groupname = name

variable {group : Group} {member : User} {members : List User} {names : List Byte}

section Named

variable {db : Database}

theorem findGroup_of_mem (hgroup : group ∈ db.groups) :
    findGroup db.groups group.groupname = some group := by
  cases hfind : findGroup db.groups group.groupname with
  | none =>
    have := find?_eq_none.1 hfind group hgroup
    simp at this
  | some found =>
    have hmem := mem_of_find?_eq_some hfind
    have hname : found.groupname = group.groupname := by
      simpa using find?_some hfind
    rw [inj_on_of_nodup_map db.groupnames hmem hgroup hname]

/-- Names of existing groups are found, each as often as it is given. -/
theorem getMultipleGroupsFromString_eq (hnames : ∀ name ∈ names.splitOn comma,
      ∃ group ∈ db.groups, group.groupname = name) (beyond : List Byte) :
    getMultipleGroupsFromString (0 :: beyond) db.passwd db.group names =
      some (insertAll compareGroups ((names.splitOn comma).filterMap (findGroup db.groups))) := by
  have hfits : ∀ name ∈ names.splitOn comma, name.length < stringSize := by
    intro name hname
    obtain ⟨group, hgroup, rfl⟩ := hnames name hname
    exact (db.groupKeys group hgroup).groupname.fits
  have hzero : 0 ∉ names := by
    intro hmem
    obtain ⟨name, hname, hzero⟩ := exists_piece_of_mem hmem (show (0 : Byte) ≠ comma by decide)
    obtain ⟨group, hgroup, rfl⟩ := hnames name hname
    exact ((db.groupKeys group hgroup).groupname.bytes 0 hzero).2.2 rfl
  have hread := readNames_splitOn hzero hfits [] (length_splitOn_le comma names)
  have hfind : getGroupFromGroupname (0 :: beyond) db.passwd db.group =
      fun name => some (findGroup db.groups name) := by
    funext name
    simp [getGroupFromGroupname, db.groups_load, findGroup]
  simp only [getMultipleGroupsFromString, hread, hfind, mapM_total,
    Option.bind_eq_bind, Option.bind_some, filterMap_map]
  rfl

/-- A gid is asked for as often as its group is named. -/
theorem count_gids (hgroup : group ∈ db.groups) {names : List (List Byte)}
    (hnames : ∀ name ∈ names, ∃ group ∈ db.groups, group.groupname = name) :
    (gids (names.filterMap (findGroup db.groups))).count group.gid =
      names.count group.groupname := by
  induction names with
  | nil => rfl
  | cons name rest ih =>
    obtain ⟨named, hnamed, rfl⟩ := hnames name (by simp)
    rw [filterMap_cons_some (findGroup_of_mem hnamed), gids_cons, count_cons, count_cons,
      ih fun name hname => hnames name (by simp [hname])]
    congr 1
    have hsame : named.gid = group.gid ↔ named.groupname = group.groupname := by
      constructor <;> intro h
      · rw [inj_on_of_nodup_map db.gids hnamed hgroup h]
      · rw [inj_on_of_nodup_map db.groupnames hnamed hgroup h]
    simp [hsame]

def namedGroups (db : Database) (names : List Byte) : List Group :=
  insertAll compareGroups ((names.splitOn comma).filterMap (findGroup db.groups))

/-- The merge meets a named group unless a group with a smaller gid is named
twice. -/
theorem reached_iff
    (hnames : ∀ name ∈ names.splitOn comma, ∃ group ∈ db.groups, group.groupname = name)
    (hgroup : group ∈ db.groups) :
    Reached (namedGroups db names) db.groups group ↔ group.groupname ∈ names.splitOn comma ∧
        ∀ other ∈ db.groups, other.gid < group.gid →
          (names.splitOn comma).count other.groupname ≤ 1 := by
  have hperm : (gids (namedGroups db names)).Perm
      (gids ((names.splitOn comma).filterMap (findGroup db.groups))) := (perm_insertAll _).map _
  have hcount : ∀ other ∈ db.groups, (gids (namedGroups db names)).count other.gid =
        (names.splitOn comma).count other.groupname := fun other hother =>
    (hperm.count_eq other.gid).trans (count_gids hother hnames)
  have hmem : ∀ other ∈ db.groups, other.gid ∈ gids (namedGroups db names) ↔
      other.groupname ∈ names.splitOn comma := fun other hother => by
    rw [← count_pos_iff, hcount other hother, count_pos_iff]
  have hfound : ∀ gid ∈ gids (namedGroups db names), ∃ other ∈ db.groups, other.gid = gid := by
    intro gid hgid
    obtain ⟨other, hother, rfl⟩ := mem_map.1 (hperm.mem_iff.1 hgid)
    obtain ⟨name, -, hfind⟩ := mem_filterMap.1 hother
    exact ⟨other, mem_of_find?_eq_some hfind, rfl⟩
  rw [Reached, hmem group hgroup]
  refine and_congr_right fun _ => ⟨fun hsmaller other hother hlt => ?_,
    fun hsmaller gid hgid hlt => ?_⟩
  · by_cases hasked : other.gid ∈ gids (namedGroups db names)
    · rw [← hcount other hother]
      exact (hsmaller other.gid hasked hlt).1.le
    · rw [← hcount other hother, count_eq_zero.2 hasked]
      exact Nat.zero_le 1
  · obtain ⟨other, hother, rfl⟩ := hfound gid hgid
    have hpos := count_pos_iff.2 hgid
    have hle := hsmaller other hother hlt
    rw [← hcount other hother] at hle
    exact ⟨by omega, mem_map_of_mem hother⟩

theorem inside_iff (huser : user ∈ db.users)
    (hgroup : group ∈ db.groups) : inside user group = true ↔ user ∈ group.userList := by
  rw [inside, any_eq_true]
  constructor
  · rintro ⟨member, hmember, hsame⟩
    have huid : member.uid = user.uid := (compareUsers_eq_zero _ _).1 (by simpa using hsame)
    have hin := (Database.members_resolved hgroup hmember).1
    rwa [← inj_on_of_nodup_map db.uids hin huser huid]
  · intro hmember
    exact ⟨user, hmember, by simp [compareUsers_eq_zero]⟩

theorem gids_pairwise : (gids db.groups).Pairwise (· < ·) := by
  have hsorted : (gids db.groups).Pairwise (· ≤ ·) := pairwise_map.2 db.groups_sorted
  exact (hsorted.and db.gids).imp fun h => lt_of_le_of_ne h.1 h.2

theorem namedGroups_sorted (names : List Byte) : (gids (namedGroups db names)).Pairwise (· ≤ ·) :=
  pairwise_map.2 (insertAll_sorted compareGroups_pos _)

end Named

theorem sharedTail_mem {β : Type} {upper : List β → List β}
    (groups : List (GroupOf (List β) × Bool)) (tail : List β) :
    sharedTail upper groups tail = tail ∨ ∃ mark ∈ groups, mark.2 = true ∧
        sharedTail upper groups tail = upper mark.1.userList := by
  induction groups generalizing tail with
  | nil => exact .inl rfl
  | cons mark rest ih =>
    rw [sharedTail]
    rcases ih (if mark.2 = true ∧ mark.1.userList ≠ [] then
      upper mark.1.userList else tail) with htail | ⟨other, hother, hjoined, htail⟩
    · rw [htail]
      split_ifs with hmark
      · exact .inr ⟨mark, by simp, hmark.1, rfl⟩
      · exact .inl rfl
    · exact .inr ⟨other, by simp [hother], hjoined, htail⟩

/-- When all lists agree on what comes after the user, that is the tail. -/
theorem sharedTail_eq {β : Type} {upper : List β → List β}
    (hupper : upper [] = []) {groups : List (GroupOf (List β) × Bool)} {common : List β}
    (hagree : ∀ mark ∈ groups, mark.2 = true → upper mark.1.userList = common)
    (hsome : ∃ mark ∈ groups, mark.2 = true) : sharedTail upper groups [] = common := by
  have hstart : ∀ (groups : List (GroupOf (List β) × Bool)) (tail : List β),
      (∀ mark ∈ groups, mark.2 = true → upper mark.1.userList = common) →
      (tail = common ∨ ∃ mark ∈ groups, mark.2 = true ∧
        mark.1.userList ≠ []) → sharedTail upper groups tail = common := by
    intro groups
    induction groups with
    | nil => rintro tail - (htail | ⟨mark, hmark, -⟩)
             · exact htail
             · simp at hmark
    | cons mark rest ih =>
      intro tail hagree hfound
      refine ih _ (fun other hother => hagree other (by simp [hother])) ?_
      split_ifs with hmark
      · exact .inl (hagree mark (by simp) hmark.1)
      · rcases hfound with htail | ⟨other, hother, hjoined⟩
        · exact .inl htail
        · rcases mem_cons.1 hother with rfl | hother
          · exact absurd hjoined hmark
          · exact .inr ⟨other, hother, hjoined⟩
  obtain ⟨mark, hmark, hjoined⟩ := hsome
  refine hstart groups [] hagree ?_
  by_cases hempty : mark.1.userList = []
  · have hcommon := hagree mark hmark hjoined
    rw [hempty, hupper] at hcommon
    exact .inl hcommon
  · exact .inr ⟨mark, hmark, hjoined, hempty⟩

def Target (names : List Byte) (user : User) (group : Group) : Prop :=
  group.groupname ∈ names.splitOn comma ∧ user ∉ group.userList
  deriving Decidable

/-- `new` is `old` after the call: the members are the old ones, and the user
if the group is named. -/
structure Joins (names : List Byte) (user : User) (old new : Group) : Prop where
  groupname : new.groupname = old.groupname
  gid : new.gid = old.gid
  members : new.userList.Perm (if Target names user old then user :: old.userList else old.userList)

/-- Looking up the names, adding the user and loading the file again changes
the memberships of the user only, and only as asked. -/
def AddsExactly (db : Database) (beyond beyond' names : List Byte) (user : User) : Prop :=
  ∃ toAdd content reloaded, getMultipleGroupsFromString (0 :: beyond) db.passwd db.group names =
      some toAdd ∧
    addUserToGroups (0 :: beyond) db.passwd db.group toAdd user = some content ∧
    selectAllGroupsFromGroupFile (0 :: beyond') db.passwd content = some reloaded ∧
    List.Forall₂ (Joins names user) db.groups reloaded

def membersAbove (user : User) (group : Group) : List User :=
  group.userList.filter fun member => user.uid < member.uid

section Claim

variable {db : NamedDatabase} {user : User} {names : List Byte}

theorem upperMembers_eq_filter (hgroup : group ∈ db.groups) :
    upperMembers user group.userList = membersAbove user group := by
  have hsorted := Database.members_sorted hgroup
  rw [upperMembers, membersAbove]
  generalize group.userList = members at hsorted
  have hle : ∀ member : User, compareUsers member user ≤ 0 ↔
      ¬ user.uid < member.uid := fun member => by
    rw [← compareUsers_pos, not_lt]
  induction members with
  | nil => rfl
  | cons member rest ih =>
    by_cases habove : user.uid < member.uid
    · have hall : ∀ other ∈ member :: rest, user.uid < other.uid := by
        intro other hother
        rcases mem_cons.1 hother with rfl | hother
        · exact habove
        · exact habove.trans_le ((pairwise_cons.1 hsorted).1 other hother)
      rw [dropWhile_cons_of_neg (by simpa [hle] using habove),
        filter_eq_self.2 (by simpa using hall)]
    · rw [dropWhile_cons_of_pos (by simpa [hle] using habove),
        filter_cons_of_neg (by simpa using habove), ih hsorted.tail]

/-- The merge inserts into `group`. -/
def Receives (db : NamedDatabase) (names : List Byte) (user : User) (group : Group) : Prop :=
  Reached (namedGroups db.toDatabase names) db.groups group ∧ user ∉ group.userList
  deriving Decidable

def tailAfter (db : NamedDatabase) (names : List Byte) (user : User) : List User :=
  finalTail user (namedGroups db.toDatabase names) db.groups

def written (db : NamedDatabase) (names : List Byte) (user : User) (group : Group) : Group :=
  if Receives db names user group then
    group.withMembers (lowerMembers user group.userList ++ user :: tailAfter db names user)
  else group

section

variable (huser : user ∈ db.users)

include huser

theorem marks_eq :
    marks user (namedGroups db.toDatabase names) db.groups = db.groups.map fun group =>
        (group, decide (Receives db names user group)) := by
  rw [marks, joinMarks_eq_map (namedGroups_sorted names) gids_pairwise]
  refine map_congr_left fun group hgroup => ?_
  have hinside := inside_iff huser hgroup
  by_cases hmem : user ∈ group.userList <;> simp_all [Receives]

theorem joinedGroups_eq :
    joinedGroups user (namedGroups db.toDatabase names) db.groups =
      db.groups.map (written db names user) := by
  rw [joinedGroups, marks_eq huser, map_map]
  refine map_congr_left fun group _ => ?_
  simp [written, tailAfter]

theorem tailAfter_mem (names : List Byte) :
    tailAfter db names user = [] ∨ ∃ group ∈ db.groups, Receives db names user group ∧
        tailAfter db names user = upperMembers user group.userList := by
  rcases sharedTail_mem (marks user (namedGroups db.toDatabase names) db.groups)
    [] with htail | ⟨mark, hmark, hjoined, htail⟩
  · exact .inl htail
  · rw [marks_eq huser] at hmark
    obtain ⟨group, hgroup, rfl⟩ := mem_map.1 hmark
    exact .inr ⟨group, hgroup, by simpa using hjoined, htail⟩

theorem tailAfter_resolved
    (hmember : member ∈ tailAfter db names user) : member ∈ db.users ∧ comma ∉ member.username := by
  rcases tailAfter_mem huser names with htail | ⟨group, hgroup, -, htail⟩
  · simp [htail] at hmember
  · rw [htail] at hmember
    exact Database.members_resolved hgroup ((dropWhile_sublist _).subset hmember)

theorem tailAfter_sorted : SortedBy User.uid (tailAfter db names user) := by
  rcases tailAfter_mem huser names with htail | ⟨group, hgroup, -, htail⟩
  · rw [htail]
    exact List.Pairwise.nil
  · rw [htail]
    exact (Database.members_sorted hgroup).sublist (dropWhile_sublist _)

theorem written_members (hgroup : group ∈ db.groups)
    (hmember : member ∈ (written db names user group).userList) :
    member = user ∨ member ∈ db.users ∧ comma ∉ member.username := by
  rw [written] at hmember
  split_ifs at hmember
  · simp only [userList_withMembers, mem_append, mem_cons] at hmember
    rcases hmember with hlower | rfl | htail
    · exact .inr (Database.members_resolved hgroup ((takeWhile_sublist _).subset hlower))
    · exact .inl rfl
    · exact .inr (tailAfter_resolved huser htail)
  · exact .inr (Database.members_resolved hgroup hmember)

end

def reloadedMembers (db : NamedDatabase) (members : List User) : List User :=
  insertAll compareUsers ((memberNames members).filterMap (findUser db.users))

theorem reloadedMembers_perm
    (hmembers : ∀ member ∈ members, member ∈ db.users ∧ comma ∉ member.username) :
    (reloadedMembers db members).Perm members := by
  rw [reloadedMembers, resolve_memberNames db.usernames (fun _ => db.named) hmembers]
  exact perm_insertAll members

/-- Only names without a comma are ever read back. -/
theorem comma_free_of_reloaded
    (hmember : member ∈ reloadedMembers db members) : comma ∉ member.username := by
  obtain ⟨name, hname, hfind⟩ := mem_filterMap.1 ((perm_insertAll _).mem_iff.1 hmember)
  rw [(findUser_eq_some hfind).2]
  unfold memberNames at hname
  split_ifs at hname
  · simp_all
  · obtain ⟨user, -, hpiece⟩ := mem_flatMap.1 hname
    exact (mem_splitOn hpiece).1

/-- The property, group by group. -/
theorem addsExactly_iff_forall (huser : user ∈ db.users)
    (hnames : ∀ name ∈ names.splitOn comma, ∃ group ∈ db.groups, group.groupname = name)
    (beyond beyond' : List Byte) :
    AddsExactly db.toDatabase beyond beyond' names user ↔
      ∀ group ∈ db.groups, GroupFits (written db names user group) ∧
        (reloadedMembers db (written db names user group).userList).Perm
          (if Target names user group then user :: group.userList else group.userList) := by
  have hlookup := getMultipleGroupsFromString_eq hnames beyond
  have hkeys : ∀ group, (written db names user group).groupname =
      group.groupname ∧ (written db names user group).gid = group.gid := by
    intro group
    rw [written]
    split_ifs <;> exact ⟨rfl, rfl⟩
  have hreload : ∀ {content}, updateGroupFile
      (db.groups.map (written db names user)) = some content →
      selectAllGroupsFromGroupFile (0 :: beyond') db.passwd content =
        some (db.groups.map fun group => (written db names user group).withMembers
          (reloadedMembers db (written db names user group).userList)) := by
    intro content hwrite
    rw [db.reload_groups ?_ ?_ ?_ hwrite, map_map]
    · rfl
    · intro group hgroup
      obtain ⟨old, hold, rfl⟩ := mem_map.1 hgroup
      have hold' := db.groupKeys old hold
      exact ⟨(hkeys old).1 ▸ hold'.groupname, (hkeys old).2 ▸ hold'.gid,
        (hkeys old).2 ▸ hold'.gid_nonneg⟩
    · intro group hgroup member hmember
      obtain ⟨old, hold, rfl⟩ := mem_map.1 hgroup
      rcases written_members huser hold hmember with rfl | hin
      · exact huser
      · exact hin.1
    · refine pairwise_map.2 (db.groups_sorted.imp fun h => ?_)
      rwa [(hkeys _).2, (hkeys _).2]
  have hadd := addUserToGroups_eq (db.groups_load beyond)
    (namedGroups db.toDatabase names) user
  rw [joinedGroups_eq huser] at hadd
  constructor
  · rintro ⟨toAdd, content, reloaded, htoAdd, hcontent, hload, hjoins⟩
    cases hlookup.symm.trans htoAdd
    have hwrite := hadd.symm.trans hcontent
    cases (hreload hwrite).symm.trans hload
    rw [forall₂_map_right_iff, forall₂_same] at hjoins
    intro group hgroup
    exact ⟨(updateGroupFile_eq_some.1 hwrite).1 _ (mem_map_of_mem hgroup),
      (hjoins group hgroup).members⟩
  · intro hall
    have hwrite := updateGroupFile_eq_some.2
      ⟨fun group hgroup => by
        obtain ⟨old, hold, rfl⟩ := mem_map.1 hgroup
        exact (hall old hold).1, rfl⟩
    refine ⟨_, _, _, hlookup, hadd.trans hwrite, hreload hwrite, ?_⟩
    rw [forall₂_map_right_iff, forall₂_same]
    intro group hgroup
    exact ⟨(hkeys group).1, (hkeys group).2, (hall group hgroup).2⟩

theorem receives_iff (hnames : ∀ name ∈ names.splitOn comma,
      ∃ group ∈ db.groups, group.groupname = name) (hgroup : group ∈ db.groups) :
    Receives db names user group ↔ Target names user group ∧
      ∀ other ∈ db.groups, other.gid < group.gid →
        (names.splitOn comma).count other.groupname ≤ 1 := by
  rw [Receives, reached_iff hnames hgroup, Target]
  tauto

/-- A list that gained the user, when the tail is its own upper part. -/
theorem written_eq_insert (hreceives : Receives db names user group)
    (htail : tailAfter db names user = upperMembers user group.userList) :
    written db names user group =
      group.withMembers (insertSorted compareUsers group.userList user) := by
  rw [written, if_pos hreceives, htail, insertSorted_eq]
  rfl

/-- A target gains exactly the user only if the tail is its own upper part. -/
theorem tailAfter_eq_of_perm (huser : user ∈ db.users)
    (hgroup : group ∈ db.groups) (hcomma : comma ∉ user.username)
    (hreceives : Receives db names user group)
    (hperm : (reloadedMembers db (written db names user group).userList).Perm
      (user :: group.userList)) : tailAfter db names user = upperMembers user group.userList := by
  have hmembers : ∀ member ∈ (written db names user group).userList,
      member ∈ db.users ∧ comma ∉ member.username := by
    intro member hmember
    rcases written_members huser hgroup hmember with rfl | hin
    · exact ⟨huser, hcomma⟩
    · exact hin
  have hwritten := (reloadedMembers_perm hmembers).symm.trans hperm
  rw [written, if_pos hreceives, userList_withMembers] at hwritten
  have hsplit : (lowerMembers user group.userList ++
      upperMembers user group.userList) = group.userList := takeWhile_append_dropWhile
  -- Cancel the user and the lower part on both sides.
  have hcancel : (tailAfter db names user).Perm (upperMembers user group.userList) := by
    have hcons := perm_middle.symm.trans hwritten
    rw [perm_cons] at hcons
    nth_rewrite 2 [← hsplit] at hcons
    exact (perm_append_left_iff _).1 hcons
  refine (tailAfter_sorted huser).eq_of_perm
    ((Database.members_sorted hgroup).sublist (dropWhile_sublist _)) hcancel ?_
  intro a ha b hb huid
  exact inj_on_of_nodup_map db.uids (tailAfter_resolved huser ha).1
    (tailAfter_resolved huser hb).1 huid

theorem tailAfter_eq_of_agree (huser : user ∈ db.users)
    (hgroup : group ∈ db.groups) (hreceives : Receives db names user group)
    (hagree : ∀ other ∈ db.groups, Receives db names user other →
      membersAbove user other = membersAbove user group) :
    tailAfter db names user = upperMembers user group.userList := by
  refine sharedTail_eq rfl ?_ ?_
  · intro mark hmark hjoined
    rw [marks_eq huser] at hmark
    obtain ⟨other, hother, rfl⟩ := mem_map.1 hmark
    rw [upperMembers_eq_filter hother, upperMembers_eq_filter hgroup]
    exact hagree other hother (by simpa using hjoined)
  · rw [marks_eq huser]
    exact ⟨_, mem_map_of_mem hgroup, by simpa using hreceives⟩

end Claim

/-- Group `a` with the member `sam`, and group `b` without members. -/
def twoGroups : List Group :=
  [⟨str "a", 1, [sam]⟩, ⟨str "b", 2, []⟩]

theorem storable_twoGroups : Storable [ken, sam] twoGroups := by
  decide +kernel

def sampleFiles : NamedDatabase :=
  NamedDatabase.store [ken, sam] twoGroups storable_twoGroups

end Xv6Users.JoinGroups
