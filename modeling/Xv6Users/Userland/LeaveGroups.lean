import Xv6Users.Userland.LoadedFiles
import Xv6Users.Userland.MemberLists

/-!
# Removing a user from groups

`removeUserFromCurrGroup` unlinks nodes while it walks a member list.  After an
unlinking it steps to the successor of the removed node without looking at it,
so a removed last node makes the walk follow a null pointer and a second node
of the user directly behind the first one stays.
-/

namespace Xv6Users.LeaveGroups

open List Option Function

open ScannedText SortedInsert LinkedNodes Ulib UserRecords GroupRecords LoadedFiles MemberLists

variable {layout : List CellGroup} {members : List User} {cells kept : List (ℕ × User)}
  {group : Group}

/-- The unlinking walk on a list.  The empty list is a null pointer that is
followed. -/
def unlinkTail {β : Type} (same : β → Bool) : List β → Option (List β)
  | [] => none
  | [member] => some [member]
  | member :: next :: rest =>
    if same next then (unlinkTail same rest).map (member :: ·)
    else (unlinkTail same (next :: rest)).map (member :: ·)

/-- What `removeUserFromCurrGroup` leaves of a list. -/
def removeMember {β : Type} (same : β → Bool) (own : Bool) :
    List β → Option (List β)
  | [] => some []
  | first :: rest =>
    if own then some (first :: rest)
    else if same first then some rest
    else unlinkTail same (first :: rest)

section Walk

variable {β : Type} {same : β → Bool}

theorem unlinkTail_head {member : β} {rest kept : List β}
    (hkept : unlinkTail same (member :: rest) = some kept) : ∃ others, kept = member :: others := by
  cases rest with
  | nil => exact ⟨[], (some.inj hkept).symm⟩
  | cons next rest =>
    rw [unlinkTail] at hkept
    split_ifs at hkept <;>
      exact (map_eq_some_iff.1 hkept).imp fun _ h => h.2.symm

theorem unlinkTail_sublist {members kept : List β}
    (hkept : unlinkTail same members = some kept) : kept.Sublist members := by
  fun_induction unlinkTail same members generalizing kept with
  | case1 => simp at hkept
  | case2 member =>
    cases hkept
    exact List.Sublist.refl _
  | case3 member next rest hsame ih =>
    obtain ⟨others, hothers, rfl⟩ := map_eq_some_iff.1 hkept
    exact ((ih hothers).cons next).cons_cons member
  | case4 member next rest hsame ih =>
    obtain ⟨others, hothers, rfl⟩ := map_eq_some_iff.1 hkept
    exact (ih hothers).cons_cons member

theorem removeMember_sublist {own : Bool} {members kept : List β}
    (hkept : removeMember same own members = some kept) : kept.Sublist members := by
  cases members with
  | nil =>
    cases hkept
    exact List.Sublist.refl _
  | cons first rest =>
    rw [removeMember] at hkept
    split_ifs at hkept
    · cases hkept
      exact List.Sublist.refl _
    · cases hkept
      exact sublist_cons_self first _
    · exact unlinkTail_sublist hkept

theorem unlinkTail_map {γ : Type} {f : β → γ} {test : γ → Bool}
    (htest : ∀ member, test (f member) = same member) (members : List β) :
    unlinkTail test (members.map f) = (unlinkTail same members).map (map f) := by
  fun_induction unlinkTail same members with
  | case1 => rfl
  | case2 member => rfl
  | case3 member next rest hsame ih => simp [unlinkTail, htest, hsame, ih, comp_def]
  | case4 member next rest hsame ih =>
    simp only [map_cons] at ih
    simp [unlinkTail, htest, hsame, ih, comp_def]

theorem removeMember_map {γ : Type} {f : β → γ} {test : γ → Bool}
    (htest : ∀ member, test (f member) = same member) (own : Bool) (members : List β) :
    removeMember test own (members.map f) = (removeMember same own members).map (map f) := by
  cases members with
  | nil => rfl
  | cons first rest =>
    have hwalk := unlinkTail_map htest (first :: rest)
    simp only [map_cons] at hwalk
    simp only [map_cons, removeMember, htest, hwalk]
    split_ifs <;> rfl

theorem unlinkTail_absent {member : β} {rest : List β}
    (habsent : ∀ other ∈ rest, same other = false) :
    unlinkTail same (member :: rest) = some (member :: rest) := by
  induction rest generalizing member with
  | nil => rfl
  | cons next rest ih =>
    have hnext : same next = false := habsent next (by simp)
    simp [unlinkTail, hnext, ih fun other hother => habsent other (by simp [hother])]

/-- Up to the first match the list is kept; the walk resumes behind it. -/
theorem unlinkTail_found {member found : β} {front back : List β}
    (hfront : ∀ other ∈ front, same other = false) (hfound : same found = true) :
    unlinkTail same (member :: (front ++ found :: back)) =
      (unlinkTail same back).map (member :: front ++ ·) := by
  induction front generalizing member with
  | nil => simp [unlinkTail, hfound]
  | cons next front ih =>
    have hnext : same next = false := hfront next (by simp)
    rw [cons_append, unlinkTail, if_neg (by simp [hnext]),
      ih fun other hother => hfront other (by simp [hother]), Option.map_map]
    rfl

end Walk

section Heap

variable {heap : UserHeap} {user : User}

def sameCell (user : User) (cell : ℕ × User) : Bool :=
  compareUsers cell.2 user = 0

section Step

variable {cell next : ℕ × User} {rest : List (ℕ × User)}

section

variable (hlinked : Linked heap (cell :: next :: rest) none)

include hlinked

theorem unlinkLoop_same (hsame : sameCell user next = true) (fuel : ℕ) :
    unlinkLoop user (fuel + 1) heap (some cell.1) =
      unlinkLoop user fuel (heap.setNext cell.1 (link rest none)) (link rest none) := by
  have hcompare : compareUsers next.2 user = 0 := by simpa [sameCell] using hsame
  simp [unlinkLoop, hlinked.1, hlinked.2.1, hcompare]

theorem unlinkLoop_other (hother : ¬ sameCell user next = true) (fuel : ℕ) :
    unlinkLoop user (fuel + 1) heap (some cell.1) = unlinkLoop user fuel heap (some next.1) := by
  have hcompare : ¬ compareUsers next.2 user = 0 := by
    simpa [sameCell] using hother
  simp [unlinkLoop, hlinked.1, hlinked.2.1, hcompare]

theorem linked_of_unlinked : Linked (heap.setNext cell.1 (link rest none)) rest none := by
  refine hlinked.2.2.congr fun a ha => setNext_of_ne ?_ _
  rintro rfl
  exact (nodup_cons.1 hlinked.nodup).1 (.tail next.1 ha)

end

end Step

theorem unlinkLoop_none (hlinked : Linked heap cells none) (fuel : ℕ)
    (hnone : unlinkTail (sameCell user) cells = none) :
    unlinkLoop user fuel heap (link cells none) = none := by
  fun_induction unlinkTail (sameCell user) cells generalizing heap fuel with
  | case1 => cases fuel <;> rfl
  | case2 cell => simp at hnone
  | case3 cell next rest hsame ih =>
    cases fuel with
    | zero => rfl
    | succ fuel =>
      rw [link_cons, unlinkLoop_same hlinked hsame]
      exact ih (linked_of_unlinked hlinked) fuel (by simpa using hnone)
  | case4 cell next rest hother ih =>
    cases fuel with
    | zero => rfl
    | succ fuel =>
      rw [link_cons, unlinkLoop_other hlinked hother]
      exact ih hlinked.2 fuel (by simpa using hnone)

theorem unlinkLoop_some (hlinked : Linked heap cells none) {fuel : ℕ}
    (hfuel : cells.length ≤ fuel) (hkept : unlinkTail (sameCell user) cells = some kept) :
    ∃ result, unlinkLoop user fuel heap (link cells none) = some result ∧ Linked result kept none ∧
      ∀ a, a ∉ addresses cells → result.node a = heap.node a := by
  fun_induction unlinkTail (sameCell user) cells generalizing heap fuel kept with
  | case1 => simp at hkept
  | case2 cell =>
    obtain ⟨fuel, rfl⟩ : ∃ k, fuel = k + 1 := ⟨fuel - 1, by simp at hfuel; omega⟩
    cases hkept
    exact ⟨heap, by simp [unlinkLoop, hlinked.1], hlinked, fun _ _ => rfl⟩
  | case3 cell next rest hsame ih =>
    obtain ⟨fuel, rfl⟩ : ∃ k, fuel = k + 1 := ⟨fuel - 1, by simp at hfuel; omega⟩
    obtain ⟨others, hothers, rfl⟩ := map_eq_some_iff.1 hkept
    have hrest : rest.length ≤ fuel := by
      simp at hfuel
      omega
    obtain ⟨result, hloop, hresult, hframe⟩ := ih (linked_of_unlinked hlinked) hrest hothers
    have hnodup := nodup_cons.1 hlinked.nodup
    -- The walk went on behind the removed node, whose successor it kept.
    have hlink : link others none = link rest none := by
      cases rest with
      | nil => simp [unlinkTail] at hothers
      | cons third rest =>
        obtain ⟨more, rfl⟩ := unlinkTail_head hothers
        rfl
    refine ⟨result, ?_, ⟨?_, hresult⟩, ?_⟩
    · rw [link_cons, unlinkLoop_same hlinked hsame]
      exact hloop
    · rw [hframe cell.1 fun hmem => hnodup.1 (.tail _ hmem),
        setNext_self hlinked.1, hlink]
    · intro a ha
      rw [hframe a fun hmem => ha (by simp_all [addresses]), setNext_of_ne]
      rintro rfl
      exact ha (by simp [addresses])
  | case4 cell next rest hother ih =>
    obtain ⟨fuel, rfl⟩ : ∃ k, fuel = k + 1 := ⟨fuel - 1, by simp at hfuel; omega⟩
    obtain ⟨others, hothers, rfl⟩ := map_eq_some_iff.1 hkept
    obtain ⟨result, hloop, hresult, hframe⟩ := ih hlinked.2 (Nat.le_of_succ_le_succ hfuel) hothers
    obtain ⟨more, rfl⟩ := unlinkTail_head hothers
    refine ⟨result, ?_, ⟨?_, hresult⟩, ?_⟩
    · rw [link_cons, unlinkLoop_other hlinked hother]
      exact hloop
    · rw [hframe cell.1 (nodup_cons.1 hlinked.nodup).1, hlinked.1]
      rfl
    · exact fun a ha => hframe a fun hmem => ha (.tail _ hmem)

def removeCells (user : User) (group : CellGroup) : Option (List (ℕ × User)) :=
  removeMember (sameCell user) (group.groupname = user.username) group.userList

section Group

variable {group : CellGroup}

theorem removeUserFromCurrGroup_none (hlinked : Linked heap group.userList none)
    (hnone : removeCells user group = none) :
    removeUserFromCurrGroup heap (group.withMembers (link group.userList none)) user = none := by
  obtain ⟨groupname, gid, cells⟩ := group
  cases cells with
  | nil => simp [removeCells, removeMember] at hnone
  | cons first rest =>
    simp only [removeCells, removeMember, decide_eq_true_eq] at hnone
    split_ifs at hnone with hown hsame
    have hcompare : ¬ compareUsers first.2 user = 0 := by
      simpa [sameCell] using hsame
    have hwalk := unlinkLoop_none hlinked (heap.size + 1) hnone
    rw [link_cons] at hwalk
    simp [removeUserFromCurrGroup, GroupOf.withMembers, hown, hlinked.1, hcompare, hwalk]

theorem removeUserFromCurrGroup_some
    (hlinked : Linked heap group.userList none) (hkept : removeCells user group = some kept) :
    ∃ result, removeUserFromCurrGroup heap (group.withMembers (link group.userList none)) user =
          some (result, link kept none) ∧ Linked result kept none ∧
      ∀ a, a ∉ addresses group.userList → result.node a = heap.node a := by
  obtain ⟨groupname, gid, cells⟩ := group
  cases cells with
  | nil =>
    cases hkept
    exact ⟨heap, rfl, trivial, fun _ _ => rfl⟩
  | cons first rest =>
    simp only [removeCells, removeMember, decide_eq_true_eq] at hkept
    split_ifs at hkept with hown hsame
    · cases hkept
      exact ⟨heap, by simp [removeUserFromCurrGroup, GroupOf.withMembers, hown],
        hlinked, fun _ _ => rfl⟩
    · cases hkept
      have hcompare : compareUsers first.2 user = 0 := by
        simpa [sameCell] using hsame
      exact ⟨heap, by simp [removeUserFromCurrGroup, GroupOf.withMembers, hown,
        hlinked.1, hcompare], hlinked.2, fun _ _ => rfl⟩
    · have hcompare : ¬ compareUsers first.2 user = 0 := by
        simpa [sameCell] using hsame
      obtain ⟨result, hwalk, hresult, hframe⟩ := unlinkLoop_some hlinked
        (Nat.le_succ_of_le hlinked.length_le) hkept
      obtain ⟨others, rfl⟩ := unlinkTail_head hkept
      rw [link_cons] at hwalk
      exact ⟨result, by simp [removeUserFromCurrGroup, GroupOf.withMembers, hown,
        hlinked.1, hcompare, hwalk], hresult, hframe⟩

end Group

def removeAll (user : User) (layout : List CellGroup) : Option (List CellGroup) :=
  layout.mapM fun group => (removeCells user group).map group.withMembers

theorem removeAll_cons (group : CellGroup) (layout : List CellGroup) :
    removeAll user (group :: layout) = (removeCells user group).bind fun kept =>
        (removeAll user layout).map (group.withMembers kept :: ·) := by
  simp only [removeAll, mapM_cons, bind_eq_bind, Option.pure_def]
  cases removeCells user group with
  | none => rfl
  | some kept =>
    simp only [map_some, bind_some]
    rw [map_eq_bind]
    rfl

/-- Editing one list leaves the later ones laid out. -/
theorem laidOut_rest {result : UserHeap} {group : CellGroup}
    (hlaid : LaidOut heap (group :: layout))
    (hframe : ∀ a, a ∉ addresses group.userList → result.node a = heap.node a) :
    LaidOut result layout := by
  obtain ⟨-, hseparate, hrest⟩ := laidOut_cons.1 hlaid
  exact hrest.congr fun other hother a ha =>
    hframe a fun hmem => hseparate other hother a hmem ha

theorem leaveLoop_none (hlaid : LaidOut heap layout) (hnone : removeAll user layout = none) :
    leaveLoop user heap (pointers layout) = none := by
  induction layout generalizing heap with
  | nil => simp [removeAll] at hnone
  | cons group layout ih =>
    have hgroup := (laidOut_cons.1 hlaid).1
    rw [removeAll_cons] at hnone
    simp only [pointers, map_cons, leaveLoop]
    cases hcells : removeCells user group with
    | none => rw [removeUserFromCurrGroup_none hgroup hcells]; rfl
    | some kept =>
      obtain ⟨result, hremove, -, hframe⟩ := removeUserFromCurrGroup_some hgroup hcells
      have hrest := ih (laidOut_rest hlaid hframe)
        (by simpa [hcells] using hnone)
      rw [pointers] at hrest
      simp [hremove, hrest]

theorem leaveLoop_some {kept : List CellGroup} (hlaid : LaidOut heap layout)
    (hkept : removeAll user layout = some kept) :
    ∃ result, leaveLoop user heap (pointers layout) = some (result, pointers kept) ∧
      (∀ group ∈ kept, Linked result group.userList none) ∧
      ∀ a, (∀ group ∈ layout, a ∉ addresses group.userList) → result.node a = heap.node a := by
  induction layout generalizing heap kept with
  | nil =>
    cases hkept
    exact ⟨heap, rfl, by simp, fun _ _ => rfl⟩
  | cons group layout ih =>
    obtain ⟨hgroup, hseparate, -⟩ := laidOut_cons.1 hlaid
    rw [removeAll_cons] at hkept
    obtain ⟨cells, hcells, hmap⟩ := bind_eq_some_iff.1 hkept
    obtain ⟨others, hothers, rfl⟩ := map_eq_some_iff.1 hmap
    obtain ⟨middle, hremove, hlinked, hframe⟩ := removeUserFromCurrGroup_some hgroup hcells
    obtain ⟨result, hloop, hlater, hrest⟩ := ih (laidOut_rest hlaid hframe) hothers
    have hsublist := removeMember_sublist hcells
    refine ⟨result, ?_, ?_, ?_⟩
    · rw [pointers] at hloop
      simp [pointers, leaveLoop, hremove, hloop]
    · intro other hother
      rcases mem_cons.1 hother with rfl | hother
      · refine hlinked.congr fun a ha => hrest a fun later hlater hmem => ?_
        exact hseparate later hlater a ((hsublist.map _).subset ha) hmem
      · exact hlater other hother
    · intro a ha
      rw [hrest a fun later hlater => ha later (.tail _ hlater)]
      exact hframe a (ha group (by simp))

end Heap

/-- What `removeUserFromAllGroups` leaves of a group. -/
def leaveGroup (user : User) (group : Group) : Option Group :=
  (removeMember (fun member => compareUsers member user = 0)
    (group.groupname = user.username) group.userList).map group.withMembers

theorem mapM_leaveGroup (user : User) (layout : List CellGroup) :
    (contents layout).mapM (leaveGroup user) = (removeAll user layout).map contents := by
  induction layout with
  | nil => rfl
  | cons group layout ih =>
    have hmap : removeMember (fun member => compareUsers member user = 0)
        (group.groupname = user.username) (values group.userList) =
          (removeCells user group).map values := removeMember_map (fun _ => rfl) _ _
    have hgroup : leaveGroup user (group.withMembers (values group.userList)) =
        (removeCells user group).map fun kept =>
          group.withMembers (values kept) := by
      exact (congrArg (Option.map _) hmap).trans (Option.map_map ..)
    rw [removeAll_cons]
    simp only [contents, map_cons, mapM_cons, hgroup] at ih ⊢
    rw [ih]
    cases removeCells user group with
    | none => rfl
    | some kept => cases removeAll user layout <;> rfl

/-- The heap routine writes the outcome on lists. -/
theorem removeUserFromAllGroups_eq {after passwd group : List Byte} {groups : List Group}
    (hload : selectAllGroupsFromGroupFile after passwd group = some groups) (user : User) :
    removeUserFromAllGroups after passwd group user =
      (groups.mapM (leaveGroup user)).bind updateGroupFile := by
  obtain ⟨layout, rfl, hpointers, hlaid, -, -⟩ := allocGroups_laidOut Heap.empty groups
  rw [mapM_leaveGroup]
  cases hremove : removeAll user layout with
  | none => simp [removeUserFromAllGroups, hload, hpointers, leaveLoop_none hlaid hremove]
  | some kept =>
    obtain ⟨result, hloop, hlinked, -⟩ := leaveLoop_some hlaid hremove
    have hread : readGroups result (pointers kept) = some (contents kept) := by
      rw [readGroups, mapM_eq_some_iff, pointers, contents,
        forall₂_map_left_iff, forall₂_map_right_iff,
        forall₂_same]
      intro group hgroup
      simp [(hlinked group hgroup).walk]
    simp [removeUserFromAllGroups, hload, hpointers, hloop, hread]

/-- The user occurs at most once, and not as the last of several members. -/
def Removable (user : User) (members : List User) : Prop :=
  members.count user ≤ 1 ∧ members.tail.getLast? ≠ some user
  deriving Decidable

section Removable

variable {user : User} {first : User} {rest : List User}

theorem removable_cons_self : Removable user (user :: rest) ↔ user ∉ rest := by
  rw [Removable, count_cons_self, tail_cons]
  constructor
  · intro hremovable
    exact count_eq_zero.1 (by omega)
  · intro hnot
    rw [count_eq_zero.2 hnot]
    exact ⟨le_refl 1, fun hlast => hnot (mem_of_getLast? hlast)⟩

theorem removable_of_not_mem (hnot : user ∉ first :: rest) : Removable user (first :: rest) := by
  refine ⟨?_, fun hlast => hnot ?_⟩
  · rw [count_eq_zero.2 hnot]
    exact Nat.zero_le 1
  · exact .tail first (mem_of_getLast? hlast)

theorem filter_eq_self_of_not_mem (hnot : user ∉ members) :
    members.filter (· ≠ user) = members := by
  rw [filter_eq_self]
  intro member hmember
  simp only [ne_eq, decide_not, Bool.not_eq_eq_eq_not, Bool.not_true, decide_eq_false_iff_not]
  rintro rfl
  exact hnot hmember

/-- The user behind other members: the outcome depends on what follows. -/
theorem unlink_iff_removable {front back : List User}
    (hfirst : first ≠ user) (hfront : user ∉ front) (hsorted : SortedBy User.uid (user :: back))
    (huid : ∀ member ∈ first :: (front ++ user :: back), member.uid = user.uid → member = user) :
    unlinkTail (fun member => compareUsers member user = 0) (first :: (front ++ user :: back)) =
        some ((first :: (front ++ user :: back)).filter (· ≠ user)) ↔
      Removable user (first :: (front ++ user :: back)) := by
  have hother : ∀ member ∈ first :: (front ++ user :: back), member ≠ user →
      decide (compareUsers member user = 0) = false := fun member hmember hne =>
    decide_eq_false fun hzero =>
      hne (huid member hmember ((compareUsers_eq_zero _ _).1 hzero))
  rw [unlinkTail_found (fun other hmem => hother other (by simp [hmem]) fun h => hfront (h ▸ hmem))
    (decide_eq_true ((compareUsers_eq_zero user user).2 rfl))]
  cases back with
  | nil =>
    -- The user is last: the walk follows a null pointer.
    refine iff_of_false (by simp [unlinkTail]) fun hremovable => ?_
    exact hremovable.2 (by simp)
  | cons next more =>
    by_cases hnext : next = user
    · -- A second node of the user follows and is stepped over.
      subst hnext
      refine iff_of_false (fun hkept => ?_) fun hremovable => ?_
      · obtain ⟨kept, hmore, hkept⟩ := map_eq_some_iff.1 hkept
        obtain ⟨others, rfl⟩ := unlinkTail_head hmore
        have hmem : next ∈ (first :: (front ++ next :: next :: more)).filter
            (· ≠ next) := hkept ▸ (by simp)
        simp at hmem
      · have hcount := hremovable.1
        simp [count_cons, count_append] at hcount
        omega
    · have hnot : user ∉ next :: more := by
        obtain ⟨hle, hmore⟩ := pairwise_cons.1 hsorted
        have hlt : user.uid < next.uid := lt_of_le_of_ne (hle next (by simp))
          fun h => hnext (huid next (by simp) h.symm)
        rintro (_ | ⟨_, hmem⟩)
        · exact hnext rfl
        · exact absurd ((pairwise_cons.1 hmore).1 user hmem) (not_le.2 hlt)
      refine iff_of_true ?_ ⟨?_, ?_⟩
      · rw [unlinkTail_absent fun other hmem => hother other (by simp [hmem])
          fun h => hnot (h ▸ .tail next hmem)]
        have hbefore : user ∉ first :: front := by
          simpa [Ne.symm hfirst] using hfront
        rw [← cons_append, filter_append,
          filter_eq_self_of_not_mem hbefore, filter_cons_of_neg (by simp),
          filter_eq_self_of_not_mem hnot]
        rfl
      · rw [← cons_append, count_append, count_cons_self,
          count_eq_zero.2 hnot, count_cons_of_ne hfirst,
          count_eq_zero.2 hfront]
      · intro hlast
        rw [tail_cons, getLast?_append_of_ne_nil _ (by simp),
          getLast?_cons_cons] at hlast
        exact hnot (mem_of_getLast? hlast)

end Removable

/-- The walk removes the user from a sorted list, and nothing else, exactly
when the user is removable. -/
theorem removeMember_eq_filter_iff {user : User} (hsorted : SortedBy User.uid members)
    (huid : ∀ member ∈ members, member.uid = user.uid → member = user) :
    removeMember (fun member => compareUsers member user = 0) false members =
        some (members.filter (· ≠ user)) ↔ Removable user members := by
  have hself : compareUsers user user = 0 := (compareUsers_eq_zero _ _).2 rfl
  cases members with
  | nil => simp [removeMember, Removable]
  | cons first rest =>
    by_cases hfirst : first = user
    · subst hfirst
      rw [removable_cons_self]
      simp only [removeMember, hself, decide_true, Bool.false_eq_true, if_true, if_false, some_inj]
      rw [filter_cons_of_neg (by simp)]
      refine ⟨fun heq hmem => ?_, fun hnot => ?_⟩
      · rw [heq] at hmem
        simp at hmem
      · exact (filter_eq_self_of_not_mem hnot).symm
    · have hcompare : ¬ compareUsers first user = 0 := fun h =>
        hfirst (huid first (by simp) ((compareUsers_eq_zero _ _).1 h))
      simp only [removeMember, hcompare, decide_false, Bool.false_eq_true, if_false]
      by_cases hmem : user ∈ rest
      · obtain ⟨front, back, rfl, hfront⟩ := eq_append_cons_of_mem hmem
        refine unlink_iff_removable hfirst hfront ?_ huid
        exact hsorted.sublist ((sublist_append_right front _).cons first)
      · have hnot : user ∉ first :: rest := by
          simpa [Ne.symm hfirst] using hmem
        refine iff_of_true ?_ (removable_of_not_mem hnot)
        rw [filter_eq_self_of_not_mem hnot]
        refine unlinkTail_absent fun other hother => decide_eq_false fun h => ?_
        have := huid other (by simp [hother]) ((compareUsers_eq_zero _ _).1 h)
        exact hmem (this ▸ hother)

theorem length_memberText (isFirstUser : Bool) (users : List User) :
    (memberText isFirstUser users).length = (users.map fun user => user.username.length + 1).sum -
        if isFirstUser then 1 else 0 := by
  induction users generalizing isFirstUser with
  | nil => simp [memberText]
  | cons user users ih =>
    cases isFirstUser
    · simp [memberText, ih]
      omega
    · simp [memberText, ih]

theorem groupFits_of_sublist (hfits : GroupFits group)
    (hsublist : members.Sublist group.userList) : GroupFits (group.withMembers members) := by
  have hsum : (members.map fun user => user.username.length + 1).sum ≤
      (group.userList.map fun user => user.username.length + 1).sum :=
    (hsublist.map _).sum_le_sum (by simp)
  refine lt_of_le_of_lt ?_ hfits
  simp only [getStringFromGroup, GroupOf.withMembers, length_append,
    length_cons, length_memberText, if_true]
  omega

/-- `new` is `old` after the call: the group named after the user is
unchanged, any other group lost the user and nobody else. -/
structure Leaves (user : User) (old new : Group) : Prop where
  groupname : new.groupname = old.groupname
  gid : new.gid = old.gid
  members : new.userList =
    if old.groupname = user.username then old.userList
    else old.userList.filter (· ≠ user)

/-- The call follows no null pointer, and loading the file again shows that the
user has left all groups but the one of the same name. -/
def RemovesExactly (db : Database) (beyond beyond' : List Byte) (user : User) : Prop :=
  ∃ content reloaded, removeUserFromAllGroups (0 :: beyond) db.passwd db.group user = some content ∧
    selectAllGroupsFromGroupFile (0 :: beyond') db.passwd content = some reloaded ∧
    List.Forall₂ (Leaves user) db.groups reloaded

section Claim

variable {db : NamedDatabase} {user : User}

/-- Groups with fewer members are loaded as they were written. -/
theorem reload_left {shrink : Group → Group} {content : List Byte}
    (hshrink : ∀ group ∈ db.groups, ∃ kept : List User,
      kept.Sublist group.userList ∧ shrink group = group.withMembers kept)
    (hwrite : updateGroupFile (db.groups.map shrink) = some content) (beyond : List Byte) :
    selectAllGroupsFromGroupFile (0 :: beyond) db.passwd content = some (db.groups.map shrink) := by
  have hmembers : ∀ group ∈ db.groups, ∀ member ∈ (shrink group).userList,
      member ∈ db.users ∧ comma ∉ member.username := by
    intro group hgroup member hmember
    obtain ⟨kept, hsublist, heq⟩ := hshrink group hgroup
    rw [heq] at hmember
    exact Database.members_resolved hgroup (hsublist.subset hmember)
  rw [db.reload_groups ?_ ?_ ?_ hwrite, List.map_map]
  · refine congrArg some (List.map_congr_left fun group hgroup => ?_)
    obtain ⟨kept, hsublist, heq⟩ := hshrink group hgroup
    have hsorted := (Database.members_sorted hgroup).sublist hsublist
    have hresolved := hmembers group hgroup
    rw [heq, userList_withMembers] at hresolved
    rw [Function.comp_apply, heq, userList_withMembers,
      resolve_memberNames db.usernames (fun _ => db.named) hresolved,
      insertAll_of_sorted compareUsers_pos hsorted, withMembers_withMembers]
  · intro group hgroup
    obtain ⟨old, hold, rfl⟩ := List.mem_map.1 hgroup
    obtain ⟨kept, -, heq⟩ := hshrink old hold
    obtain ⟨hname, hgid, hnonneg⟩ := db.groupKeys old hold
    rw [heq]
    exact ⟨hname, hgid, hnonneg⟩
  · intro group hgroup member hmember
    obtain ⟨old, hold, rfl⟩ := List.mem_map.1 hgroup
    exact (hmembers old hold member hmember).1
  · refine List.pairwise_map.2 (db.groups_sorted.imp_of_mem ?_)
    intro left right hleft hright hle
    obtain ⟨_, -, heq⟩ := hshrink left hleft
    obtain ⟨_, -, heq'⟩ := hshrink right hright
    rw [heq, heq']
    exact hle

def leftGroup (user : User) (group : Group) : Group :=
  if group.groupname = user.username then group
  else group.withMembers (group.userList.filter (· ≠ user))

theorem leaveGroup_iff (huser : user ∈ db.users) (hgroup : group ∈ db.groups) :
    leaveGroup user group = some (leftGroup user group) ↔
      (group.groupname ≠ user.username → Removable user group.userList) := by
  have hiff := removeMember_eq_filter_iff (Database.members_sorted hgroup)
    fun member hmember huid => inj_on_of_nodup_map db.uids
      (Database.members_resolved hgroup hmember).1 huser huid
  by_cases hown : group.groupname = user.username
  · refine iff_of_true ?_ fun hne => absurd hown hne
    have hkept : removeMember (fun member => compareUsers member user = 0) true
        group.userList = some group.userList := by
      cases group.userList <;> rfl
    rw [leaveGroup, leftGroup, if_pos hown, decide_eq_true hown, hkept]
    rfl
  · rw [leaveGroup, leftGroup, if_neg hown, decide_eq_false hown, forall_prop_of_true hown, ← hiff]
    refine ⟨fun hleft => ?_, fun hkept => by rw [hkept]; rfl⟩
    obtain ⟨kept, hkept, heq⟩ := map_eq_some_iff.1 hleft
    rw [hkept]
    exact congrArg some (congrArg GroupOf.userList heq)

end Claim

def oneGroup : List Group :=
  [⟨str "a", 1, [ken, sam]⟩]

theorem storable_oneGroup : Storable [ken, sam] oneGroup := by
  decide +kernel

def groupOfTwo : NamedDatabase :=
  NamedDatabase.store [ken, sam] oneGroup storable_oneGroup

end Xv6Users.LeaveGroups
